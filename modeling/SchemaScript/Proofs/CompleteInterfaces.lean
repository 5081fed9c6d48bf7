import SchemaScript.Proofs.Emission.Building
import SchemaScript.Proofs.PublicRuns

/-!
# Complete interfaces

An interface is queued before its fields are emitted, and its properties may lead back to it,
to other interfaces, and to failures at any depth.  Nothing of this can be seen from outside:
in every state during a session of public commands, each interface that waits or is being
written has exactly one field for each property of its schema that is no extension, in the
order of the schema.

An emission that returns or fails leaves only what is built in full behind the declarations
there were, by `adds_emit`.  The other operations bring in no interfaces.

## Main definitions

* `Schema.Requires` — the schema lists the property as required.
* `Declaration.IsComplete` — the interface has all its fields and no others.
* `Machine.KeepsComplete` — no state of a run shows an interface that is not complete.

## Main results

* `Resolver.isComplete_operate` — what one operation keeps.
* `session_isComplete` — interfaces are complete in every state of a session.
-/

namespace SchemaScript

open Stateful

/-! ### Complete interfaces -/

namespace Schema

/-- The schema has a list of required names, with the one among them. -/
def Requires (schema : Json) (name : String) : Prop :=
  ∃ names, schema.get "required" = .arr names ∧ Json.str name ∈ names

theorem requires_iff {schema : Json} {name : String} :
    Resolver.requires schema name = true ↔ Requires schema name := by
  have hstr : ∀ v : Json, v.isStr name = true ↔ Json.str name = v := by
    intro v
    cases v with
    | str text => simp [Json.isStr, Json.str?, eq_comm (a := name)]
    | _ => simp [Json.isStr, Json.str?]
  unfold Resolver.requires Requires
  cases hr : schema.get "required" with
  | arr names => simp [hstr]
  | _ => simp

/-- Extensions are told by how their names start. -/
theorem isExtension_iff {name : String} :
    Resolver.isExtension name = true ↔ ['x', '-'] <+: name.toList := by
  rw [Resolver.isExtension, Option.isSome_iff_exists]
  constructor
  · rintro ⟨rest, hrest⟩
    exact ⟨rest, (Text.eq_append_of_after? hrest).symm⟩
  · rintro ⟨rest, hrest⟩
    exact ⟨rest, hrest ▸ Text.after?_append ['x', '-'] rest⟩

theorem properties_eq (schema : Json) :
    properties schema =
      (schema.get "properties").fields.filter fun p => ¬ ['x', '-'] <+: p.1.toList := by
  refine List.filter_congr fun p _ => ?_
  rw [Bool.eq_iff_iff, Bool.not_eq_true', decide_eq_true_eq, ← isExtension_iff,
    Bool.not_eq_true]

end Schema

/-- The field is one for the property of the schema. -/
structure Field.IsFor (schema : Json) (p : String × Json) (f : Field) : Prop where
  schemaName : f.schemaName = p.1
  optional : f.optional = true ↔ ¬ Schema.Requires schema p.1

/-- An interface has one field for each property of its schema whose name does not start
with `x-`, in the order of the schema. -/
def Declaration.IsComplete {ε : Type} (d : Declaration ε) : Prop :=
  ∀ fs, d.body = .struct fs → ∃ schema, d.origin = some schema ∧
    List.Forall₂ (Field.IsFor schema)
      ((schema.get "properties").fields.filter fun p => ¬ ['x', '-'] <+: p.1.toList) fs

theorem Site.isFor_field (s : Site) (p : String × Json) (t : TypeExpr) :
    (s.field p t).IsFor s.schema p where
  schemaName := rfl
  optional := by simp [Site.field, ← Schema.requires_iff]

/-- What is built in full is complete. -/
theorem Site.Declared.isComplete {ε : Type} {T : Site → TypeExpr → Prop} {s : Site}
    {d : Declaration ε} (h : s.Declared T d) : d.IsComplete := by
  cases h with
  | union hk => exact fun fs hfs => nomatch hfs
  | enum hk hms => exact fun fs hfs => nomatch hfs
  | struct hk hfields =>
    rintro _ ⟨⟩
    refine ⟨s.schema, rfl, ?_⟩
    rw [← Schema.properties_eq]
    refine hfields.imp fun p f hf => ?_
    obtain ⟨t, rfl, -⟩ := hf
    exact s.isFor_field p t

/-! ### Histories -/

namespace Resolver

variable {ε : Type}

/-- Behind an emission that returned or failed, all is complete if it was. -/
theorem isComplete_emit (typeName : String) (node : Node) (fqn : Option String) {r : Resolver ε}
    (h : ∀ d ∈ r.queue.declarations, d.IsComplete) :
    ∀ d ∈ (exec (emit typeName node fqn) r).2.queue.declarations, d.IsComplete := by
  -- nothing is asked of the schemas here
  have hadds : Adds (Builds (fun _ _ => True) fun _ => True) r
      (exec (emit typeName node fqn) r).2 :=
    adds_emit (fun _ => relates_true _) (fun _ _ _ => trivial) typeName (fun _ _ => trivial) fqn
  have hentries := hadds.forall_mem (Q := fun e => e.2.IsComplete)
    (fun e he => h e.2 (List.mem_map_of_mem he))
    (fun e ⟨s, _, _, hdeclared⟩ => hdeclared.isComplete)
  intro d hd
  obtain ⟨e, he, rfl⟩ := List.mem_map.mp hd
  exact hentries e he

/-- One operation. -/
theorem isComplete_operate (op : Operation ε) {r : Resolver ε}
    (h : ∀ d ∈ r.queue.declarations, d.IsComplete) :
    ∀ d ∈ (exec (operate op) r).2.queue.declarations, d.IsComplete := by
  cases op with
  | emit typeName node fqn =>
    rw [exec_operate_emit]
    exact isComplete_emit typeName node fqn h
  | takeOver name script =>
    rw [exec_operate_takeOver, exec_enqueueCustom]
    dsimp only
    split
    · intro d hd
      obtain ⟨e, he, rfl⟩ := List.mem_map.mp hd
      rcases Table.mem_entries_insert he with he | rfl
      · exact h e.2 (List.mem_map_of_mem he)
      · -- what is made by hand is no interface
        exact fun fs hfs => nomatch hfs
    · exact h
  | define name node => exact h
  | addAlias name target => exact h
  | retire name =>
    rw [exec_operate_retire]
    split
    · intro d hd
      obtain ⟨e, he, rfl⟩ := List.mem_map.mp hd
      exact h e.2 (List.mem_map_of_mem ((r.queue.waiting.erase_entries_sublist name).subset he))
    · exact h

end Resolver

/-! ### Sessions -/

namespace Workshop

open Machine

/-- Interfaces are complete during a run of the machine. -/
structure Machine.KeepsComplete (start last : Machine) : Prop where
  /-- The run ends there. -/
  ends : Reaches start last ∧ last.step = none
  /-- In every state the interfaces that wait are complete. -/
  waiting : ∀ m, Reaches start m → ∀ d ∈ m.queue.declarations, d.IsComplete
  /-- What is about to be written is complete. -/
  writing : ∀ m, Reaches start m → ∀ on d, .write on d ∈ m.tasks → d.IsComplete

/-- **No interface is half-built** in any state of a session of public commands, and none is
written that is. -/
theorem session_isComplete (es : List Exclusion) (ds : Definitions) (cs : List Command)
    (hcs : ∀ c ∈ cs, isPublic c = true) :
    (Machine.ofSession cs (.ofResolver (.fresh es ds))).KeepsComplete
      (.finished (session cs (.ofResolver (.fresh es ds))).2) := by
  have hkeeps : Keeps Declaration.IsComplete := fun op _ h => Resolver.isComplete_operate op h
  have hstart : (Machine.ofSession cs (.ofResolver (.fresh es ds))).Respects
      Declaration.IsComplete := respects_ofSession hcs es ds
  refine ⟨⟨reaches_session cs _, rfl⟩, fun m hm => ?_, fun m hm on d hd => ?_⟩
  · exact (hstart.reaches hkeeps hm).2.waiting
  · exact (hstart.reaches hkeeps hm).2.of_write hd

/-- A session in which an interface that leads back to itself fails and is emitted again, and
a script emits another one while they are written. -/
def mending : List Command :=
  [.define "Node" (.given (.obj [("properties", .obj [
      ("next", .obj [("$ref", .str "#/definitions/Node")]),
      ("x-note", .obj []),
      ("leaf", .obj [("properties", .obj [("end", .obj [("$ref", .str "#/definitions/Leaf")])])])]),
      ("required", .arr [.str "leaf"])])),
    .emitNamed "Node",
    .define "Leaf" (.given (.obj [("properties", .obj [])])),
    .emitNamed "Node",
    .takeOver "Leaf" (some [.command (.emit "Late"
      (.given (.obj [("properties", .obj [("a", .obj [])])])) none)]),
    .renderShared]

/-- During this session three interfaces are written, the last one emitted by the script. -/
theorem session_isComplete_mending :
    (Machine.ofSession mending (.ofResolver (.fresh [] .empty))).KeepsComplete
        (.finished (session mending (.ofResolver (.fresh [] .empty))).2) ∧
      (session (mending.take 2) (.ofResolver (.fresh [] .empty))).2.resolver.queue.names = [] ∧
      (session mending (.ofResolver (.fresh [] .empty))).2.resolver.queue.written =
        ["Node", "NodeLeaf", "Leaf", "Late"] :=
  ⟨session_isComplete [] .empty mending (by decide), by decide +kernel, by decide +kernel⟩

end Workshop
end SchemaScript
