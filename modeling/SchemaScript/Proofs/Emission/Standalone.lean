import SchemaScript.Proofs.Emission.Atomicity
import SchemaScript.Proofs.Emission.Settling
import SchemaScript.Proofs.Schemas

/-!
# Standalone schemas

An emission looks at what is remembered in two places only: where it comes to a reference,
and where it comes to a definition.  A schema is standalone if no way down from it leads to
a reference, nor to a `null`, in whose place a definition is looked up.  What is written
inside it is emitted without a look at what is remembered.

So the emission of a standalone schema can be told in a state that remembers nothing.  If
more is remembered, the same happens, and the rest stays in front of what is added.

## Main definitions

* `Schema.IsStandalone` — nothing that is remembered is asked for.
* `Resolver.recalling` — a state in which more is remembered.
* `Resolver.Ignores` — a computation does the same if more is remembered.

## Main results

* `ignores_emitWith` — standalone schemas inside others, down to any depth.
* `ignores_emit` — requests for definitions that are standalone.
-/

namespace SchemaScript

/-- On the ways down there are no references, and no properties that are `null`. -/
def Schema.IsStandalone : Json → Prop :=
  Everywhere fun v => classify v ≠ .ok .ref ∧
    (classify v = .ok .struct → ∀ p ∈ properties v, p.2.isNull = false)

namespace Schema.IsStandalone

variable {schema : Json}

/-- A schema of a kind that leads nowhere. -/
theorem leaf (kind : Kind) (hk : classify schema = .ok kind)
    (hleaf : kind ≠ .ref ∧ kind ≠ .array ∧ kind ≠ .map ∧ kind ≠ .struct) :
    IsStandalone schema := by
  refine Everywhere.leaf kind hk hleaf.2 ⟨fun href => ?_, fun hstruct => ?_⟩
  · exact hleaf.1 (Except.ok.inj (hk.symm.trans href))
  · exact absurd (Except.ok.inj (hk.symm.trans hstruct)) hleaf.2.2.2

/-- An array of what is standalone. -/
theorem array (hk : classify schema = .ok .array) (hitems : IsStandalone (schema.get "items")) :
    IsStandalone schema := by
  refine Everywhere.of_parts ⟨?_, ?_⟩ (fun _ => hitems) ?_ ?_ <;> rw [hk] <;> rintro ⟨⟩

end Schema.IsStandalone

namespace Stateful

variable {σ τ α β : Type}

/-- An outcome with its state replaced. -/
def mapState (g : σ → τ) (o : Except Failure α × σ) : Except Failure α × τ := (o.1, g o.2)

/-- The value and the state of an outcome are replaced in any order. -/
theorem mapValue_mapState (f : α → β) (g : σ → τ) (o : Except Failure α × σ) :
    mapValue f (mapState g o) = mapState g (mapValue f o) := rfl

end Stateful

namespace Resolver

open Stateful

variable {ε : Type} {t : Table TypeExpr}

/-! ### States in which more is remembered -/

/-- The resolver that remembers more, in front of what it does. -/
def recalling (t : Table TypeExpr) (r : Resolver ε) : Resolver ε :=
  { r with resolved := ⟨t.entries ++ r.resolved.entries⟩ }

/-- The resolver that remembers nothing. -/
def forgetful (r : Resolver ε) : Resolver ε := { r with resolved := .empty }

theorem queue_recalling (r : Resolver ε) : (r.recalling t).queue = r.queue := rfl

theorem opening_recalling (r : Resolver ε) : (r.recalling t).opening = r.opening := rfl

theorem isDefinition_recalling (r : Resolver ε) (typeName : String) (node : Node)
    (fqn : String) :
    (r.recalling t).isDefinition typeName node fqn = r.isDefinition typeName node fqn := rfl

theorem admission_recalling (r : Resolver ε) (typeName : String) (node : Node) (fqn : String) :
    (r.recalling t).admission typeName node fqn = r.admission typeName node fqn := rfl

@[simp] theorem recalling_forgetful (r : Resolver ε) :
    r.forgetful.recalling r.resolved = r := by
  simp [recalling, forgetful, Table.empty]

/-- Names that the table does not tell are looked up behind it. -/
theorem find?_recalling {name : String} (h : t.find? name = none) (r : Resolver ε) :
    (r.recalling t).resolved.find? name = r.resolved.find? name :=
  Entries.find?_append_of_eq_none r.resolved.entries h

/-- What is remembered is added behind the table. -/
theorem remembered_recalling {name : String} (h : t.find? name = none) (r : Resolver ε)
    (u : TypeExpr) : (r.recalling t).remembered name u = (r.remembered name u).recalling t := by
  rw [Table.find?_eq_none_iff] at h
  simp only [remembered, recalling, Table.insert]
  rw [Entries.put_append u r.resolved.entries h]

/-- Only what came behind the table is cut off. -/
theorem reverted_recalling (r before : Resolver ε) :
    (r.recalling t).reverted (before.recalling t) = (r.reverted before).recalling t := by
  simp [reverted, recalling, Table.take, Table.size, List.take_append]

/-- The computation does the same if more is remembered. -/
def Ignores {α : Type} (t : Table TypeExpr) (m : Resolving ε α) (r : Resolver ε) : Prop :=
  exec m (r.recalling t) = mapState (recalling t) (exec m r)

/-- Standalone schemas written inside others are emitted alike if more is remembered. -/
def AlwaysIgnores (t : Table TypeExpr) (emit : Emitting ε) : Prop :=
  ∀ typeName schema place r, Schema.IsStandalone schema → schema.isNull = false →
    Ignores t (emit typeName (.inline schema) place) r

/-! ### Kinds -/

theorem ignores_emitUnion (typeName : String) (schema : Json) (fqn : String) (r : Resolver ε) :
    Ignores t (emitUnion typeName schema fqn) r := by
  rw [Ignores, exec_emitUnion, exec_emitUnion, queue_recalling]
  by_cases h : r.queue.isKnown typeName = true
  · rw [if_pos h, if_pos h]
    rfl
  · rw [if_neg h, if_neg h]
    rfl

theorem ignores_emitEnum (typeName : String) (schema : Json) (fqn : String) (r : Resolver ε) :
    Ignores t (emitEnum typeName schema fqn) r := by
  obtain ⟨ms, ns, -, hexec⟩ := exec_emitEnum (ε := ε) typeName schema fqn
  rw [Ignores, hexec, hexec, queue_recalling]
  by_cases h : r.queue.isKnown typeName = true
  · rw [if_pos h, if_pos h]
    rfl
  · rw [if_neg h, if_neg h]
    cases ms <;> rfl

section

variable {emit : Emitting ε} (he : AlwaysIgnores t emit)

include he

theorem ignores_emitArray {schema : Json} (hs : Schema.IsStandalone schema)
    (hk : Schema.classify schema = .ok .array) (typeName fqn : String) (r : Resolver ε) :
    Ignores t (emitArray emit typeName schema fqn) r := by
  rw [Ignores, exec_emitArray, exec_emitArray]
  by_cases hi : (schema.get "items").isObject = true
  · have hitems := he (Name.ofPath typeName) _ fqn r (hs.items hk) (isNull_of_isObject hi)
    rw [if_pos hi, if_pos hi, ← mapValue_mapState]
    exact congrArg (mapValue _) hitems
  · rw [if_neg hi, if_neg hi]
    rfl

theorem ignores_emitMap {schema : Json} (hs : Schema.IsStandalone schema)
    (hk : Schema.classify schema = .ok .map) (typeName fqn : String) (r : Resolver ε) :
    Ignores t (emitMap emit typeName schema fqn) r := by
  have hvalues := he (Name.ofPath typeName) _ fqn r (hs.values hk)
    (isNull_of_isObject (isObject_of_classify_map hk))
  rw [Ignores, exec_emitMap, exec_emitMap, ← mapValue_mapState]
  exact congrArg (mapValue _) hvalues

/-- The fields for properties that are standalone. -/
theorem ignores_fields (structFqn : String) (struct : Json) {ps : List (String × Json)}
    (hps : ∀ p ∈ ps, isExtension p.1 = false → Schema.IsStandalone p.2 ∧ p.2.isNull = false)
    (r : Resolver ε) : Ignores t (fields emit structFqn struct ps) r := by
  induction ps generalizing r with
  | nil => rfl
  | cons p ps ih =>
    have hrest := ih fun q hq => hps q (List.mem_cons_of_mem p hq)
    rw [Ignores, exec_fields_cons, exec_fields_cons]
    by_cases hx : isExtension p.1 = true
    · rw [if_pos hx, if_pos hx]
      exact hrest r
    · obtain ⟨hp, hnull⟩ := hps p List.mem_cons_self (Bool.eq_false_iff.mpr hx)
      let place := structFqn ++ "." ++ Name.fieldName p.1
      have hfield := he (Name.ofPath place) p.2 place r hp hnull
      rw [if_neg hx, if_neg hx, exec_field, exec_field, emitInner, hfield]
      rcases exec (emit (Name.ofPath place) (.inline p.2) place) r with ⟨e | u, r'⟩
      · rfl
      · -- the other fields go on from where the first one ends
        exact (congrArg (mapValue _) (hrest r')).trans (mapValue_mapState ..)

theorem ignores_emitStruct {schema : Json} (hs : Schema.IsStandalone schema)
    (hk : Schema.classify schema = .ok .struct) (typeName fqn : String) (r : Resolver ε) :
    Ignores t (emitStruct emit typeName schema fqn) r := by
  rw [Ignores, exec_emitStruct, exec_emitStruct, queue_recalling]
  by_cases h : r.queue.isKnown typeName = true
  · rw [if_pos h, if_pos h]
    rfl
  · rw [if_neg h, if_neg h]
    let c : Declaration ε := ⟨typeName, fqn, schema.get "description", some schema, .struct []⟩
    have hps : ∀ p ∈ (schema.get "properties").fields, isExtension p.1 = false →
        Schema.IsStandalone p.2 ∧ p.2.isNull = false := by
      intro p hp hx
      have hmem : p ∈ Schema.properties schema := Schema.mem_properties.mpr ⟨hp, hx⟩
      exact ⟨hs.property hk hmem, hs.here.2 hk p hmem⟩
    have hfields : exec (fields emit fqn schema (schema.get "properties").fields)
        ((r.recalling t).declared c) = mapState (recalling t)
          (exec (fields emit fqn schema (schema.get "properties").fields) (r.declared c)) :=
      ignores_fields he fqn schema hps (r.declared c)
    rw [hfields]
    rcases exec (fields emit fqn schema (schema.get "properties").fields) (r.declared c)
      with ⟨e | fs, r'⟩
    · exact congrArg (Prod.mk _) (reverted_recalling r' r)
    · rfl

/-- A standalone schema of any kind; it is no reference. -/
theorem ignores_emitKind {kind : Kind} {schema : Json} (hs : Schema.IsStandalone schema)
    (hk : Schema.classify schema = .ok kind) (typeName fqn : String) (r : Resolver ε) :
    Ignores t (emitKind emit kind typeName schema fqn) r := by
  cases kind with
  | ref => exact absurd hk hs.here.1
  | union => exact ignores_emitUnion typeName schema fqn r
  | array => exact ignores_emitArray he hs hk typeName fqn r
  | enumString => exact ignores_emitEnum typeName schema fqn r
  | map => exact ignores_emitMap he hs hk typeName fqn r
  | struct => exact ignores_emitStruct he hs hk typeName fqn r
  | _ => rfl

end

/-! ### One emission -/

/-- A definition whose name is not remembered, if its kind is emitted alike. -/
theorem ignores_emitDefinition {emit : Emitting ε} {kind : Kind} {typeName fqn : String}
    {schema : Json} {r : Resolver ε} (hfind : t.find? typeName = none)
    (hkind : Ignores t (emitKind emit kind typeName schema fqn) (r.opened typeName ⟨fqn, kind⟩)) :
    Ignores t (emitDefinition emit kind typeName schema fqn) r := by
  rw [Ignores, exec_emitDefinition, exec_emitDefinition, find?_recalling hfind]
  cases r.resolved.find? typeName with
  | some u => rfl
  | none =>
    rcases hexec : exec (emitKind emit kind typeName schema fqn) (r.opened typeName ⟨fqn, kind⟩)
      with ⟨o, r'⟩
    have hopened : exec (emitKind emit kind typeName schema fqn)
        ((r.recalling t).opened typeName ⟨fqn, kind⟩) = (o, r'.recalling t) :=
      hkind.trans (congrArg (mapState (recalling t)) hexec)
    rw [hopened]
    dsimp only
    rw [opening_recalling]
    by_cases hopen : r'.opening.contains typeName = true
    · rw [if_pos hopen, if_pos hopen]
      cases o with
      | error e => rfl
      | ok u => exact congrArg (Prod.mk _) (remembered_recalling hfind (r'.closed typeName) u)
    · rw [if_neg hopen, if_neg hopen]
      rfl

/-- One emission of a schema that is no `null`, if a definition of its name is not remembered
and the kind is emitted alike. -/
theorem ignores_emitStep {emit : Emitting ε} {typeName place : String} {node : Node}
    {r : Resolver ε} (hnull : node.schema.isNull = false)
    (hfind : r.isDefinition typeName node (Definitions.withoutStart place) = true →
      t.find? typeName = none)
    (hkind : ∀ kind, Schema.classify node.schema = .ok kind → ∀ r' : Resolver ε,
      r'.definitions = r.definitions → Ignores t
        (emitKind emit kind typeName node.schema (Definitions.withoutStart place)) r') :
    Ignores t (emitStep emit typeName node place) r := by
  rw [Ignores, exec_emitStep, exec_emitStep, nodeFor_of_not_isNull _ hnull,
    nodeFor_of_not_isNull _ hnull]
  dsimp only
  rw [admission_recalling]
  cases ha : r.admission typeName node (Definitions.withoutStart place) with
  | error e => rfl
  | ok kind =>
    have hk : Schema.classify node.schema = .ok kind := classify_of_admission ha
    dsimp only
    cases kind.scalar? with
    | some s => rfl
    | none =>
      dsimp only
      rw [isDefinition_recalling]
      by_cases hd : r.isDefinition typeName node (Definitions.withoutStart place) = true
      · rw [if_pos hd, if_pos hd]
        exact ignores_emitDefinition (hfind hd) (hkind kind hk _ rfl)
      · rw [if_neg hd, if_neg hd]
        exact hkind kind hk r rfl

/-- **Emissions of standalone schemas do not look at what is remembered.** -/
theorem ignores_emitWith (t : Table TypeExpr) (n : Nat) :
    AlwaysIgnores t (emitWith n : Emitting ε) := by
  induction n with
  | zero => exact fun _ _ _ _ _ _ => rfl
  | succ n ih =>
    intro typeName schema place r hs hnull
    refine ignores_emitStep hnull (fun hd => ?_)
      fun kind hk r' _ => ignores_emitKind ih hs hk _ _ r'
    -- what is written inside another schema is no definition
    rw [isDefinition, Definitions.holds_inline] at hd
    cases hd

/-! ### References -/

/-- A reference to a name that is not remembered. -/
theorem read_recalling {schema : Json} {name : String}
    (hpath : Definitions.path? (schema.get "$ref") = some name)
    (hfind : t.find? (Name.ofDefinition name) = none) (r : Resolver ε) (fqn : String) :
    (r.recalling t).read schema fqn = r.read schema fqn := by
  unfold read
  rw [hpath]
  dsimp only
  rw [find?_recalling hfind]
  rfl

/-- What is defined under a name that is not remembered, if it is standalone. -/
theorem ignores_emitWith_definition {r : Resolver ε} {name : String}
    (hs : Schema.IsStandalone (r.definitions.get name))
    (hnull : (r.definitions.get name).isNull = false)
    (hfind : t.find? (Name.ofDefinition name) = none) (n : Nat) (place : String) :
    Ignores t (emitWith n (Name.ofDefinition name) (r.definitions.node name) place) r := by
  cases n with
  | zero => rfl
  | succ n =>
    exact ignores_emitStep hnull (fun _ => hfind) fun kind hk r' _ =>
      ignores_emitKind (ignores_emitWith t n) hs hk _ _ r'

/-- A reference to it. -/
theorem ignores_emitRef {r : Resolver ε} {schema : Json} {name : String}
    (hpath : Definitions.path? (schema.get "$ref") = some name)
    (hs : Schema.IsStandalone (r.definitions.get name))
    (hfind : t.find? (Name.ofDefinition name) = none) (n : Nat) (fqn : String) :
    Ignores t (emitRef (emitWith n) schema fqn) r := by
  rw [Ignores, exec_emitRef, exec_emitRef, read_recalling hpath hfind]
  cases hread : r.read schema fqn with
  | failed e => rfl
  | answered u ns => rfl
  | followed typeName node place =>
    obtain ⟨-, path, rfl, rfl, hresolve, hpath'⟩ := of_followed hread
    cases hpath.symm.trans hpath'
    obtain ⟨rfl, hnull⟩ := Definitions.resolve_eq_ok hpath hresolve
    exact ignores_emitWith_definition hs hnull hfind n _

/-- **A request for a standalone definition does not look at what is remembered under other
names**, its own if the request is a definition, too, and that of what it asks for. -/
theorem ignores_emit {r : Resolver ε} {typeName name : String} {node : Node}
    {fqn : Option String} (hk : Schema.classify node.schema = .ok .ref)
    (hpath : Definitions.path? (node.schema.get "$ref") = some name)
    (hs : Schema.IsStandalone (r.definitions.get name))
    (hfind : t.find? (Name.ofDefinition name) = none)
    (hown : r.isDefinition typeName node (Definitions.withoutStart (fqn.getD typeName)) = true →
      t.find? typeName = none) :
    Ignores t (emit typeName node fqn) r := by
  have hnull : node.schema.isNull = false := Schema.not_isNull_of_classify hk rfl
  rw [Ignores, exec_emit, exec_emit]
  have hfuel : (r.recalling t).fuelFor node = r.fuelFor node := rfl
  rw [hfuel]
  cases r.fuelFor node with
  | zero => rfl
  | succ n =>
    refine ignores_emitStep hnull hown fun kind hk' r' hr' => ?_
    cases hk.symm.trans hk'
    exact ignores_emitRef hpath (hr' ▸ hs) hfind n _

end Resolver
end SchemaScript
