import SchemaScript.Proofs.Emission.Standalone
import SchemaScript.Proofs.ResolvedDefinitions

/-!
# Names that are defined again

A name that is defined again takes the new schema, but what is remembered under its type name
stays.  So a request for it is answered with the expression of an earlier schema, or of another
definition with the same type name, if one was emitted.  If none was, the new schema is emitted,
and when that is standalone, what else is remembered makes no difference.

## Main definitions

* `Resolver.IsRedefined` — how requests for a name are answered.

## Main results

* `isRedefined_of_reaches` — they are, in every state of a run of public commands.
* `redefinition_is_passed_over` — an earlier schema is answered.
-/

namespace SchemaScript
namespace Resolver

open Stateful

variable {ε : Type}

/-- Without exclusions all requests under type names are admitted. -/
theorem Requests.of_exclusions_nil {r : Resolver ε} (hx : r.exclusions = [])
    {typeName name : String} {node : Node} (hschema : node.schema = reference name)
    (hname : Name.IsTypeName typeName) (fqn : Option String) :
    Requests r typeName node fqn name where
  schema := hschema
  named := hname
  admitted := by
    rw [isExcluded_eq_any, hx]
    rfl
  free := by
    rw [hx]
    rfl

/-- A reference leads to the definition, if nothing is known of its name and nothing open. -/
theorem read_followed {r : Resolver ε} {name : String}
    (hfree : Exclusion.stops r.exclusions name = false)
    (hfind : r.resolved.find? (Name.ofDefinition name) = none) (hopening : r.opening = .empty)
    (hknown : r.queue.isKnown (Name.ofDefinition name) = false)
    (hnull : (r.definitions.get name).isNull = false) (fqn : String) :
    r.read (reference name) fqn =
      .followed (Name.ofDefinition name) (r.definitions.node name) (Definitions.refTo name) := by
  have hopen : r.isOpenUnnamed (Name.ofDefinition name) = false := by
    rw [isOpenUnnamed, hopening]
    rfl
  have hresolve : r.definitions.resolve ((reference name).get "$ref") =
      .ok (r.definitions.node name) := by
    rw [Definitions.resolve, path?_reference]
    exact if_neg (by rw [show (r.definitions.node name).schema.isNull = false from hnull]; decide)
  unfold read
  rw [path?_reference]
  dsimp only
  rw [isExcluded_eq_stops, hfree, hfind, hopen, hknown, hresolve]
  rfl

/-- How requests for the name are answered, if nothing is declared under its type name. -/
structure IsRedefined (r : Resolver ε) (name : String) : Prop where
  /-- With what is remembered, whatever is defined. -/
  remembered : ∀ t, r.resolved.find? (Name.ofDefinition name) = some t →
    ∀ typeName node fqn, node.schema = reference name → Name.IsTypeName typeName →
      ¬ r.IsRegistered typeName node fqn → exec (emit typeName node fqn) r = (.ok t, r)
  /-- With the definition, if nothing is remembered. -/
  emitted : r.resolved.find? (Name.ofDefinition name) = none →
    (r.definitions.get name).isNull = false →
      ∀ typeName node fqn, node.schema = reference name → Name.IsTypeName typeName →
        ¬ r.IsRegistered typeName node fqn → exec (emit typeName node fqn) r =
          exec (emit (Name.ofDefinition name) (r.definitions.node name)
            (some (Definitions.refTo name))) r
  /-- As if nothing at all was remembered, but that stays. -/
  forgetful : r.resolved.find? (Name.ofDefinition name) = none →
    ∀ typeName node fqn, node.schema = reference name →
      (r.IsRegistered typeName node fqn → r.resolved.find? typeName = none) →
        exec (emit typeName node fqn) r =
          mapState (recalling r.resolved) (exec (emit typeName node fqn) r.forgetful)

/-- Between operations, and if the definition is standalone. -/
theorem isRedefined_of_isStandalone {r : Resolver ε} (hx : r.exclusions = [])
    (hopening : r.opening = .empty) {name : String}
    (hs : Schema.IsStandalone (r.definitions.get name))
    (hknown : r.queue.isKnown (Name.ofDefinition name) = false) : IsRedefined r name where
  remembered := fun t hfind typeName node fqn hschema hname hreg =>
    (Requests.of_exclusions_nil hx hschema hname fqn).exec_of_find? hreg hfind
  emitted := by
    intro hfind hnull typeName node fqn hschema hname hreg
    have hreq := Requests.of_exclusions_nil hx hschema hname fqn
    rw [hreq.exec_eq, if_neg hreg,
      exec_emitRef_followed _ (read_followed hreq.free hfind hopening hknown hnull _)]
    rfl
  forgetful := by
    intro hfind typeName node fqn hschema hown
    have hk : Schema.classify node.schema = .ok .ref := by
      rw [hschema]
      rfl
    have hpath : Definitions.path? (node.schema.get "$ref") = some name := by
      rw [hschema]
      exact path?_reference name
    have hignores : Ignores r.resolved (emit typeName node fqn) r.forgetful :=
      ignores_emit hk hpath hs hfind hown
    rw [Ignores, recalling_forgetful] at hignores
    exact hignores

end Resolver

/-! ### Runs -/

namespace Workshop

open Stateful Machine Resolver

/-- Defining a name changes the definitions only. -/
theorem resolver_session_define (name : String) (source : Source) (w : Workshop Script) :
    (session [.define name source] w).2.resolver =
      { w.resolver with
        definitions := w.resolver.definitions.share name (nodeOf w.resolver source) } := rfl

/-- **Requests for names that are defined again.**  If nothing is excluded and a standalone
schema is defined under a name at some state of a run of public commands, where nothing is
declared under its type name, then a request for the name is answered with what is remembered
under the type name.  If nothing is, then the schema is emitted, and all is done as it would be
done if nothing else was remembered. -/
theorem isRedefined_of_reaches (ds : Definitions) (cs : List Command)
    (hcs : ∀ c ∈ cs, isPublic c = true) {m : Machine}
    (h : Reaches (.ofSession cs (.ofResolver (.fresh [] ds))) m) (name : String) (source : Source)
    (hs : Schema.IsStandalone (nodeOf m.workshop.resolver source).schema)
    (hknown : m.workshop.resolver.queue.isKnown (Name.ofDefinition name) = false) :
    let r := (session [.define name source] m.workshop).2.resolver
    r.definitions.get name = (nodeOf m.workshop.resolver source).schema ∧
      r.IsRedefined name := by
  intro r
  have hget : r.definitions.get name = (nodeOf m.workshop.resolver source).schema := by
    rw [show r = _ from resolver_session_define name source m.workshop, Definitions.get_share,
      if_pos rfl]
  obtain ⟨⟨ops, hm⟩, -⟩ := (respects_ofSession hcs [] ds).exists_operations h
  have hexclusions : m.workshop.resolver.exclusions = [] :=
    hm ▸ (retains_operateAll ops (fresh [] ds)).exclusions
  have hopening : m.workshop.resolver.opening = .empty :=
    hm ▸ (isSettled_operateAll ops (isSettled_fresh [] ds)).opening
  have hs' : Schema.IsStandalone (r.definitions.get name) := hget ▸ hs
  exact ⟨hget, isRedefined_of_isStandalone (r := r) hexclusions hopening hs' hknown⟩

/-- An array of texts. -/
def texts : Json := .obj [("type", .str "array"), ("items", .obj [("type", .str "string")])]

/-- An array of numbers. -/
def numbers : Json := .obj [("type", .str "array"), ("items", .obj [("type", .str "number")])]

theorem isStandalone_numbers : Schema.IsStandalone numbers :=
  .array rfl (.leaf .numeric rfl (by decide))

/-- The definitions of two names as arrays of texts. -/
def textsTwice : Definitions := Definitions.empty.defineAll [("D", texts), ("E", texts)]

/-- The workshop in which one of them was emitted. -/
def withTexts : Workshop Script := (session [.emitNamed "D"] (.ofResolver (.fresh [] textsTwice))).2

/-- The other one is defined as an array of numbers, and is one. -/
theorem isRedefined_of_reaches_numbers :
    let r := (session [.define "E" (.given numbers)] withTexts).2.resolver
    r.resolved.keys = ["D"] ∧ r.queue.names = [] ∧
      r.ask "X" "E" none = mapState (recalling r.resolved) (r.forgetful.ask "X" "E" none) ∧
        (r.ask "X" "E" none).1 = .ok (.array (.scalar .number)) := by
  intro r
  have h := isRedefined_of_reaches textsTwice [.emitNamed "D"] (by decide)
    (reaches_session [.emitNamed "D"] (.ofResolver (.fresh [] textsTwice))) "E" (.given numbers)
    isStandalone_numbers (by decide +kernel)
  have hask : r.ask "X" "E" none = _ :=
    h.2.forgetful (by decide +kernel) "X" (.inline (reference "E")) none rfl
      (fun _ => by decide +kernel)
  exact ⟨by decide +kernel, by decide +kernel, hask, eq_ok_of_toOption (by decide +kernel)⟩

/-- **A redefinition is passed over**: the name is defined as an array of numbers, nothing is
declared under it and nothing excluded, but a request for it is answered with the array of
texts that it was.  If nothing was remembered, the answer would be the array of numbers. -/
theorem redefinition_is_passed_over :
    let m := Machine.finished withTexts
    let r := (session [.define "D" (.given numbers)] m.workshop).2.resolver
    Reaches (.ofSession [.emitNamed "D"] (.ofResolver (.fresh [] textsTwice))) m ∧
      Schema.IsStandalone numbers ∧ r.queue.isKnown (Name.ofDefinition "D") = false ∧
        (r.ask "X" "D" none).1 = .ok (.array (.scalar .string)) ∧
          (r.forgetful.ask "X" "D" none).1 = .ok (.array (.scalar .number)) :=
  ⟨reaches_session [.emitNamed "D"] (.ofResolver (.fresh [] textsTwice)), isStandalone_numbers,
    by decide +kernel, eq_ok_of_toOption (by decide +kernel), eq_ok_of_toOption (by decide +kernel)⟩

end Workshop
end SchemaScript
