import SchemaScript.Proofs.Emission.Outcome

/-!
# Faults of schemas

Before an emission leads to others it looks at its schema: what stands in the place of `null`,
of which kind it is, where a reference leads to, which values an enum has.  Whatever goes wrong
there is a fault of the schema, and not of the name or the place that was asked for.

## Main definitions

* `Failure.isFault` — the causes that are faults of a schema.

## Main results

* `eq_of_failed` — how a reference leads nowhere.
* `isFault_of_nodeFor`, `Schema.isFault_of_classify`, `isFault_of_emitEnum` — the other faults.
-/

namespace SchemaScript

/-- The causes that lie in a schema. -/
def Failure.isFault : Failure → Bool
  | unknownType _ => true
  | invalidReference _ => true
  | unresolvedReference _ _ => true
  | unsupportedArray _ _ => true
  | invalidEnum _ _ => true
  | nonStringEnumValue _ _ => true
  | illShaped _ => true
  | _ => false

/-- Branches of a union without items. -/
theorem Schema.isFault_of_classify {schema : Json} {e : Failure}
    (h : classify schema = .error e) : e.isFault = true := by
  unfold classify at h
  split at h
  · cases h
  · split at h
    · cases h
    · unfold isPrimitiveUnion at h
      split at h <;> cases h
      rfl

namespace Resolver

open Stateful

variable {ε : Type} {r : Resolver ε} {e : Failure}

/-- Nothing is defined under the type name. -/
theorem isFault_of_nodeFor {typeName : String} {node : Node}
    (h : r.nodeFor typeName node = .error e) : e.isFault = true := by
  unfold nodeFor at h
  dsimp only at h
  split at h
  · split at h <;> cases h
    rfl
  · cases h

/-- A reference that leads nowhere has no path, or nothing is defined under it. -/
theorem eq_of_failed {schema : Json} {fqn : String} (h : r.read schema fqn = .failed e) :
    (∃ ref, e = .invalidReference ref) ∨ ∃ ref lookup, e = .unresolvedReference ref lookup := by
  unfold read at h
  split at h
  · cases h
    exact Or.inl ⟨_, rfl⟩
  · next path hp =>
    split at h
    · cases h
    · split at h
      · cases h
      · split at h
        · cases h
        · split at h
          · cases h
          · split at h
            · next hresolve =>
              cases h
              rw [Definitions.resolve, hp] at hresolve
              dsimp only at hresolve
              split at hresolve <;> cases hresolve
              exact Or.inr ⟨_, _, rfl⟩
            · cases h

/-! ### Enums -/

theorem isFault_of_enumValues {typeName : String} {schema : Json}
    (h : enumValues typeName schema = .error e) : e.isFault = true := by
  unfold enumValues at h
  split at h
  · split at h
    · split at h <;> cases h
      rfl
    · cases h
      rfl
  · cases h
    rfl

/-- A value that is no text. -/
theorem isFault_of_members (typeName fqn : String) {values : List Json}
    {used seen : List String}
    (h : (exec (members typeName fqn used seen values) r).1 = .error e) : e.isFault = true := by
  induction values generalizing used seen r with
  | nil => cases h
  | cons value values ih =>
    cases value with
    | str value =>
      rw [members] at h
      split at h
      · exact ih h
      · dsimp only at h
        split at h
        · rw [exec_bind_ok (exec_note _ r), exec_bind_pure] at h
          exact ih (eq_error_of_mapValue h)
        · rw [exec_bind_pure] at h
          exact ih (eq_error_of_mapValue h)
    | _ =>
      cases h
      rfl

/-- An enum without values for it. -/
theorem isFault_of_emitEnum {typeName fqn : String} {schema : Json}
    (h : (exec (emitEnum typeName schema fqn) r).1 = .error e) : e.isFault = true := by
  simp only [emitEnum, exec_bind, exec_get] at h
  by_cases hk : r.queue.isKnown typeName = true
  · simp [hk] at h
  · cases hv : enumValues typeName schema with
    | error e' =>
      simp only [hk, hv] at h
      cases h
      exact isFault_of_enumValues hv
    | ok values =>
      rcases hm : exec (members typeName fqn [] [] values) r with ⟨e' | ms, r'⟩
      · obtain rfl : e' = e := by simpa [hk, exec_bind, hv, hm] using h
        exact isFault_of_members typeName fqn (congrArg Prod.fst hm)
      · by_cases ha : r'.queue.accepts typeName false = true <;>
          simp [hk, exec_bind, hv, hm, exec_enqueue, ha, mapValue, Except.map] at h

end Resolver
end SchemaScript
