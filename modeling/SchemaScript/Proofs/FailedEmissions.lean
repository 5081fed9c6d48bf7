import SchemaScript.Proofs.Emission.Atomicity
import SchemaScript.Proofs.History

/-!
# Failed emissions between operations

Between operations no definition is open, so an emission that fails there leaves
everything but the notes as it was, as long as no schema is defined under two names.
The latter holds after every history that enters no schema at hand a second time.

## Main definitions

* `Resolver.Operation.isUnshared` — the operation enters no schema a second time.

## Main results

* `emit_error_atomic` — a failed emission between operations.
* `isStamped_operateAll` — no two names share a stamp.
-/

namespace SchemaScript
namespace Resolver

open Stateful

variable {ε : Type}

/-- The operation does not define a name by a schema that is defined already. -/
def Operation.isUnshared : Operation ε → Bool
  | .define _ node => node.stamp.isNone
  | _ => true

theorem isStamped_operate {op : Operation ε} (hop : op.isUnshared = true) {r : Resolver ε}
    (h : r.definitions.IsStamped) : (exec (operate op) r).2.definitions.IsStamped := by
  cases op with
  | emit typeName node fqn =>
    rw [exec_operate_emit]
    exact (grows_emit typeName node fqn r).definitions ▸ h
  | takeOver name script =>
    rw [exec_operate_takeOver, exec_enqueueCustom]
    dsimp only
    split <;> exact h
  | define name node =>
    obtain ⟨schema, stamp⟩ := node
    cases stamp with
    | none => exact Definitions.isStamped_define h name schema
    | some s => cases hop
  | addAlias name target => exact Definitions.isStamped_define h _ _
  | retire name =>
    rw [exec_operate_retire]
    split <;> exact h

/-- **Without sharing, no two names have a stamp in common.** -/
theorem isStamped_operateAll {ops : List (Operation ε)} (hops : ∀ op ∈ ops, op.isUnshared = true)
    {r : Resolver ε} (h : r.definitions.IsStamped) :
    (operateAll ops r).2.definitions.IsStamped := by
  induction ops generalizing r with
  | nil => exact h
  | cons op ops ih =>
    exact ih (fun o ho => hops o (List.mem_cons_of_mem op ho))
      (isStamped_operate (hops op List.mem_cons_self) h)

/-- **A failed emission changes nothing.**  Wherever the failure occurred, exclusions,
definitions, queue and resolved definitions are what they were, and no definition is
open. -/
theorem emit_error_atomic (es : List Exclusion) (ds : Definitions) (ops : List (Operation ε))
    (typeName : String) (node : Node) (fqn : Option String) (e : Failure)
    (hd : (operateAll ops (fresh es ds)).2.definitions.Distinct)
    (he : (exec (emit typeName node fqn) (operateAll ops (fresh es ds)).2).1 = .error e) :
    let before := (operateAll ops (fresh es ds)).2
    let after := (exec (emit typeName node fqn) before).2
    after.exclusions = before.exclusions ∧ after.definitions = before.definitions ∧
      after.queue = before.queue ∧ after.resolved = before.resolved ∧
        after.opening = before.opening ∧ before.opening = .empty := by
  intro before after
  have hs : before.IsSettled := isSettled_operateAll ops (isSettled_fresh es ds)
  obtain ⟨ns, hns⟩ := (restores_emit hd hs.opening typeName node fqn).failed e he
  have hafter : after = before.noted ns := hns
  rw [hafter]
  exact ⟨rfl, rfl, rfl, rfl, rfl, hs.opening⟩

/-- Definitions of which one fails behind an interface that it has queued. -/
def failingDefinitions : Definitions :=
  Definitions.empty.defineAll
    [("a.Foo", .obj [("properties", .obj [("x", .obj [("$ref", .str "#/definitions/a.Bar")]),
        ("y", .obj [("type", .str "array")])])]),
      ("a.Bar", .obj [("properties", .obj [])])]

/-- The failure of the second field of `a.Foo`, behind an emission of `a.Bar`. -/
theorem emit_error_atomic_failingDefinitions :
    ∃ e, let before := (operateAll [.emit "Bar" (failingDefinitions.node "a.Bar") (some "a.Bar")]
        (fresh [] failingDefinitions : Resolver Empty)).2
      let after := (exec (emit "Foo" (failingDefinitions.node "a.Foo") (some "a.Foo")) before).2
      (exec (emit "Foo" (failingDefinitions.node "a.Foo") (some "a.Foo")) before).1 = .error e ∧
        after.exclusions = before.exclusions ∧ after.definitions = before.definitions ∧
          after.queue = before.queue ∧ after.resolved = before.resolved ∧
            after.opening = before.opening ∧ before.opening = .empty := by
  have hfail : (exec (emit "Foo" (failingDefinitions.node "a.Foo") (some "a.Foo"))
      (operateAll [.emit "Bar" (failingDefinitions.node "a.Bar") (some "a.Bar")]
        (fresh [] failingDefinitions : Resolver Empty)).2).1.toOption = none := by
    decide +kernel
  obtain ⟨e, he⟩ := exists_error_of_toOption hfail
  have hd : (operateAll [.emit "Bar" (failingDefinitions.node "a.Bar") (some "a.Bar")]
      (fresh [] failingDefinitions : Resolver Empty)).2.definitions.Distinct := by
    refine (isStamped_operateAll (by simp [Operation.isUnshared]) ?_).distinct
    exact Definitions.isStamped_defineAll Definitions.isStamped_empty _
  exact ⟨e, he, emit_error_atomic [] failingDefinitions _ "Foo" _ (some "a.Foo") e hd he⟩

end Resolver
end SchemaScript
