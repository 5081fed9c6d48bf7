import SchemaScript.Proofs.Emission.Invariants
import SchemaScript.Proofs.WrittenOnce

/-!
# Scripts that take nothing out of the queue

A script can register declarations itself, and it can emit schemas, which registers what they
declare.  An emission that fails takes out again what it has put in, and nothing else.  So as
long as no command withdraws or renders, a script only enlarges the queue, whether it fails or
not.

## Main definitions

* `Workshop.Adds` — the queue was enlarged, and lines were put on the page.

## Main results

* `enlarges_emit` — emissions.
* `enlarges_performStep` — commands.
* `adds_runScript`, `adds_writeDeclaration` — scripts and declarations.
-/

namespace SchemaScript
namespace Workshop

open Stateful Queue

/-! ### Emissions -/

section

variable {ε : Type} {P : ε → Prop}

/-- A declaration without a script allows whatever scripts are to be. -/
theorem allows_of_script? {d : Declaration ε} (h : d.body.script? = none) : d.Allows P := by
  intro s hs
  rw [h] at hs
  cases hs

variable {r : Resolver ε} (hr : IsOrderly P r.queue)

include hr

/-- **Emissions enlarge the queue**, whether they fail or not. -/
theorem enlarges_emit (typeName : String) (node : Node) (fqn : Option String) :
    Enlarges P r.queue (exec (Resolver.emit typeName node fqn) r).2.queue := by
  have hQ : Resolver.IsInvariant fun r' : Resolver ε => Enlarges P r.queue r'.queue := by
    apply Resolver.isInvariant_of_register
    intro q d replace h hd
    exact h.register (allows_of_script? hd) replace
  exact Resolver.keeps_emit hQ typeName node fqn (.refl hr)

/-- So does an enum that is declared whatever the kind of its schema. -/
theorem enlarges_emitEnum (typeName : String) (schema : Json) (fqn : String) :
    Enlarges P r.queue (exec (Resolver.emitEnum typeName schema fqn) r).2.queue := by
  obtain ⟨ms, ns, -, h⟩ := Resolver.exec_emitEnum (ε := ε) typeName schema fqn
  rw [h]
  split
  · exact .refl hr
  · next hnew =>
    rw [Bool.not_eq_true] at hnew
    cases ms with
    | error e => exact .refl hr
    | ok ms =>
      let d : Declaration ε := ⟨typeName, fqn, schema.get "description", some schema, .enum ms⟩
      have hd : d.Allows P := allows_of_script? rfl
      have hq : ((r.noted ns).declared d).queue = r.queue.register d false :=
        Resolver.queue_declared hnew
      dsimp only
      rw [hq]
      exact (Enlarges.refl hr).register hd false

end

/-! ### Commands -/

/-- **A command that takes nothing out enlarges the queue**, whether it fails or not. -/
theorem enlarges_performStep {perform : Command → Working Script Answer} {c : Command}
    (hc : c.all Command.isAdding = true) {w : Workshop Script}
    (hw : IsOrderly (fun s => allScript Command.isAdding s = true) w.resolver.queue) :
    Enlarges (fun s => allScript Command.isAdding s = true) w.resolver.queue
      (exec (performStep perform c) w).2.resolver.queue := by
  by_cases hr : c.isRegistering = true
  · rw [queue_performStep hr]
    refine (Enlarges.refl hw).registerAll fun x hx => ?_
    exact Command.allows_of_all hc (Option.mem_toList.mp hx)
  · cases c with
    | emit typeName source fqn =>
      rw [performStep, exec_resolving, exec_bind_ok (exec_get _), exec_bind_pure]
      exact enlarges_emit hw _ _ _
    | emitNamed name =>
      rw [performStep, exec_resolving, exec_bind_pure, Resolver.exec_emitNamed]
      exact enlarges_emit hw _ _ _
    | emitEnum typeName schema fqn =>
      rw [performStep, exec_resolving, exec_bind_pure]
      exact enlarges_emitEnum hw _ _ _
    | rollback position => cases hc
    | render indent => cases hc
    | renderShared => cases hc
    | _ => exact absurd rfl hr

/-! ### Scripts -/

/-- From an orderly queue on, the queue was only enlarged; and in any case nothing was done to
the page but putting lines on it. -/
structure Adds (P : Script → Prop) (on : Surface) (w w' : Workshop Script) : Prop where
  queue : IsOrderly P w.resolver.queue → Enlarges P w.resolver.queue w'.resolver.queue
  lines : (w.page on).lines <+: (w'.page on).lines

theorem isRunRelation_adds (P : Script → Prop) (on : Surface) :
    IsRunRelation on (Adds P on) where
  refl := fun w => ⟨Enlarges.refl, List.prefix_rfl⟩
  trans := by
    intro w w' w'' h h'
    refine ⟨fun hw => ?_, h.lines.trans h'.lines⟩
    have hq := h.queue hw
    exact hq.trans (h'.queue hq.orderly)
  writing := by
    intro m hm w
    rw [exec_writing]
    refine ⟨?_, ?_⟩
    · rw [resolver_withPage]
      exact Enlarges.refl
    · rw [page_withPage]
      exact hm _

/-- **A script of commands that take nothing out** enlarges the queue and puts lines on its page,
whether it fails or not. -/
theorem adds_runScript (n : Nat) (on : Surface) {script : Script}
    (hs : allScript Command.isAdding script = true) (w : Workshop Script) :
    Adds (fun s => allScript Command.isAdding s = true) on w
      (exec (runScript (performWith n) on script) w).2 := by
  refine related_runScript (isRunRelation_adds _ on) (fun perform c hc w => ?_) n hs w
  have hpage : (exec (performStep perform c) w).2.page on = w.page on :=
    page_performStep (Command.of_all hc) w on
  exact ⟨fun hw => enlarges_performStep hc hw, hpage.symm ▸ List.prefix_rfl⟩

theorem onlyEnlarge_runScript (n : Nat) (on : Surface) :
    OnlyEnlarge (runScript (performWith n) on) on
      fun s => allScript Command.isAdding s = true where
  queue := fun _ hs w hw => (adds_runScript n on hs w).queue hw
  lines := by
    intro s hs w w' h
    have hlines := (adds_runScript n on hs w).lines
    rwa [h] at hlines

/-- Writing a declaration puts lines on the page, whether it fails or not. -/
theorem adds_writeDeclaration (n : Nat) (on : Surface) {d : Declaration Script}
    (hd : d.Allows fun s => allScript Command.isAdding s = true) (w : Workshop Script) :
    Adds (fun s => allScript Command.isAdding s = true) on w
      (exec (writeDeclaration (runScript (performWith n) on) on d) w).2 := by
  rw [writeDeclaration]
  cases hs : d.body.script? with
  | some s => exact adds_runScript n on (hd s hs) w
  | none =>
    exact (isRunRelation_adds _ on).writing (Declaration.composed_write Page.isComposed_adds d) w

end Workshop
end SchemaScript
