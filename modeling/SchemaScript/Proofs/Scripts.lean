import SchemaScript.Proofs.Queue
import SchemaScript.Proofs.Writing
import SchemaScript.Workshop.Command

/-!
# What scripts do to the queue

Most commands do to the queue at most one thing that can be told from the command: they
register a declaration, or they withdraw what came after a position.  Only emissions and
renderings do more.

## Main definitions

* `Command.all` — a test passed by a command and by all that its script holds.
* `Command.registration?` — the declaration that a command registers.
* `Command.isScheduling`, `Command.isRegistering`, `Command.isAdding` — commands by what they do
  to the queue.

## Main results

* `queue_performStep` — what a command that registers does to the queue.
* `related_runScript` — from commands to scripts of them.
* `registers_runScript` — a script of commands that register.
-/

namespace SchemaScript

/-! ### Commands inside of scripts -/

mutual

/-- All commands of a script pass the test. -/
def allScript (p : Command → Bool) : List Action → Bool
  | [] => true
  | a :: as => allAction p a && allScript p as

/-- The command that the action carries out, if it does, passes the test. -/
def allAction (p : Command → Bool) : Action → Bool
  | .line _ => true
  | .openBlock _ => true
  | .closeBlock _ => true
  | .command c => c.all p

/-- The command passes the test, and so do the commands of its script. -/
def Command.all (p : Command → Bool) : Command → Bool
  | .takeOver name script => p (.takeOver name script) && allOption p script
  | .registerScript name fqn description script replace =>
    p (.registerScript name fqn description script replace) && allScript p script
  | c => p c

/-- All commands of the script of a declaration pass the test. -/
def allOption (p : Command → Bool) : Option (List Action) → Bool
  | none => true
  | some script => allScript p script

end

theorem allAction_of_mem {p : Command → Bool} {script : List Action}
    (h : allScript p script = true) {a : Action} (ha : a ∈ script) : allAction p a = true := by
  induction script with
  | nil => exact absurd ha List.not_mem_nil
  | cons b bs ih =>
    rw [allScript, Bool.and_eq_true] at h
    rcases List.mem_cons.mp ha with rfl | ha
    · exact h.1
    · exact ih h.2 ha

namespace Command

theorem of_all {p : Command → Bool} {c : Command} (h : c.all p = true) : p c = true := by
  cases c with
  | takeOver name script =>
    rw [all, Bool.and_eq_true] at h
    exact h.1
  | registerScript name fqn description script replace =>
    rw [all, Bool.and_eq_true] at h
    exact h.1
  | _ => simpa only [all] using h

/-! ### Commands by what they do to the queue -/

/-- The declaration that the command registers, if it registers one. -/
def registration? : Command → Option (Queue.Registration Script)
  | .takeOver name script => some (⟨name, name, .null, none, .custom script⟩, true)
  | .register d replace => some (d.map Empty.elim, replace)
  | .registerScript name fqn description script replace =>
    some (⟨name, fqn, description, none, .custom (some script)⟩, replace)
  | _ => none

/-- The command does nothing to the queue but registering, withdrawing and rendering. -/
def isScheduling : Command → Bool
  | .emit _ _ _ => false
  | .emitNamed _ => false
  | .emitEnum _ _ _ => false
  | _ => true

/-- The command does nothing to the queue but registering. -/
def isRegistering : Command → Bool
  | .rollback _ => false
  | .render _ => false
  | .renderShared => false
  | c => c.isScheduling

/-- The command takes nothing out of the queue: it registers, it emits, or it does nothing to
the queue. -/
def isAdding : Command → Bool
  | .rollback _ => false
  | .render _ => false
  | .renderShared => false
  | _ => true

theorem isAdding_of_isRegistering {c : Command} (h : c.isRegistering = true) :
    c.isAdding = true := by
  cases c <;> first | rfl | cases h

/-- The script that a command registers passes the test that the command passes. -/
theorem allows_of_all {p : Command → Bool} {c : Command} (h : c.all p = true)
    {x : Queue.Registration Script} (hx : c.registration? = some x) :
    x.1.Allows fun s => allScript p s = true := by
  cases c with
  | takeOver name script =>
    cases hx
    rw [all, Bool.and_eq_true] at h
    intro s hs
    rw [show script = some s from hs] at h
    exact h.2
  | register d replace =>
    cases hx
    intro s hs
    -- a declaration given as data has no script
    cases hb : d.body with
    | custom script =>
      cases script with
      | none =>
        rw [Declaration.map, hb] at hs
        cases hs
      | some v => exact v.elim
    | _ =>
      rw [Declaration.map, hb] at hs
      cases hs
  | registerScript name fqn description script replace =>
    cases hx
    rw [all, Bool.and_eq_true] at h
    rintro s ⟨⟩
    exact h.2
  | _ => cases hx

end Command

namespace Workshop

open Stateful Queue

/-! ### Single commands -/

section

variable {ε : Type}

theorem queue_enqueue (d : Declaration ε) (replace : Bool) (r : Resolver ε) :
    (exec (Resolver.enqueue d replace) r).2.queue = r.queue.register d replace := by
  rw [Resolver.exec_enqueue, Queue.register]
  split <;> rfl

theorem queue_withdraw (position : Nat) (r : Resolver ε) :
    (exec (Resolver.withdraw position) r).2.queue = r.queue.rollback position := by
  simp only [Resolver.withdraw, exec_bind, exec_get, exec_set]
  split <;> rfl

end

variable {perform : Command → Working Script Answer}

/-- **A command that only registers** registers its declaration, if it has one. -/
theorem queue_performStep {c : Command} (hc : c.isRegistering = true) (w : Workshop Script) :
    (exec (performStep perform c) w).2.resolver.queue =
      w.resolver.queue.registerAll c.registration?.toList := by
  cases c with
  | takeOver name script =>
    rw [performStep, exec_resolving, exec_bind_pure, Resolver.enqueueCustom, exec_bind_pure]
    exact queue_enqueue _ _ _
  | register d replace =>
    rw [performStep, exec_resolving, exec_bind_pure]
    exact queue_enqueue _ _ _
  | registerScript name fqn description script replace =>
    rw [performStep, exec_resolving, exec_bind_pure]
    exact queue_enqueue _ _ _
  | emit _ _ _ => cases hc
  | emitNamed _ => cases hc
  | emitEnum _ _ _ => cases hc
  | rollback _ => cases hc
  | render _ => cases hc
  | renderShared => cases hc
  | _ => rfl

theorem queue_performStep_rollback (position : Int) (w : Workshop Script) :
    (exec (performStep perform (.rollback position)) w).2.resolver.queue =
      w.resolver.queue.rollback (w.resolver.queue.position position) := by
  rw [performStep, exec_resolving, exec_bind_ok (exec_get _), exec_bind_pure]
  exact queue_withdraw _ _

/-- A command that does not render writes nothing. -/
theorem page_performStep {c : Command} (hc : c.isAdding = true) (w : Workshop Script)
    (on : Surface) : (exec (performStep perform c) w).2.page on = w.page on := by
  cases c with
  | render _ => cases hc
  | renderShared => cases hc
  | _ => cases on <;> rfl

/-! ### Scripts -/

/-- Nothing was done to the queue but registering declarations whose scripts pass a test,
and nothing to a page but putting lines on it. -/
structure Registers (P : Script → Prop) (on : Surface) (w w' : Workshop Script) : Prop where
  queue : ∃ cs : List (Registration Script), (∀ c ∈ cs, c.1.Allows P) ∧
    w'.resolver.queue = w.resolver.queue.registerAll cs
  lines : (w.page on).lines <+: (w'.page on).lines

section

variable {P : Script → Prop} {on : Surface} {w w' w'' : Workshop Script}

theorem Registers.of_queue_eq (hq : w'.resolver.queue = w.resolver.queue)
    (hl : (w.page on).lines <+: (w'.page on).lines) : Registers P on w w' :=
  ⟨⟨[], fun _ h => absurd h List.not_mem_nil, hq⟩, hl⟩

theorem Registers.refl (w : Workshop Script) : Registers P on w w :=
  .of_queue_eq rfl List.prefix_rfl

theorem Registers.trans (h : Registers P on w w') (h' : Registers P on w' w'') :
    Registers P on w w'' where
  queue := by
    obtain ⟨cs, hcs, hq⟩ := h.queue
    obtain ⟨cs', hcs', hq'⟩ := h'.queue
    refine ⟨cs ++ cs', fun c hc => ?_, by rw [hq', hq, registerAll_append]⟩
    exact (List.mem_append.mp hc).elim (hcs c) (hcs' c)
  lines := h.lines.trans h'.lines

/-- Writing lines or blocks does nothing to the queue. -/
theorem registers_writing {m : Writing Unit} (hm : Page.Adds m) (w : Workshop Script) :
    Registers P on w (exec (writing on m) w).2 := by
  rw [exec_writing]
  refine .of_queue_eq (by rw [resolver_withPage]) ?_
  rw [page_withPage]
  exact hm _

/-- The relation holds between the states before and behind a computation that puts lines on
the page, and between those of computations one after the other. -/
structure IsRunRelation (on : Surface) (R : Workshop Script → Workshop Script → Prop) : Prop where
  refl : ∀ w, R w w
  trans : ∀ {w w' w''}, R w w' → R w' w'' → R w w''
  writing : ∀ {m : Writing Unit}, Page.Adds m → ∀ w, R w (exec (writing on m) w).2

/-- **What holds of commands holds of scripts** of such commands, whether they fail or not. -/
theorem related_runScript {R : Workshop Script → Workshop Script → Prop}
    (hR : IsRunRelation on R) {p : Command → Bool}
    (hp : ∀ perform c, c.all p = true → ∀ w, R w (exec (performStep perform c) w).2)
    (n : Nat) {script : Script} (hs : allScript p script = true) (w : Workshop Script) :
    R w (exec (runScript (performWith n) on script) w).2 := by
  induction script generalizing w with
  | nil => exact hR.refl w
  | cons a as ih =>
    rw [allScript, Bool.and_eq_true] at hs
    have ha : R w (exec (act (performWith n) on a) w).2 := by
      cases a with
      | line text => exact hR.writing (Page.adds_line text) w
      | openBlock header => exact hR.writing (Page.adds_openBlock header) w
      | closeBlock footer => exact hR.writing (Page.adds_closeBlock footer) w
      | command c =>
        rw [act, exec_bind_pure]
        cases n with
        | zero => exact hR.refl w
        | succ n => exact hp (performWith n) c hs.1 w
    rw [runScript, exec_bind]
    rcases hx : exec (act (performWith n) on a) w with ⟨e | u, w'⟩ <;> rw [hx] at ha
    · exact ha
    · exact hR.trans ha (ih hs.2 w')

/-- **A script of commands that register** registers declarations and puts lines on its
page, whether it fails or not. -/
theorem registers_runScript (n : Nat) {script : Script}
    (hs : allScript Command.isRegistering script = true) (w : Workshop Script) :
    Registers (fun s => allScript Command.isRegistering s = true) on w
      (exec (runScript (performWith n) on script) w).2 := by
  refine related_runScript ⟨.refl, .trans, registers_writing⟩ (fun perform c hc w => ?_) n hs w
  have hregistering : c.isRegistering = true := Command.of_all hc
  have hpage : (exec (performStep perform c) w).2.page on = w.page on :=
    page_performStep (Command.isAdding_of_isRegistering hregistering) w on
  refine ⟨⟨_, fun x hx => ?_, queue_performStep hregistering w⟩, hpage.symm ▸ List.prefix_rfl⟩
  exact Command.allows_of_all hc (Option.mem_toList.mp hx)

end

end Workshop
end SchemaScript
