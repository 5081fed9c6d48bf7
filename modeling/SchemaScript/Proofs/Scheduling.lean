import SchemaScript.Proofs.Machine

/-!
# The queue during a session

Whatever a session registers, withdraws and renders, and whatever the scripts do that run
meanwhile: in every state that can be looked at, from inside of scripts as well, the queue
is sound, and no written name was lost on the way.

The argument is on the steps of the machine.  One step does at most one thing to the
queue, and brings in only tasks and scripts that keep to this.

## Main definitions

* `Machine.IsScheduling` — all that is left to be done only schedules.
* `Machine.IsSafe` — what holds of the queue during a run.

## Main results

* `IsScheduling.step` — one step of the machine.
* `session_isSafe` — a whole session.
-/

namespace SchemaScript
namespace Workshop

open Stateful Queue

/-- The scripts only register, withdraw and render. -/
abbrev OnlySchedules (s : Script) : Prop := allScript Command.isScheduling s = true

/-- The task only registers, withdraws and renders. -/
def Task.isScheduling : Task → Bool
  | .command _ c => c.all Command.isScheduling
  | .action _ _ a => allAction Command.isScheduling a
  | _ => true

/-! ### Single tasks -/

/-- At most one thing was done to the queue, and the scripts in it still only schedule. -/
structure Moves (q q' : Queue Script) : Prop where
  step : Relation.ReflGen Queue.Step q q'
  scripts : q'.HasScripts OnlySchedules

section

variable {q : Queue Script} (hq : q.HasScripts OnlySchedules)

include hq

theorem moves_refl : Moves q q := ⟨.refl, hq⟩

theorem moves_register {d : Declaration Script} (hd : d.Allows OnlySchedules) (replace : Bool) :
    Moves q (q.register d replace) :=
  ⟨.single (.register q d replace), hq.register hd replace⟩

theorem moves_rollback (position : Nat) : Moves q (q.rollback position) :=
  ⟨.single (.rollback q position), hq.rollback position⟩

theorem moves_finish {name : String} (h : q.isWaiting name = true) : Moves q (q.finish name) :=
  ⟨.single (.finish q name h), hq.finish name⟩

end

section

variable {w : Workshop Script} (hw : w.resolver.queue.HasScripts OnlySchedules)

include hw

/-- A command that does not render does at most one thing. -/
theorem moves_performStep (perform : Command → Working Script Answer) {c : Command}
    (hc : c.all Command.isScheduling = true) (hr : c.isRegistering = true ∨ ∃ n, c = .rollback n) :
    Moves w.resolver.queue (exec (performStep perform c) w).2.resolver.queue := by
  rcases hr with hr | ⟨n, rfl⟩
  · rw [queue_performStep hr]
    cases hx : c.registration? with
    | none => exact moves_refl hw
    | some x => exact moves_register hw (Command.allows_of_all hc hx) x.2
  · rw [queue_performStep_rollback]
    exact moves_rollback hw _

/-- Writing does nothing to the queue. -/
theorem moves_writing (on : Surface) (m : Writing Unit) :
    Moves w.resolver.queue (exec (writing on m) w).2.resolver.queue := by
  rw [exec_writing, resolver_withPage]
  exact moves_refl hw

theorem moves_retire (name : String) :
    Moves w.resolver.queue (exec (resolving (Resolver.retire name)) w).2.resolver.queue := by
  rw [exec_resolving, Resolver.exec_retire]
  split
  · next h => exact moves_finish hw h
  · exact moves_refl hw

/-- The tasks of a turn run the script of a waiting declaration. -/
theorem isScheduling_ofTurn (n : Nat) (on : Surface) :
    ∀ t ∈ Task.ofTurn n on w.resolver.queue.next?, t.isScheduling = true := by
  intro t ht
  cases he : w.resolver.queue.next? with
  | none =>
    rw [he] at ht
    exact absurd ht List.not_mem_nil
  | some e =>
    obtain ⟨name, d⟩ := e
    have hd : d.Allows OnlySchedules := hw _ (List.mem_of_head? he)
    rw [he, Task.ofTurn, List.mem_append, List.mem_append] at ht
    rcases ht with (ht | ht) | ht
    · rw [Task.ofDeclaration] at ht
      cases hs : d.body.script? with
      | none =>
        rw [hs] at ht
        rw [List.mem_singleton.mp ht]
        rfl
      | some script =>
        rw [hs] at ht
        obtain ⟨a, ha, rfl⟩ := List.mem_map.mp ht
        exact allAction_of_mem (hd script hs) ha
    · simp only [Task.ofEnd, List.mem_cons, List.not_mem_nil, or_false] at ht
      rcases ht with rfl | rfl <;> rfl
    · rw [List.mem_singleton.mp ht]
      rfl

omit hw in
/-- The task does at most one thing to the queue, and leads to tasks that schedule. -/
def Leads (w : Workshop Script) (t : Task) : Prop :=
  Moves w.resolver.queue (exec t.work w).2.resolver.queue ∧
    ∀ us, (exec t.work w).1 = .ok us → ∀ u ∈ us, u.isScheduling = true

omit hw in
/-- A task that is a computation leads to no others. -/
theorem leads_of_exec {α : Type} {t : Task} {m : Working Script α}
    (h : exec t.work w = mapValue (fun _ => []) (exec m w))
    (hm : Moves w.resolver.queue (exec m w).2.resolver.queue) : Leads w t := by
  rw [Leads, h]
  refine ⟨hm, fun us hus u hu => ?_⟩
  rcases hx : exec m w with ⟨e | a, v⟩ <;> rw [hx] at hus <;> cases hus
  exact absurd hu List.not_mem_nil

omit hw in
/-- A task that leads to others and does nothing to the queue. -/
theorem leads_of_work {t : Task} (us : List Task) {v : Workshop Script}
    (h : exec t.work w = (.ok us, v)) (hv : Moves w.resolver.queue v.resolver.queue)
    (hus : ∀ u ∈ us, u.isScheduling = true) : Leads w t := by
  rw [Leads, h]
  refine ⟨hv, ?_⟩
  rintro _ ⟨⟩
  exact hus

theorem leads_command {n : Nat} {c : Command} (hc : c.all Command.isScheduling = true) :
    Leads w (.command n c) := by
  cases n with
  | zero => exact leads_of_exec (m := performWith 0 c) rfl (moves_refl hw)
  | succ n =>
    cases c with
    | render indent =>
      refine leads_of_work [.drain n .sheet, .takeUp w.sheet]
        (v := w.onSheet (.blank indent)) rfl (moves_refl hw) ?_
      simp [Task.isScheduling]
    | renderShared =>
      refine leads_of_work [.drain n .shared] (v := w) rfl (moves_refl hw) ?_
      simp [Task.isScheduling]
    | emit _ _ _ => cases hc
    | emitNamed _ => cases hc
    | emitEnum _ _ _ => cases hc
    | rollback position =>
      exact leads_of_exec (exec_bind_pure ..)
        (moves_performStep hw (performWith n) hc (Or.inr ⟨position, rfl⟩))
    | _ =>
      exact leads_of_exec (exec_bind_pure ..)
        (moves_performStep hw (performWith n) hc (Or.inl rfl))

/-- **One task** does at most one thing to the queue and leads to tasks that schedule. -/
theorem leads_of_isScheduling {t : Task} (ht : t.isScheduling = true) : Leads w t := by
  cases t with
  | command n c => exact leads_command hw ht
  | action n on a =>
    cases a with
    | command c =>
      refine leads_of_work [.command n c] (v := w) rfl (moves_refl hw) ?_
      intro u hu
      rw [List.mem_singleton.mp hu]
      exact ht
    | _ => exact leads_of_exec (exec_bind_pure ..) (moves_writing hw on _)
  | drain n on =>
    exact leads_of_work (Task.ofTurn n on w.resolver.queue.next?) (v := w) rfl
      (moves_refl hw) (isScheduling_ofTurn hw n on)
  | write on d => exact leads_of_exec (exec_bind_pure ..) (moves_writing hw on _)
  | blank on => exact leads_of_exec (exec_bind_pure ..) (moves_writing hw on _)
  | retire name => exact leads_of_exec (exec_bind_pure ..) (moves_retire hw name)
  | takeUp sheet =>
    exact leads_of_work [] (v := w.onSheet sheet) rfl (moves_refl hw)
      fun u hu => absurd hu List.not_mem_nil
  | goOn =>
    exact leads_of_work [] (v := w) rfl (moves_refl hw)
      fun u hu => absurd hu List.not_mem_nil

end

/-! ### Steps of the machine -/

namespace Machine

/-- All that is left to be done, and the scripts that wait, only schedule. -/
structure IsScheduling (m : Machine) : Prop where
  tasks : ∀ t ∈ m.tasks, t.isScheduling = true
  scripts : m.queue.HasScripts OnlySchedules

variable {m m' : Machine}

/-- **One step** does at most one thing to the queue, and only scheduling is left. -/
theorem IsScheduling.step (h : m.IsScheduling) (hs : m.step = some m') :
    Relation.ReflGen Queue.Step m.queue m'.queue ∧ m'.IsScheduling := by
  obtain ⟨w, failing, ts⟩ := m
  cases ts with
  | nil => cases hs
  | cons t ts =>
    have hts : ∀ u ∈ ts, u.isScheduling = true := fun u hu =>
      h.tasks u (List.mem_cons_of_mem t hu)
    cases failing with
    | true =>
      -- a failure under way does nothing to the queue
      have hm' : m'.queue = w.resolver.queue ∧ m'.tasks = ts := by
        cases t <;> cases hs <;> exact ⟨rfl, rfl⟩
      refine ⟨hm'.1.symm ▸ .refl, ?_, ?_⟩
      · rw [hm'.2]
        exact hts
      · rw [hm'.1]
        exact h.scripts
    | false =>
      have hlead := leads_of_isScheduling h.scripts (h.tasks t List.mem_cons_self)
      rw [Leads] at hlead
      rcases hx : exec t.work w with ⟨e | us, v⟩ <;> rw [Machine.step, hx] at hs <;>
        rw [hx] at hlead <;> cases hs
      · exact ⟨hlead.1.step, hts, hlead.1.scripts⟩
      · refine ⟨hlead.1.step, fun u hu => ?_, hlead.1.scripts⟩
        exact (List.mem_append.mp hu).elim (hlead.2 us rfl u) (hts u)

/-- **Any number of steps.** -/
theorem IsScheduling.reaches (h : m.IsScheduling) (hr : Reaches m m') :
    Queue.Steps m.queue m'.queue ∧ m'.IsScheduling := by
  induction hr with
  | refl => exact ⟨.refl, h⟩
  | tail _ hs ih =>
    obtain ⟨hstep, hsched⟩ := ih.2.step hs
    exact ⟨ih.1.trans hstep.to_reflTransGen, hsched⟩

/-- What holds of the queue during a run of the machine. -/
structure IsSafe (start last : Machine) : Prop where
  /-- The run ends there. -/
  ends : Reaches start last ∧ last.step = none
  /-- In every state no name is waiting and written or waits twice, and every declaration
  waits under its own name. -/
  sound : ∀ m, Reaches start m → m.queue.IsSound
  /-- No later state has lost a written name. -/
  keeps : ∀ m m', Reaches start m → Reaches m m' → ∀ name,
    m.queue.isWritten name = true → m'.queue.isWritten name = true
  /-- In every state registering tells whether it did: if so, the declaration waits under
  its name, at the place of the name or at the end, and all else is as it was; if not,
  nothing has changed. -/
  registers : ∀ m, Reaches start m → ∀ d replace,
    let out := exec (Resolver.enqueue d replace) m.workshop.resolver
    out.1 = .ok true ∧ m.queue.Admits d out.2.queue ∨
      out.1 = .ok false ∧ out.2 = m.workshop.resolver

end Machine

theorem enqueue_cases {ε : Type} (d : Declaration ε) (replace : Bool) (r : Resolver ε) :
    (exec (Resolver.enqueue d replace) r).1 = .ok true ∧
        r.queue.Admits d (exec (Resolver.enqueue d replace) r).2.queue ∨
      (exec (Resolver.enqueue d replace) r).1 = .ok false ∧
        (exec (Resolver.enqueue d replace) r).2 = r := by
  by_cases h : r.queue.accepts d.name replace = true
  · left
    have had := admits_register h
    rw [← queue_enqueue] at had
    exact ⟨by rw [Resolver.exec_enqueue, if_pos h], had⟩
  · right
    rw [Resolver.exec_enqueue, if_neg h]
    exact ⟨rfl, rfl⟩

/-- The machine at the start of a session that schedules. -/
theorem isScheduling_ofSession {cs : List Command}
    (hcs : ∀ c ∈ cs, c.all Command.isScheduling = true) (es : List Exclusion) (ds : Definitions) :
    (Machine.ofSession cs (.ofResolver (.fresh es ds))).IsScheduling where
  tasks := by
    intro t ht
    obtain ⟨c, hc, ht⟩ := List.mem_flatMap.mp ht
    simp only [List.mem_cons, List.not_mem_nil, or_false] at ht
    rcases ht with rfl | rfl
    · exact hcs c hc
    · rfl
  scripts := hasScripts_empty

/-- **The queue is safe during every session** of commands and scripts that register,
withdraw and render. -/
theorem session_isSafe (es : List Exclusion) (ds : Definitions) (cs : List Command)
    (hcs : ∀ c ∈ cs, c.all Command.isScheduling = true) :
    (Machine.ofSession cs (.ofResolver (.fresh es ds))).IsSafe
      (.finished (session cs (.ofResolver (.fresh es ds))).2) := by
  have hstart := isScheduling_ofSession hcs es ds
  refine ⟨⟨reaches_session cs _, rfl⟩, ?_, ?_, ?_⟩
  · intro m hm
    exact isSound_empty.steps (hstart.reaches hm).1
  · intro m m' hm hm' name hname
    exact ((hstart.reaches hm).2.reaches hm').1.isWritten hname
  · intro m _ d replace
    exact enqueue_cases d replace m.workshop.resolver

/-- A session in which a script replaces, withdraws and registers the name that is being
written, and another script fails behind a declaration that it has registered. -/
def reentrant : List Command :=
  [.registerScript "A" "A" .null
      [.line "a", .command (.registerScript "A" "A" .null [.line "b"] true), .command (.rollback 0),
        .command (.registerScript "A" "A" .null [] false)] false,
    .renderShared,
    .registerScript "B" "B" .null [.command (.takeOver "C" none), .closeBlock "b"] true,
    .render none, .rollback 1]

/-- The queue during this session, behind which `A` is written and `B` waits. -/
theorem session_isSafe_reentrant :
    (Machine.ofSession reentrant (.ofResolver (.fresh [] .empty))).IsSafe
        (.finished (session reentrant (.ofResolver (.fresh [] .empty))).2) ∧
      (session reentrant (.ofResolver (.fresh [] .empty))).2.resolver.queue.written = ["A"] ∧
      (session reentrant (.ofResolver (.fresh [] .empty))).2.resolver.queue.names = ["B"] :=
  ⟨session_isSafe [] .empty reentrant (by decide), by decide +kernel, by decide +kernel⟩

end Workshop
end SchemaScript
