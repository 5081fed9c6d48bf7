import SchemaScript.Proofs.Machine

/-!
# Runs of public commands

During a session of public commands, too, a history is all that happens to the resolver:
from any state that can be looked at, from inside of scripts as well, to any later one.
So what operations keep of every waiting declaration holds in all of these states, and
what is written without a script has been waiting.

The argument is on the steps of the machine.  One step does to the resolver what a history
does, and brings in only public commands and declarations that waited.

## Main definitions

* `Keeps` — operations keep a predicate of all that waits.
* `Machine.Respects` — all that is left to be done is public and keeps to the predicate.

## Main results

* `Respects.step` — one step of the machine.
* `Respects.reaches` — any number of steps.
-/

namespace SchemaScript
namespace Workshop

open Stateful Resolver

/-- Where the predicate holds of all declarations that wait, it holds of all behind an
operation. -/
def Keeps (P : Declaration Script → Prop) : Prop :=
  ∀ (op : Operation Script) (r : Resolver Script), (∀ d ∈ r.queue.declarations, P d) →
    ∀ d ∈ (exec (operate op) r).2.queue.declarations, P d

/-- A whole history keeps the predicate. -/
theorem Keeps.history {P : Declaration Script → Prop} (hP : Keeps P) {r r' : Resolver Script}
    {ts : List TypeExpr} (h : IsHistory r ts r') (hr : ∀ d ∈ r.queue.declarations, P d) :
    ∀ d ∈ r'.queue.declarations, P d := by
  obtain ⟨ops, hops⟩ := h
  obtain rfl : (operateAll ops r).2 = r' := congrArg Prod.snd hops
  clear hops
  induction ops generalizing r with
  | nil => exact hr
  | cons op ops ih => exact ih (hP op r hr)

/-- Every predicate that always holds is kept. -/
theorem keeps_of_forall {P : Declaration Script → Prop} (h : ∀ d, P d) : Keeps P :=
  fun _ _ _ d _ => h d

/-! ### Single tasks -/

/-- What the task carries out is public, and what it writes satisfies the predicate. -/
def Task.Respects (P : Declaration Script → Prop) : Task → Prop
  | .command _ c => isPublic c = true
  | .action _ _ a => isPublicAction a = true
  | .write _ d => P d
  | _ => True

/-- The actions of a public script are public. -/
theorem isPublicAction_of_mem {script : Script} (h : isPublicScript script = true) {a : Action}
    (ha : a ∈ script) : isPublicAction a = true := by
  induction script with
  | nil => exact absurd ha List.not_mem_nil
  | cons b as ih =>
    rw [isPublicScript, Bool.and_eq_true] at h
    rcases List.mem_cons.mp ha with rfl | ha
    · exact h.1
    · exact ih h.2 ha

/-- The task does to the resolver what a history does, and leads to tasks like it. -/
structure Proceeds (P : Declaration Script → Prop) (w : Workshop Script) (t : Task) : Prop where
  scripts : HasPublicScripts (exec t.work w).2.resolver
  history : ∃ ts, IsHistory w.resolver ts (exec t.work w).2.resolver
  tasks : ∀ us, (exec t.work w).1 = .ok us → ∀ u ∈ us, u.Respects P

section

variable {P : Declaration Script → Prop} {w : Workshop Script}
  (hw : HasPublicScripts w.resolver)

include hw

/-- A task that is a computation leads to no others. -/
theorem proceeds_of_exec {α : Type} {t : Task} {m : Working Script α}
    (h : exec t.work w = mapValue (fun _ => []) (exec m w)) (hm : Follows m) :
    Proceeds P w t := by
  obtain ⟨hscripts, hhistory⟩ := hm w hw
  refine ⟨by rwa [h], by rwa [h], fun us hus u hu => ?_⟩
  rw [h] at hus
  rcases hx : exec m w with ⟨e | a, v⟩ <;> rw [hx] at hus <;> cases hus
  exact absurd hu List.not_mem_nil

/-- A task that leads to others and does nothing to the resolver. -/
theorem proceeds_of_work {t : Task} (us : List Task) {v : Workshop Script}
    (h : exec t.work w = (.ok us, v)) (hv : v.resolver = w.resolver)
    (hus : ∀ u ∈ us, u.Respects P) : Proceeds P w t := by
  refine ⟨?_, ⟨[], ?_⟩, ?_⟩
  · rw [h, hv]
    exact hw
  · rw [h, hv]
    exact isHistory_refl w.resolver
  · rw [h]
    rintro _ ⟨⟩
    exact hus

theorem proceeds_command {n : Nat} {c : Command} (hc : isPublic c = true) :
    Proceeds P w (.command n c) := by
  cases n with
  | zero => exact proceeds_of_exec (m := performWith 0 c) hw rfl (follows_throw _)
  | succ n =>
    have hfollows : Follows (performWith (n + 1) c) := (answers_performWith (n + 1) hc).follows
    cases c with
    | render indent =>
      refine proceeds_of_work hw [.drain n .sheet, .takeUp w.sheet]
        (v := w.onSheet (.blank indent)) rfl rfl ?_
      simp [Task.Respects]
    | renderShared =>
      refine proceeds_of_work hw [.drain n .shared] (v := w) rfl rfl ?_
      simp [Task.Respects]
    | _ => exact proceeds_of_exec hw (exec_bind_pure ..) hfollows

/-- The turn of a waiting declaration runs its script, or writes it as it waits. -/
theorem respects_ofTurn (hP : ∀ d ∈ w.resolver.queue.declarations, P d) (n : Nat) (on : Surface) :
    ∀ t ∈ Task.ofTurn n on w.resolver.queue.next?, t.Respects P := by
  intro t ht
  cases he : w.resolver.queue.next? with
  | none =>
    rw [he] at ht
    exact absurd ht List.not_mem_nil
  | some e =>
    obtain ⟨name, d⟩ := e
    have hmem : (name, d) ∈ w.resolver.queue.waiting.entries := List.mem_of_head? he
    rw [he, Task.ofTurn, List.mem_append, List.mem_append] at ht
    rcases ht with (ht | ht) | ht
    · have hscript := hw _ hmem
      rw [Task.ofDeclaration] at ht
      cases hs : d.body.script? with
      | none =>
        rw [hs] at ht
        rw [List.mem_singleton.mp ht]
        exact hP d (List.mem_map_of_mem hmem)
      | some script =>
        rw [hs] at ht hscript
        obtain ⟨a, ha, rfl⟩ := List.mem_map.mp ht
        exact isPublicAction_of_mem hscript ha
    · simp only [Task.ofEnd, List.mem_cons, List.not_mem_nil, or_false] at ht
      rcases ht with rfl | rfl <;> trivial
    · rw [List.mem_singleton.mp ht]
      trivial

/-- **One task** does what a history does and leads to tasks that respect the predicate. -/
theorem proceeds_of_respects (hP : ∀ d ∈ w.resolver.queue.declarations, P d) {t : Task}
    (ht : t.Respects P) : Proceeds P w t := by
  cases t with
  | command n c => exact proceeds_command hw ht
  | action n on a =>
    cases a with
    | command c =>
      refine proceeds_of_work hw [.command n c] (v := w) rfl rfl ?_
      intro u hu
      rw [List.mem_singleton.mp hu]
      exact ht
    | _ => exact proceeds_of_exec hw (exec_bind_pure ..) (follows_writing on _)
  | drain n on =>
    exact proceeds_of_work hw (Task.ofTurn n on w.resolver.queue.next?) (v := w) rfl rfl
      (respects_ofTurn hw hP n on)
  | write on d => exact proceeds_of_exec hw (exec_bind_pure ..) (follows_writing on _)
  | blank on => exact proceeds_of_exec hw (exec_bind_pure ..) (follows_writing on _)
  | retire name => exact proceeds_of_exec hw (exec_bind_pure ..) (follows_retire name)
  | takeUp sheet =>
    exact proceeds_of_work hw [] (v := w.onSheet sheet) rfl rfl
      fun u hu => absurd hu List.not_mem_nil
  | goOn =>
    exact proceeds_of_work hw [] (v := w) rfl rfl
      fun u hu => absurd hu List.not_mem_nil

end

/-! ### Steps of the machine -/

namespace Machine

/-- All that is left to be done is public, and what waits and what is being written
satisfies the predicate. -/
structure Respects (P : Declaration Script → Prop) (m : Machine) : Prop where
  tasks : ∀ t ∈ m.tasks, t.Respects P
  scripts : HasPublicScripts m.workshop.resolver
  waiting : ∀ d ∈ m.queue.declarations, P d

variable {P : Declaration Script → Prop} {m m' : Machine}

/-- What is being written satisfies the predicate. -/
theorem Respects.of_write (h : m.Respects P) {on : Surface} {d : Declaration Script}
    (hd : .write on d ∈ m.tasks) : P d := h.tasks _ hd

/-- **One step** does to the resolver what a history does. -/
theorem Respects.step (hP : Keeps P) (h : m.Respects P) (hs : m.step = some m') :
    (∃ ts, IsHistory m.workshop.resolver ts m'.workshop.resolver) ∧ m'.Respects P := by
  obtain ⟨w, failing, ts⟩ := m
  cases ts with
  | nil => cases hs
  | cons t ts =>
    have hts : ∀ u ∈ ts, u.Respects P := fun u hu => h.tasks u (List.mem_cons_of_mem t hu)
    cases failing with
    | true =>
      -- a failure under way does nothing to the resolver
      have hm' : m'.workshop.resolver = w.resolver ∧ m'.tasks = ts := by
        cases t <;> cases hs <;> exact ⟨rfl, rfl⟩
      refine ⟨⟨[], ?_⟩, ?_, ?_, ?_⟩
      · rw [hm'.1]
        exact isHistory_refl w.resolver
      · rw [hm'.2]
        exact hts
      · rw [hm'.1]
        exact h.scripts
      · rw [queue, hm'.1]
        exact h.waiting
    | false =>
      obtain ⟨hscripts, ⟨es, hhistory⟩, htasks⟩ :=
        proceeds_of_respects h.scripts h.waiting (h.tasks t List.mem_cons_self)
      have hwaiting := hP.history hhistory h.waiting
      rcases hx : exec t.work w with ⟨e | us, v⟩ <;> rw [Machine.step, hx] at hs <;>
        rw [hx] at hscripts hhistory htasks hwaiting <;> cases hs
      · exact ⟨⟨es, hhistory⟩, hts, hscripts, hwaiting⟩
      · refine ⟨⟨es, hhistory⟩, fun u hu => ?_, hscripts, hwaiting⟩
        exact (List.mem_append.mp hu).elim (htasks us rfl u) (hts u)

/-- **Any number of steps** are a history. -/
theorem Respects.reaches (hP : Keeps P) (h : m.Respects P) (hr : Reaches m m') :
    (∃ ts, IsHistory m.workshop.resolver ts m'.workshop.resolver) ∧ m'.Respects P := by
  induction hr with
  | refl => exact ⟨⟨[], isHistory_refl _⟩, h⟩
  | tail _ hs ih =>
    obtain ⟨⟨ts, hhistory⟩, hbefore⟩ := ih
    obtain ⟨⟨ts', hhistory'⟩, hafter⟩ := hbefore.step hP hs
    exact ⟨⟨ts ++ ts', hhistory.trans hhistory'⟩, hafter⟩

/-- What operations lead to, if nothing is asked of what waits. -/
theorem Respects.exists_operations (h : m.Respects fun _ => True) (hr : Reaches m m') :
    (∃ ops, (operateAll ops m.workshop.resolver).2 = m'.workshop.resolver) ∧
      m'.Respects fun _ => True := by
  obtain ⟨⟨_, ops, hops⟩, hafter⟩ := h.reaches (keeps_of_forall fun _ => trivial) hr
  exact ⟨⟨ops, congrArg Prod.snd hops⟩, hafter⟩

/-- The machine at the start of a session of public commands. -/
theorem respects_ofSession {cs : List Command} (hcs : ∀ c ∈ cs, isPublic c = true)
    (es : List Exclusion) (ds : Definitions) :
    (Machine.ofSession cs (.ofResolver (.fresh es ds))).Respects P where
  tasks := by
    intro t ht
    obtain ⟨c, hc, ht⟩ := List.mem_flatMap.mp ht
    simp only [List.mem_cons, List.not_mem_nil, or_false] at ht
    rcases ht with rfl | rfl
    · exact hcs c hc
    · trivial
  scripts := fun _ he => absurd he List.not_mem_nil
  waiting := fun _ hd => absurd hd List.not_mem_nil

end Machine
end Workshop
end SchemaScript
