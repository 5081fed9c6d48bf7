import Mathlib.Logic.Relation
import SchemaScript.Proofs.Budget
import SchemaScript.Proofs.Sessions

/-!
# Sessions in small steps

A session as a machine that does one thing after the other: it carries out an action or a
command that does not render, writes a declaration without a script, puts an empty line
behind a declaration or marks its name as written.  The states of the machine are those
that can be looked at during a session, from inside of scripts as well.

The machine keeps a list of tasks.  A failure drops them up to the command of the session
in which it occurred, and only the sheets that were laid aside are taken up on the way.

## Main definitions

* `Workshop.Task`, `Workshop.Machine` — what is left to be done, and the machine.
* `Machine.step`, `Machine.Reaches` — one step, and any number of them.
* `Machine.ofSession` — the machine at the start of a session.

## Main results

* `does_performWith` — the machine does what a command does.
* `reaches_session` — and what a session does.
-/

namespace SchemaScript
namespace Workshop

open Stateful

/-! ### The machine -/

/-- Something that is left to be done. -/
inductive Task
  /-- A command, with renderings inside one another down to a depth. -/
  | command (depth : Nat) (c : Command)
  /-- An action of a script that runs on a page. -/
  | action (depth : Nat) (on : Surface) (a : Action)
  /-- The declarations are written on a page until none waits. -/
  | drain (depth : Nat) (on : Surface)
  /-- A declaration without a script is written on a page. -/
  | write (on : Surface) (d : Declaration Script)
  /-- An empty line is put on a page. -/
  | blank (on : Surface)
  /-- A waiting name is marked as written. -/
  | retire (name : String)
  /-- The sheet that was laid aside is taken up. -/
  | takeUp (sheet : Page)
  /-- The session goes on, whether the command before failed or not. -/
  | goOn

namespace Task

/-- Writing a declaration, by its script if it has one. -/
def ofDeclaration (depth : Nat) (on : Surface) (d : Declaration Script) : List Task :=
  match d.body.script? with
  | some script => script.map (.action depth on)
  | none => [.write on d]

/-- The end of a turn. -/
def ofEnd (on : Surface) (name : String) : List Task := [.blank on, .retire name]

/-- The turn of the declaration that waits first, and the drain behind it. -/
def ofTurn (depth : Nat) (on : Surface) : Option (String × Declaration Script) → List Task
  | none => []
  | some (name, d) => (ofDeclaration depth on d ++ ofEnd on name) ++ [.drain depth on]

/-- Does what comes first of the task, and gives what is left of it. -/
def work : Task → Working Script (List Task)
  | .command 0 _ => throw .nestedTooDeeply
  | .command (n + 1) (.render indent) => do
    let w ← get
    set (w.onSheet (.blank indent))
    return [.drain n .sheet, .takeUp w.sheet]
  | .command (n + 1) .renderShared => return [.drain n .shared]
  | .command (n + 1) c => do
    let _ ← performWith (n + 1) c
    return []
  | .action n _ (.command c) => return [.command n c]
  | .action n on a => do
    act (performWith n) on a
    return []
  | .drain n on => do return ofTurn n on (← get).resolver.queue.next?
  | .write on d => do
    writing on d.write
    return []
  | .blank on => do
    writing on (Page.line "")
    return []
  | .retire name => do
    resolving (Resolver.retire name)
    return []
  | .takeUp sheet => do
    modify fun w => w.onSheet sheet
    return []
  | .goOn => return []

/-- A failure passes the task by. -/
def isDropped : Task → Bool
  | .takeUp _ => false
  | .goOn => false
  | _ => true

end Task

/-- A workshop, whether a failure is under way, and what is left to be done. -/
structure Machine where
  workshop : Workshop Script
  failing : Bool
  tasks : List Task

namespace Machine

/-- The queue of the workshop. -/
def queue (m : Machine) : Queue Script := m.workshop.resolver.queue

/-- One step. -/
def step : Machine → Option Machine
  | ⟨_, _, []⟩ => none
  | ⟨w, false, t :: ts⟩ =>
    match exec t.work w with
    | (.ok us, w') => some ⟨w', false, us ++ ts⟩
    | (.error _, w') => some ⟨w', true, ts⟩
  | ⟨w, true, .takeUp sheet :: ts⟩ => some ⟨w.onSheet sheet, true, ts⟩
  | ⟨w, true, .goOn :: ts⟩ => some ⟨w, false, ts⟩
  | ⟨w, true, _ :: ts⟩ => some ⟨w, true, ts⟩

/-- Any number of steps. -/
abbrev Reaches : Machine → Machine → Prop := Relation.ReflTransGen fun m m' => m.step = some m'

/-- The machine at the start of a session. -/
def ofSession (cs : List Command) (w : Workshop Script) : Machine :=
  ⟨w, false, cs.flatMap fun c => [.command nestingLimit c, .goOn]⟩

/-- The machine with nothing left to be done. -/
def finished (w : Workshop Script) : Machine := ⟨w, false, []⟩

end Machine

/-! ### Tasks that lead to an outcome -/

open Machine

variable {α β : Type} {w : Workshop Script} {out : Except Failure α × Workshop Script}

/-- The outcome is a failure. -/
def isFailure : Except Failure α → Bool
  | .ok _ => false
  | .error _ => true

/-- The machine does the tasks with the outcome. -/
def Does (ts : List Task) (w : Workshop Script) (out : Except Failure α × Workshop Script) : Prop :=
  ∀ rest, Reaches ⟨w, false, ts ++ rest⟩ ⟨out.2, isFailure out.1, rest⟩

/-- A failure drops the tasks behind it. -/
theorem reaches_of_failing {ts : List Task} (h : ∀ t ∈ ts, t.isDropped = true)
    (w : Workshop Script) (rest : List Task) : Reaches ⟨w, true, ts ++ rest⟩ ⟨w, true, rest⟩ := by
  induction ts with
  | nil => exact .refl
  | cons t ts ih =>
    have ht := h t List.mem_cons_self
    refine .head ?_ (ih fun u hu => h u (List.mem_cons_of_mem t hu))
    cases t <;> first | rfl | cases ht

theorem does_pure (a : α) (w : Workshop Script) : Does [] w (.ok a, w) := fun _ => .refl

/-- Tasks behind others that did not fail. -/
theorem Does.append {ts us : List Task} {a : α} {v : Workshop Script}
    {out : Except Failure β × Workshop Script} (h : Does ts w (.ok a, v)) (h' : Does us v out) :
    Does (ts ++ us) w out := by
  intro rest
  have h₁ := h (us ++ rest)
  rw [← List.append_assoc] at h₁
  exact h₁.trans (h' rest)

/-- Tasks behind others that failed. -/
theorem Does.append_error {ts us : List Task} {e : Failure} {v : Workshop Script}
    (h : Does ts w ((.error e, v) : Except Failure α × Workshop Script))
    (hus : ∀ t ∈ us, t.isDropped = true) :
    Does (ts ++ us) w ((.error e, v) : Except Failure β × Workshop Script) := by
  intro rest
  have h₁ := h (us ++ rest)
  rw [← List.append_assoc] at h₁
  exact h₁.trans (reaches_of_failing hus v rest)

/-- One computation behind the other. -/
theorem Does.bind {ts us : List Task} {m : Working Script α} {f : α → Working Script β}
    (h : Does ts w (exec m w))
    (hf : ∀ a v, exec m w = (.ok a, v) → Does us v (exec (f a) v))
    (hus : ∀ t ∈ us, t.isDropped = true) : Does (ts ++ us) w (exec (m >>= f) w) := by
  rcases hx : exec m w with ⟨e | a, v⟩
  · rw [exec_bind_error hx]
    exact (hx ▸ h).append_error hus
  · rw [exec_bind_ok hx]
    exact (hx ▸ h).append (hf a v hx)

/-- A task that leads to others. -/
theorem does_of_work {t : Task} (us : List Task) {v : Workshop Script}
    (h : exec t.work w = (.ok us, v)) (hus : Does us v out) : Does [t] w out := by
  intro rest
  refine .head ?_ (hus rest)
  rw [List.singleton_append, step, h]

/-- A task that is a computation. -/
theorem does_of_exec {t : Task} {m : Working Script α}
    (h : exec t.work w = mapValue (fun _ => []) (exec m w)) : Does [t] w (exec m w) := by
  intro rest
  refine .single ?_
  rw [List.singleton_append, step, h]
  rcases exec m w with ⟨e | a, v⟩ <;> rfl

/-- An outcome matters by whether it is a failure, and its state. -/
theorem Does.of_eq {ts : List Task} {out' : Except Failure β × Workshop Script}
    (h : Does ts w out) (hf : isFailure out'.1 = isFailure out.1) (hw : out'.2 = out.2) :
    Does ts w out' := by
  intro rest
  rw [hf, hw]
  exact h rest

/-! ### Renderings -/

section

variable {n : Nat} {on : Surface}

theorem isDropped_ofEnd (name : String) : ∀ t ∈ Task.ofEnd on name, t.isDropped = true := by
  simp [Task.ofEnd, Task.isDropped]

theorem isDropped_actions (script : Script) :
    ∀ t ∈ script.map (Task.action n on), t.isDropped = true := by
  intro t ht
  obtain ⟨a, -, rfl⟩ := List.mem_map.mp ht
  rfl

variable (hcommand : ∀ c w, Does [.command n c] w (exec (performWith n c) w))

include hcommand

theorem does_act (a : Action) (w : Workshop Script) :
    Does [.action n on a] w (exec (act (performWith n) on a) w) := by
  cases a with
  | command c =>
    refine does_of_work [.command n c] (v := w) rfl ?_
    refine (hcommand c w).of_eq ?_ ?_ <;> rw [act, exec_bind_pure]
    · rcases exec (performWith n c) w with ⟨e | a, v⟩ <;> rfl
    · rfl
  | _ => exact does_of_exec (exec_bind_pure ..)

theorem does_runScript (script : Script) (w : Workshop Script) :
    Does (script.map (.action n on)) w (exec (runScript (performWith n) on script) w) := by
  induction script generalizing w with
  | nil => exact does_pure () w
  | cons a as ih =>
    exact (does_act hcommand a w).bind (fun _ v _ => ih v) (isDropped_actions as)

theorem does_writeDeclaration (d : Declaration Script) (w : Workshop Script) :
    Does (Task.ofDeclaration n on d) w
      (exec (writeDeclaration (runScript (performWith n) on) on d) w) := by
  rw [Task.ofDeclaration, writeDeclaration]
  cases d.body.script? with
  | some script => exact does_runScript hcommand script w
  | none => exact does_of_exec (exec_bind_pure ..)

theorem does_writeNext (name : String) (d : Declaration Script) (w : Workshop Script) :
    Does (Task.ofDeclaration n on d ++ Task.ofEnd on name) w
      (exec (writeNext (runScript (performWith n) on) on name d) w) := by
  rw [exec_writeNext]
  refine (does_writeDeclaration hcommand d w).bind (fun _ v _ => ?_) (isDropped_ofEnd name)
  have hblank : Does [.blank on] v (exec (writing on (Page.line "")) v) :=
    does_of_exec (exec_bind_pure ..)
  have hretire : ∀ u, Does [.retire name] u (exec (resolving (Resolver.retire name)) u) :=
    fun _ => does_of_exec (exec_bind_pure ..)
  exact hblank.bind (fun _ u _ => hretire u) (by simp [Task.isDropped])

/-- A drain takes its turns and ends. -/
theorem does_drain_of_turns {v : Workshop Script} {ts : List (Turn Script)}
    {out : Except Failure Unit × Workshop Script}
    (hts : Turns (runScript (performWith n) on) on w ts v)
    (hend : Ends (runScript (performWith n) on) on v out) : Does [.drain n on] w out := by
  have hwork : ∀ w : Workshop Script, exec (Task.drain n on).work w =
      (.ok (Task.ofTurn n on w.resolver.queue.next?), w) := fun _ => rfl
  induction hts with
  | nil w =>
    cases hend with
    | emptied h => exact does_of_work _ (by rw [hwork, h]; rfl) (does_pure () w)
    | @failed name d e w' h hf =>
      refine does_of_work _ (by rw [hwork, h]) ?_
      exact Does.append_error (hf ▸ does_writeNext hcommand name d w) (by simp [Task.isDropped])
  | @cons w u v t ts ht _ ih =>
    have hturn : exec (writeNext (runScript (performWith n) on) on t.name t.declaration) w =
        (.ok (), u) := by
      rw [exec_writeNext, exec_bind_ok ht.written, ht.ended]
    refine does_of_work _ (by rw [hwork, ht.next]) ?_
    exact Does.append (hturn ▸ does_writeNext hcommand t.name t.declaration w) (ih hend)

theorem does_drain (on : Surface) (w : Workshop Script) : Does [.drain n on] w
    (exec (drain scriptWeight (runScript (performWith n) on) on) w) := by
  obtain ⟨ts, v, hts, hend⟩ := exists_ends (usesUp_runScript n on) w
  exact does_drain_of_turns hcommand hts hend

theorem does_render (indent : Option String) (w : Workshop Script) :
    Does [.command (n + 1) (.render indent)] w
      (exec (render scriptWeight (runScript (performWith n) .sheet) indent) w) := by
  refine does_of_work ([.drain n .sheet] ++ [.takeUp w.sheet])
    (v := w.onSheet (.blank indent)) rfl ?_
  intro rest
  have hdrain := does_drain hcommand .sheet (w.onSheet (.blank indent))
    ([.takeUp w.sheet] ++ rest)
  rw [← List.append_assoc] at hdrain
  refine hdrain.tail ?_
  -- the sheet is taken up whether the drain failed or not
  rw [exec_render]
  rcases exec (drain scriptWeight (runScript (performWith n) .sheet) .sheet)
    (w.onSheet (.blank indent)) with ⟨e | u, v⟩ <;> rfl

end

/-! ### Commands and sessions -/

/-- **The machine does what a command does.** -/
theorem does_performWith (n : Nat) (c : Command) (w : Workshop Script) :
    Does [.command n c] w (exec (performWith n c) w) := by
  induction n generalizing c w with
  | zero => exact does_of_exec rfl
  | succ n ih =>
    cases c with
    | render indent =>
      refine (does_render ih indent w).of_eq ?_ ?_ <;>
        rw [performWith, performStep, exec_bind_pure]
      · rcases exec (render scriptWeight (runScript (performWith n) .sheet) indent) w
          with ⟨e | a, v⟩ <;> rfl
      · rfl
    | renderShared =>
      refine does_of_work [.drain n .shared] (v := w) rfl ?_
      refine (does_drain ih .shared w).of_eq ?_ ?_ <;> rw [performWith, performStep, exec_bind] <;>
        rcases exec (drain scriptWeight (runScript (performWith n) .shared) .shared) w
          with ⟨e | a, v⟩ <;> rfl
    | _ => exact does_of_exec (exec_bind_pure ..)

/-- The machine does what the front of a session does, and the rest is left. -/
theorem reaches_ofSession_append (cs cs' : List Command) (w : Workshop Script) :
    Reaches (ofSession (cs ++ cs') w) (ofSession cs' (session cs w).2) := by
  induction cs generalizing w with
  | nil => exact .refl
  | cons c cs ih =>
    have hc := does_performWith nestingLimit c w
      (.goOn :: (cs ++ cs').flatMap fun c => [.command nestingLimit c, .goOn])
    refine (hc.tail (b := _) ?_).trans (ih (exec (perform c) w).2)
    rcases hx : exec (performWith nestingLimit c) w with ⟨e | a, v⟩ <;> rw [perform, hx] <;> rfl

/-- **The machine does what a session does.** -/
theorem reaches_session (cs : List Command) (w : Workshop Script) :
    Reaches (ofSession cs w) (finished (session cs w).2) := by
  have h := reaches_ofSession_append cs [] w
  rw [List.append_nil] at h
  exact h

end Workshop
end SchemaScript
