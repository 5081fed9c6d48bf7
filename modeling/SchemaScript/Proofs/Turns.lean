import SchemaScript.Proofs.Draining
import SchemaScript.Proofs.Queue

/-!
# The turns of a drain

A drain takes one turn after the other: it writes the declaration that waits first, puts
an empty line behind it and marks its name as written.  It ends when none waits, or when
a declaration cannot be written; the fuel, of which a round takes up a piece, is used up
only if there were more turns with a script than rounds.

## Main definitions

* `Workshop.Turn`, `Workshop.IsTurn` — a completed turn.
* `Workshop.Turns` — completed turns one after the other.
* `Workshop.Ends` — how a drain ends.

## Main results

* `turns_drain` — a drain is its turns and its end.
* `IsTurn.lines` — what a turn puts on the page.
* `exec_render` — a rendering is a drain on a new sheet.
-/

namespace SchemaScript
namespace Workshop

open Stateful

variable {ε : Type}

/-- A completed turn. -/
structure Turn (ε : Type) where
  name : String
  declaration : Declaration ε
  /-- The state when the turn came. -/
  start : Workshop ε
  /-- The state when the declaration was written. -/
  finish : Workshop ε

namespace Turn

/-- The turn ran a script. -/
def isScripted (t : Turn ε) : Bool := t.declaration.body.script?.isSome

/-- The names that were put in the queue during the turn. -/
def entered (t : Turn ε) : List String :=
  t.finish.resolver.queue.since t.start.resolver.queue.checkpoint

/-- The lines of the declaration. -/
def lines (t : Turn ε) (on : Surface) : List String :=
  (t.finish.page on).lines.drop (t.start.page on).lines.length

end Turn

section

variable (run : ε → Working ε Unit) (on : Surface)

/-- Puts the empty line behind a declaration, and marks its name as written. -/
def endTurn (name : String) : Working ε Unit := do
  writing on (Page.line "")
  resolving (Resolver.retire name)

/-- From the one state to the other goes the turn. -/
structure IsTurn (w : Workshop ε) (t : Turn ε) (w' : Workshop ε) : Prop where
  start : t.start = w
  next : w.resolver.queue.next? = some (t.name, t.declaration)
  written : exec (writeDeclaration run on t.declaration) w = (.ok (), t.finish)
  ended : exec (endTurn on t.name) t.finish = (.ok (), w')

/-- From the one state to the other go the turns. -/
inductive Turns : Workshop ε → List (Turn ε) → Workshop ε → Prop
  | nil (w : Workshop ε) : Turns w [] w
  | cons {w u v : Workshop ε} {t : Turn ε} {ts : List (Turn ε)} (h : IsTurn run on w t u)
      (hs : Turns u ts v) : Turns w (t :: ts) v

/-- Behind its last completed turn a drain ends so. -/
inductive Ends (w : Workshop ε) : Except Failure Unit × Workshop ε → Prop
  /-- None waits. -/
  | emptied (h : w.resolver.queue.next? = none) : Ends w (.ok (), w)
  /-- A turn failed. -/
  | failed {name : String} {d : Declaration ε} {e : Failure} {w' : Workshop ε}
      (h : w.resolver.queue.next? = some (name, d))
      (hw : exec (writeNext run on name d) w = (.error e, w')) : Ends w (.error e, w')

end

variable {run : ε → Working ε Unit} {on : Surface}

/-! ### Single turns -/

theorem exec_writeNext (name : String) (d : Declaration ε) (w : Workshop ε) :
    exec (writeNext run on name d) w =
      exec (writeDeclaration run on d >>= fun _ => endTurn on name) w := rfl

/-- The next declaration is written in a turn. -/
theorem isTurn_of_writeNext {w u : Workshop ε} {name : String} {d : Declaration ε}
    (h : w.resolver.queue.next? = some (name, d))
    (hw : exec (writeNext run on name d) w = (.ok (), u)) :
    ∃ v, IsTurn run on w ⟨name, d, w, v⟩ u := by
  rw [exec_writeNext] at hw
  obtain ⟨_, v, hv, hu⟩ := exec_bind_eq_ok hw
  exact ⟨v, rfl, h, hv, hu⟩

theorem exec_line_empty (p : Page) :
    exec (Page.line "") p = (.ok (), { p with lines := p.lines ++ [""] }) := by
  rw [Page.exec_line, Page.lineFor_empty]

/-- The end of a turn puts an empty line on the page and finishes the name, which must
be waiting still. -/
theorem exec_endTurn_eq_ok {name : String} {w w' : Workshop ε}
    (h : exec (endTurn on name) w = (.ok (), w')) :
    w.resolver.queue.isWaiting name = true ∧ w'.resolver = w.resolver.retired name ∧
      (w'.page on).lines = (w.page on).lines ++ [""] := by
  obtain ⟨_, v, hv, h⟩ := exec_bind_eq_ok h
  obtain ⟨p, hp, rfl⟩ := exec_writing_eq_ok hv
  rw [exec_line_empty] at hp
  cases hp
  rw [exec_resolving, resolver_withPage, Resolver.exec_retire] at h
  split at h
  · next hw =>
    cases h
    refine ⟨hw, rfl, ?_⟩
    cases on <;> rfl
  · cases h

/-- Behind a turn its name is finished. -/
theorem IsTurn.queue {w w' : Workshop ε} {t : Turn ε} (h : IsTurn run on w t w') :
    w'.resolver.queue = t.finish.resolver.queue.finish t.name := by
  rw [(exec_endTurn_eq_ok h.ended).2.1]
  rfl

theorem IsTurn.isWaiting {w w' : Workshop ε} {t : Turn ε} (h : IsTurn run on w t w') :
    t.finish.resolver.queue.isWaiting t.name = true :=
  (exec_endTurn_eq_ok h.ended).1

/-- **What a turn puts on the page**, if writing the declaration only puts lines there:
those of the declaration, and an empty one. -/
theorem IsTurn.lines {w w' : Workshop ε} {t : Turn ε} (h : IsTurn run on w t w')
    (hp : (w.page on).lines <+: (t.finish.page on).lines) :
    (w'.page on).lines = (w.page on).lines ++ (t.lines on ++ [""]) := by
  rw [(exec_endTurn_eq_ok h.ended).2.2, Turn.lines, h.start, ← List.append_assoc]
  obtain ⟨ls, hls⟩ := hp
  rw [← hls, List.drop_left]

/-- A turn without a script leaves the queue as it is until its end. -/
theorem IsTurn.resolver_of_not_isScripted {w w' : Workshop ε} {t : Turn ε}
    (h : IsTurn run on w t w') (hs : t.isScripted = false) :
    t.finish.resolver = w.resolver := by
  have hw := h.written
  rw [Turn.isScripted, Option.isSome_eq_false_iff, Option.isNone_iff_eq_none] at hs
  rw [writeDeclaration, hs] at hw
  obtain ⟨p, -, hv⟩ := exec_writing_eq_ok hw
  rw [hv, resolver_withPage]

/-- A turn without a script makes the queue shorter. -/
theorem IsTurn.checkpoint_lt {w w' : Workshop ε} {t : Turn ε} (h : IsTurn run on w t w')
    (hs : t.isScripted = false) :
    w'.resolver.queue.checkpoint < w.resolver.queue.checkpoint := by
  rw [h.queue, h.resolver_of_not_isScripted hs]
  exact Queue.checkpoint_finish_lt (Queue.isWaiting_of_next? h.next)

/-! ### Many turns -/

/-- What holds of a state and is kept by every turn holds behind the turns. -/
theorem Turns.keeps {Q : Workshop ε → Prop} (hQ : ∀ w t u, IsTurn run on w t u → Q w → Q u)
    {w v : Workshop ε} {ts : List (Turn ε)} (h : Turns run on w ts v) (hw : Q w) : Q v := by
  induction h with
  | nil => exact hw
  | cons ht _ ih => exact ih (hQ _ _ _ ht hw)

/-! ### Drains -/

/-- The computation takes turns and ends, or it uses up its fuel behind turns of which
at least a number had scripts. -/
def Drains (run : ε → Working ε Unit) (on : Surface) (budget : Nat) (m : Working ε Unit)
    (w : Workshop ε) : Prop :=
  ∃ ts v, Turns run on w ts v ∧
    (Ends run on v (exec m w) ∨
      exec m w = (.error .outOfFuel, v) ∧ budget ≤ ts.countP Turn.isScripted)

theorem drains_throw (w : Workshop ε) : Drains run on 0 (throw .outOfFuel) w :=
  ⟨[], w, .nil w, Or.inr ⟨rfl, Nat.zero_le _⟩⟩

theorem Drains.of_ends {m : Working ε Unit} {budget : Nat} {w : Workshop ε}
    (h : Ends run on w (exec m w)) : Drains run on budget m w :=
  ⟨[], w, .nil w, Or.inl h⟩

/-- A turn before the others. -/
theorem Drains.cons {m next : Working ε Unit} {budget : Nat} {w u : Workshop ε} {t : Turn ε}
    (ht : IsTurn run on w t u) (hm : exec m w = exec next u) (h : Drains run on budget next u) :
    Drains run on (budget + if t.isScripted then 1 else 0) m w := by
  obtain ⟨ts, v, hts, hend⟩ := h
  refine ⟨t :: ts, v, .cons ht hts, ?_⟩
  rw [hm, List.countP_cons]
  exact hend.imp_right fun ⟨ho, hle⟩ => ⟨ho, Nat.add_le_add_right hle _⟩

/-- A round that has a step for each waiting declaration gets down to the next script. -/
theorem drains_drainRound {next : Working ε Unit} {budget : Nat}
    (hnext : ∀ w, Drains run on budget next w) {n : Nat} {w : Workshop ε}
    (hn : w.resolver.queue.checkpoint ≤ n) :
    Drains run on (budget + 1) (drainRound run on next n) w := by
  induction n generalizing w with
  | zero =>
    -- no steps are left, and none waits
    have he : w.resolver.queue.next? = none := by
      rw [Queue.next?, List.eq_nil_of_length_eq_zero (Nat.le_zero.mp hn), List.head?_nil]
    have hout : exec (drainRound run on next 0) w = (.ok (), w) := by
      rw [drainRound, exec_bind_ok (exec_get w), he]
      rfl
    exact .of_ends (hout ▸ .emptied he)
  | succ n ih =>
    rw [Drains]
    cases he : w.resolver.queue.next? with
    | none =>
      have hout : exec (drainRound run on next (n + 1)) w = (.ok (), w) := by
        rw [drainRound, exec_bind_ok (exec_get w), he]
        rfl
      exact Drains.of_ends (hout ▸ .emptied he)
    | some e =>
      obtain ⟨name, d⟩ := e
      have hout : exec (drainRound run on next (n + 1)) w =
          exec (writeNext run on name d >>= fun _ =>
            if d.body.script?.isSome then next else drainRound run on next n) w := by
        rw [drainRound, exec_bind_ok (exec_get w), he]
      rcases hw : exec (writeNext run on name d) w with ⟨e | u, w'⟩
      · rw [exec_bind_error hw] at hout
        exact Drains.of_ends (hout ▸ .failed he hw)
      · rw [exec_bind_ok hw] at hout
        obtain ⟨v, ht⟩ := isTurn_of_writeNext he hw
        cases hs : d.body.script?.isSome with
        | true =>
          rw [hs, if_pos rfl] at hout
          have h := (hnext w').cons ht hout
          rwa [show Turn.isScripted ⟨name, d, w, v⟩ = true from hs, if_pos rfl] at h
        | false =>
          rw [hs, if_neg Bool.false_ne_true] at hout
          have hlt := ht.checkpoint_lt hs
          have h := (ih (w := w') (by omega)).cons ht hout
          rwa [show Turn.isScripted ⟨name, d, w, v⟩ = false from hs,
            if_neg Bool.false_ne_true] at h

variable (run on)

theorem drains_drainRounds (budget : Nat) (w : Workshop ε) :
    Drains run on (budget + 1) (drainRounds run on budget) w := by
  induction budget generalizing w with
  | zero =>
    have hround : Drains run on (0 + 1)
        (drainRound run on (throw .outOfFuel) w.resolver.queue.checkpoint) w :=
      drains_drainRound drains_throw (Nat.le_refl _)
    obtain ⟨ts, v, hts, hend⟩ := hround
    exact ⟨ts, v, hts, by rwa [drainRounds, exec_bind_ok (exec_get w)]⟩
  | succ budget ih =>
    obtain ⟨ts, v, hts, hend⟩ := drains_drainRound ih (Nat.le_refl w.resolver.queue.checkpoint)
    exact ⟨ts, v, hts, by rwa [drainRounds, exec_bind_ok (exec_get w)]⟩

/-- **A drain is its turns and its end.**  Its fuel is used up only behind more turns with
scripts than the weights of the scripts that waited. -/
theorem turns_drain (weight : ε → Nat) (w : Workshop ε) :
    ∃ ts v, Turns run on w ts v ∧
      (Ends run on v (exec (drain weight run on) w) ∨
        exec (drain weight run on) w = (.error .outOfFuel, v) ∧
          scriptBudget weight w.resolver.queue < ts.countP Turn.isScripted) := by
  obtain ⟨ts, v, hts, hend⟩ := drains_drainRounds run on (scriptBudget weight w.resolver.queue) w
  refine ⟨ts, v, hts, ?_⟩
  rw [drain, exec_bind_ok (exec_get w)]
  exact hend

variable {run on}

/-- No name waits behind a drain that returns. -/
theorem names_eq_nil_of_drain {weight : ε → Nat} {w w' : Workshop ε}
    (h : exec (drain weight run on) w = (.ok (), w')) : w'.resolver.queue.names = [] := by
  obtain ⟨ts, v, -, hend⟩ := turns_drain run on weight w
  rw [h] at hend
  rcases hend with hend | ⟨ho, -⟩
  · cases hend with
    | emptied hn => exact Queue.names_eq_nil_of_next? hn
  · cases ho

/-- The workshop with another sheet. -/
def onSheet (w : Workshop ε) (sheet : Page) : Workshop ε := { w with sheet }

/-- A rendering is a drain on a new sheet, behind which the old one is taken up again. -/
theorem exec_render (weight : ε → Nat) (indent : Option String) (w : Workshop ε) :
    exec (render weight run indent) w =
      match exec (drain weight run .sheet) (w.onSheet (.blank indent)) with
      | (.ok _, v) => (.ok v.sheet.text, v.onSheet w.sheet)
      | (.error e, v) => (.error e, v.onSheet w.sheet) := by
  rw [render, exec_bind_ok (exec_get w), exec_bind_ok (exec_set w _), exec_bind, exec_tryCatch]
  rw [show ({ w with sheet := .blank indent } : Workshop ε) = w.onSheet (.blank indent) from rfl]
  rcases exec (drain weight run .sheet) (w.onSheet (.blank indent)) with ⟨e | u, v⟩ <;> rfl

end Workshop
end SchemaScript
