import SchemaScript.Proofs.History
import SchemaScript.Proofs.Writing
import SchemaScript.Workshop.Drain

/-!
# Draining a queue without scripts

If no script waits, draining that succeeds writes exactly the waiting declarations, in
order.

## Main results

* `exec_writeNext_eq_ok` — the first declaration.
* `exec_drain_eq_ok` — all of them.
-/

namespace SchemaScript
namespace Workshop

open Stateful

variable {ε : Type} {run : ε → Working ε Unit} {on : Surface}

/-- What was done on a page if it succeeded. -/
theorem exec_writing_eq_ok {α : Type} {m : Writing α} {w w' : Workshop ε} {a : α}
    (h : exec (writing on m) w = (.ok a, w')) :
    ∃ p, exec m (w.page on) = (.ok a, p) ∧ w' = w.withPage p on := by
  rw [exec_writing, Prod.mk.injEq] at h
  exact ⟨_, Prod.ext h.1 rfl, h.2.symm⟩

/-- Writing the next declaration, one without a script, puts it and an empty line on the
page and marks it as written. -/
theorem exec_writeNext_eq_ok {name : String} {d : Declaration ε} {w w' : Workshop ε}
    (hd : d.body.script? = none) (h : exec (writeNext run on name d) w = (.ok (), w')) :
    ∃ p q, exec d.write (w.page on) = (.ok (), p) ∧ exec (Page.line "") p = (.ok (), q) ∧
      w'.page on = q ∧ w'.resolver = w.resolver.retired name := by
  obtain ⟨_, w₁, h₁, h⟩ := exec_bind_eq_ok h
  simp only [writeDeclaration, hd] at h₁
  obtain ⟨p, hp, rfl⟩ := exec_writing_eq_ok h₁
  obtain ⟨_, w₂, h₂, h⟩ := exec_bind_eq_ok h
  obtain ⟨q, hq, rfl⟩ := exec_writing_eq_ok h₂
  rw [page_withPage] at hq
  refine ⟨p, q, hp, hq, ?_⟩
  rw [exec_resolving, Resolver.exec_retire] at h
  split at h
  · cases h
    refine ⟨?_, by simp⟩
    cases on <;> rfl
  · cases h

/-- One round writes them all, for there is no script at which it would end. -/
theorem exec_drainRound_eq_ok {next : Working ε Unit} {n : Nat} {w w' : Workshop ε}
    (hs : ∀ e ∈ w.resolver.queue.waiting.entries, e.2.body.script? = none)
    (hn : w.resolver.queue.names.Nodup) (h : exec (drainRound run on next n) w = (.ok (), w')) :
    exec (Declaration.writeAll w.resolver.queue.declarations) (w.page on) =
      (.ok (), w'.page on) := by
  induction n generalizing w with
  | zero =>
    rw [drainRound, exec_bind_ok (exec_get w)] at h
    rcases he : w.resolver.queue.waiting.entries with _ | ⟨e, es⟩
    · rw [Queue.next?, he] at h
      cases h
      rw [Queue.declarations, Table.values, he]
      rfl
    · rw [Queue.next?, he] at h
      cases h
  | succ n ih =>
    rw [drainRound, exec_bind_ok (exec_get w)] at h
    rcases he : w.resolver.queue.waiting.entries with _ | ⟨⟨name, d⟩, es⟩
    · rw [Queue.next?, he] at h
      cases h
      rw [Queue.declarations, Table.values, he]
      rfl
    · rw [Queue.next?, he] at h
      have hd : d.body.script? = none := hs (name, d) (by rw [he]; exact List.mem_cons_self)
      simp only [List.head?_cons, hd, Option.isSome_none, Bool.false_eq_true, if_false] at h
      obtain ⟨_, w₁, h₁, h⟩ := exec_bind_eq_ok h
      obtain ⟨p, q, hp, hq, hpage, hr⟩ := exec_writeNext_eq_ok hd h₁
      -- the names are distinct, so taking the first one out leaves the rest
      have hnot : name ∉ es.map (·.1) := by
        rw [Queue.names, Table.keys, he, List.map_cons, List.nodup_cons] at hn
        exact hn.1
      have hes : w₁.resolver.queue.waiting.entries = es := by
        rw [hr]
        exact Table.erase_of_cons he hnot
      have hrest := ih (w := w₁) (by
          intro e hm
          rw [hes] at hm
          exact hs e (by rw [he]; exact List.mem_cons_of_mem _ hm))
        (by rw [hr]; exact Table.nodup_keys_erase name hn) h
      rw [Queue.declarations, Table.values, he, List.map_cons, Declaration.writeAll,
        exec_bind_ok hp, exec_bind_ok hq, ← hpage, ← hrest, Queue.declarations, Table.values, hes]

/-- **Draining writes the waiting declarations in order.** -/
theorem exec_drain_eq_ok {weight : ε → Nat} {w w' : Workshop ε}
    (hs : ∀ e ∈ w.resolver.queue.waiting.entries, e.2.body.script? = none)
    (hn : w.resolver.queue.names.Nodup) (h : exec (drain weight run on) w = (.ok (), w')) :
    exec (Declaration.writeAll w.resolver.queue.declarations) (w.page on) =
      (.ok (), w'.page on) := by
  rw [drain, exec_bind_ok (exec_get w)] at h
  -- without scripts the first round is the only one, whatever the budget
  cases hb : scriptBudget weight w.resolver.queue with
  | zero =>
    rw [hb, drainRounds, exec_bind_ok (exec_get w)] at h
    exact exec_drainRound_eq_ok hs hn h
  | succ budget =>
    rw [hb, drainRounds, exec_bind_ok (exec_get w)] at h
    exact exec_drainRound_eq_ok hs hn h

end Workshop
end SchemaScript
