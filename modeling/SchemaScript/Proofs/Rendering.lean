import SchemaScript.Proofs.Lines
import SchemaScript.Proofs.Turns

/-!
# Rendering declarations without scripts

A drain of a queue in which no script waits is writing the declarations one after the
other: it fails where that fails, and if it succeeds all names are marked as written and
nothing else of the resolver changes but the notes.

## Main definitions

* `Resolver.retiredAll` — the resolver with names marked as written.
* `Workshop.emptied` — the workshop behind a drain.

## Main results

* `exec_drain_of_noScripts` — a drain, whether it fails or not.
* `exec_render_of_isWritable` — a rendering of declarations that can be written.
-/

namespace SchemaScript

open Stateful

namespace Resolver

variable {ε : Type}

/-- The resolver with names marked as written, one after the other. -/
def retiredAll (r : Resolver ε) : List String → Resolver ε
  | [] => r
  | name :: names => (r.retired name).retiredAll names

section

variable (r : Resolver ε) (names : List String)

@[simp] theorem exclusions_retiredAll : (r.retiredAll names).exclusions = r.exclusions := by
  induction names generalizing r with
  | nil => rfl
  | cons name names ih => exact ih (r.retired name)

@[simp] theorem definitions_retiredAll : (r.retiredAll names).definitions = r.definitions := by
  induction names generalizing r with
  | nil => rfl
  | cons name names ih => exact ih (r.retired name)

@[simp] theorem resolved_retiredAll : (r.retiredAll names).resolved = r.resolved := by
  induction names generalizing r with
  | nil => rfl
  | cons name names ih => exact ih (r.retired name)

@[simp] theorem opening_retiredAll : (r.retiredAll names).opening = r.opening := by
  induction names generalizing r with
  | nil => rfl
  | cons name names ih => exact ih (r.retired name)

/-- The names are written, beside those that were. -/
theorem isWritten_retiredAll (k : String) :
    (r.retiredAll names).queue.isWritten k = true ↔ k ∈ names ∨ r.queue.isWritten k = true := by
  induction names generalizing r with
  | nil => simp [retiredAll]
  | cons name names ih =>
    have hfirst : (r.retired name).queue.isWritten k = true ↔
        k = name ∨ r.queue.isWritten k = true := by
      simp [retired]
    rw [retiredAll, ih, hfirst, List.mem_cons]
    tauto

/-- The names do not wait any more. -/
theorem names_retiredAll :
    (r.retiredAll names).queue.names = r.queue.names.filter fun k => !names.contains k := by
  induction names generalizing r with
  | nil => simp [retiredAll]
  | cons name names ih =>
    have hfirst : (r.retired name).queue.names = r.queue.names.filter (· != name) :=
      Queue.names_finish r.queue name
    rw [retiredAll, ih, hfirst, List.filter_filter]
    refine List.filter_congr fun k _ => ?_
    rw [List.contains_cons, Bool.not_or, Bool.and_comm]
    rfl

/-- Behind all that wait none waits. -/
theorem waiting_retiredAll_names :
    (r.retiredAll r.queue.names).queue.waiting.entries = [] := by
  have hnames : (r.retiredAll r.queue.names).queue.names = [] := by
    rw [names_retiredAll, List.filter_eq_nil_iff]
    intro k hk
    simpa using hk
  exact List.map_eq_nil_iff.mp hnames

end
end Resolver

namespace Workshop

variable {ε : Type} {run : ε → Working ε Unit} {on : Surface}

/-- The workshop behind a drain: all is on the page, and none waits. -/
def emptied (w : Workshop ε) (p : Page) (on : Surface) : Workshop ε :=
  { w.withPage p on with resolver := w.resolver.retiredAll w.resolver.queue.names }

theorem withPage_withPage (w : Workshop ε) (p q : Page) (on : Surface) :
    (w.withPage p on).withPage q on = w.withPage q on := by
  cases on <;> rfl

/-- A declaration without a script is written, and an empty line behind it. -/
theorem exec_writeNext_of_noScript {name : String} {d : Declaration ε} {w : Workshop ε}
    (hd : d.body.script? = none) (hw : w.resolver.queue.isWaiting name = true) :
    exec (writeNext run on name d) w =
      match exec d.write (w.page on) with
      | (.ok _, p) => (.ok (),
          { w.withPage { p with lines := p.lines ++ [""] } on with
            resolver := w.resolver.retired name })
      | (.error e, p) => (.error e, w.withPage p on) := by
  have hwrite : exec (writeDeclaration run on d) w =
      ((exec d.write (w.page on)).1, w.withPage (exec d.write (w.page on)).2 on) := by
    rw [writeDeclaration, hd]
    exact exec_writing on d.write w
  rw [writeNext]
  rcases hx : exec d.write (w.page on) with ⟨e | u, p⟩ <;> rw [hx] at hwrite
  · exact exec_bind_error hwrite
  · have hline : exec (writing on (Page.line "")) (w.withPage p on) =
        (.ok (), w.withPage { p with lines := p.lines ++ [""] } on) := by
      rw [exec_writing, page_withPage, exec_line_empty, withPage_withPage]
    rw [exec_bind_ok hwrite, exec_bind_ok hline, exec_resolving, resolver_withPage,
      Resolver.exec_retire, if_pos hw]

/-- The computation writes the declarations that wait, one after the other, and fails where
that fails. -/
def WritesAll (on : Surface) (m : Working ε Unit) (w : Workshop ε) : Prop :=
  (exec m w).1 = (exec (Declaration.writeAll w.resolver.queue.declarations) (w.page on)).1 ∧
    ∀ p, exec (Declaration.writeAll w.resolver.queue.declarations) (w.page on) = (.ok (), p) →
      exec m w = (.ok (), w.emptied p on)

/-- Where none waits there is nothing to write. -/
theorem writesAll_of_nil {m : Working ε Unit} {w : Workshop ε}
    (he : w.resolver.queue.waiting.entries = []) (hm : exec m w = (.ok (), w)) :
    WritesAll on m w := by
  have hd : w.resolver.queue.declarations = [] := by
    rw [Queue.declarations, Table.values, he]
    rfl
  have hn : w.resolver.queue.names = [] := by
    rw [Queue.names, Table.keys, he]
    rfl
  rw [WritesAll, hm, hd]
  refine ⟨rfl, fun p hp => ?_⟩
  have hpage : p = w.page on := (Prod.mk.inj hp).2.symm
  rw [emptied, hn, hpage]
  cases on <;> rfl

/-- A round that has a step for each waiting declaration writes them all. -/
theorem writesAll_drainRound {next : Working ε Unit} {n : Nat} {w : Workshop ε}
    (hs : ∀ e ∈ w.resolver.queue.waiting.entries, e.2.body.script? = none)
    (hnodup : w.resolver.queue.names.Nodup) (hn : w.resolver.queue.checkpoint ≤ n) :
    WritesAll on (drainRound run on next n) w := by
  induction n generalizing w with
  | zero =>
    have he := List.eq_nil_of_length_eq_zero (Nat.le_zero.mp hn)
    refine writesAll_of_nil he ?_
    rw [drainRound, exec_bind_ok (exec_get w), Queue.next?, he]
    rfl
  | succ n ih =>
    rcases he : w.resolver.queue.waiting.entries with _ | ⟨⟨name, d⟩, es⟩
    · refine writesAll_of_nil he ?_
      rw [drainRound, exec_bind_ok (exec_get w), Queue.next?, he]
      rfl
    · have hd : d.body.script? = none := hs (name, d) (by rw [he]; exact List.mem_cons_self)
      have hwait : w.resolver.queue.isWaiting name = true := by
        rw [Queue.isWaiting_iff, Queue.names, Table.keys, he]
        exact List.mem_cons_self
      have hnames : w.resolver.queue.names = name :: es.map (·.1) := by
        rw [Queue.names, Table.keys, he]
        rfl
      have hdecls : w.resolver.queue.declarations = d :: es.map (·.2) := by
        rw [Queue.declarations, Table.values, he]
        rfl
      have hround : exec (drainRound run on next (n + 1)) w =
          exec (writeNext run on name d >>= fun _ => drainRound run on next n) w := by
        rw [drainRound, exec_bind_ok (exec_get w), Queue.next?, he]
        simp only [List.head?_cons, hd, Option.isSome_none, Bool.false_eq_true, if_false]
      rw [WritesAll, hround, hdecls, Declaration.writeAll, exec_bind, exec_bind,
        exec_writeNext_of_noScript hd hwait]
      rcases exec d.write (w.page on) with ⟨e | u, p⟩
      · refine ⟨rfl, fun q hq => ?_⟩
        cases hq
      · -- the names are distinct, so taking the first one out leaves the rest
        let w' : Workshop ε := { w.withPage { p with lines := p.lines ++ [""] } on with
          resolver := w.resolver.retired name }
        have hnot : name ∉ es.map (·.1) := by
          rw [hnames, List.nodup_cons] at hnodup
          exact hnodup.1
        have hes : w'.resolver.queue.waiting.entries = es := Table.erase_of_cons he hnot
        have hcheck : w'.resolver.queue.checkpoint ≤ n := by
          rw [Queue.checkpoint, Table.size, he, List.length_cons] at hn
          rw [Queue.checkpoint, Table.size, hes]
          omega
        have hrest := ih (w := w') (fun e hm => hs e (by
            rw [hes] at hm
            rw [he]
            exact List.mem_cons_of_mem _ hm))
          (Table.nodup_keys_erase name hnodup) hcheck
        have hpage : w'.page on = { p with lines := p.lines ++ [""] } := by
          cases on <;> rfl
        have hdecls' : w'.resolver.queue.declarations = es.map (·.2) := by
          rw [Queue.declarations, Table.values, hes]
        rw [WritesAll, hpage, hdecls'] at hrest
        dsimp only
        rw [exec_bind_ok (exec_line_empty p)]
        refine ⟨hrest.1, fun q hq => ?_⟩
        rw [hrest.2 q hq, emptied, emptied, hnames, Resolver.retiredAll,
          show w'.resolver.queue.names = es.map (·.1) by rw [Queue.names, Table.keys, hes]]
        cases on <;> rfl

/-- **A drain of a queue without scripts writes the declarations in order.** -/
theorem exec_drain_of_noScripts {weight : ε → Nat} {w : Workshop ε}
    (hs : ∀ e ∈ w.resolver.queue.waiting.entries, e.2.body.script? = none)
    (hnodup : w.resolver.queue.names.Nodup) : WritesAll on (drain weight run on) w := by
  have hdrain : ∃ next, exec (drain weight run on) w =
      exec (drainRound run on next w.resolver.queue.checkpoint) w := by
    rw [drain, exec_bind_ok (exec_get w)]
    -- the first round is the only one, whatever the budget
    cases scriptBudget weight w.resolver.queue with
    | zero => exact ⟨_, by rw [drainRounds, exec_bind_ok (exec_get w)]⟩
    | succ budget => exact ⟨_, by rw [drainRounds, exec_bind_ok (exec_get w)]⟩
  obtain ⟨next, hnext⟩ := hdrain
  rw [WritesAll, hnext]
  exact writesAll_drainRound hs hnodup (Nat.le_refl _)

/-- **A rendering of declarations that can be written** gives their text and marks all names
as written. -/
theorem exec_render_of_isWritable {weight : ε → Nat} {w : Workshop ε}
    (hs : ∀ e ∈ w.resolver.queue.waiting.entries, e.2.IsWritable)
    (hnodup : w.resolver.queue.names.Nodup) (indent : String) :
    exec (render weight run (some indent)) w =
      (.ok (Declaration.textOf indent w.resolver.queue.declarations),
        { w with resolver := w.resolver.retiredAll w.resolver.queue.names }) := by
  have hds : ∀ d ∈ w.resolver.queue.declarations, d.IsWritable := by
    intro d hd
    obtain ⟨e, he, rfl⟩ := List.mem_map.mp hd
    exact hs e he
  obtain ⟨p, hp, htext⟩ := Declaration.exec_writeAll_blank hds indent
  have hdrain : WritesAll .sheet (drain weight run .sheet) (w.onSheet (.blank (some indent))) :=
    exec_drain_of_noScripts (fun e he => (hs e he).script?_eq_none) hnodup
  rw [exec_render, hdrain.2 p hp]
  dsimp only [emptied, withPage, onSheet]
  rw [htext]

end Workshop
end SchemaScript
