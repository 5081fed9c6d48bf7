import SchemaScript.Proofs.AddingScripts
import SchemaScript.Proofs.Budget

/-!
# Drains that fail

A declaration that cannot be written ends a drain.  Those before it are done with: their names
are written, and their lines stand on the page to the last one.  The declaration itself and all
that is behind it wait still, in the order in which they came.  So when the declaration has been
replaced by one that can be written, another drain takes the work up at its name, and comes to
no name that was done with before.

## Main definitions

* `Workshop.Progress` — what completed turns have done.
* `Workshop.Interrupted` — what a drain that fails has done, and where it stopped.
* `Workshop.TakesUp` — how another drain goes on.

## Main results

* `exists_interrupted` — a drain that fails has stopped at a name.
* `takesUp_of_next?` — a drain whose first declaration can be written goes on from there.
* `drain_is_taken_up` — both together.
-/

namespace SchemaScript
namespace Workshop

open Stateful Queue

/-! ### Turns -/

section

variable {ε : Type} (run : ε → Working ε Unit) (on : Surface)

/-- What completed turns have done. -/
structure Progress (w : Workshop ε) (ts : List (Turn ε)) (v : Workshop ε) : Prop where
  /-- Each turn wrote the declaration that waited first when it came. -/
  turns : Turns run on w ts v
  /-- The names came up in the order of the queue, those that were entered meanwhile behind
  the others; the rest of them waits. -/
  order : w.resolver.queue.names ++ ts.flatMap Turn.entered =
    ts.map Turn.name ++ v.resolver.queue.names
  /-- The names that came up are written. -/
  written : v.resolver.queue.written = w.resolver.queue.written ++ ts.map Turn.name
  /-- A declaration puts lines on the page. -/
  rendered : ∀ t ∈ ts, (t.finish.page on).lines = (t.start.page on).lines ++ t.lines on
  /-- These lines stand on the page turn by turn, an empty one behind each declaration. -/
  lines : (v.page on).lines = (w.page on).lines ++ ts.flatMap fun t => t.lines on ++ [""]

/-- Behind completed turns, the last of which left the state `v`, a drain has stopped at a
declaration that could not be written. -/
structure Interrupted (w : Workshop ε) (ts : List (Turn ε)) (v : Workshop ε) (name : String)
    (e : Failure) (w' : Workshop ε) : Prop where
  progress : Progress run on w ts v
  /-- The declaration waits first under its name, and writing it fails. -/
  failed : ∃ d, v.resolver.queue.next? = some (name, d) ∧
    exec (writeDeclaration run on d) v = (.error e, w')
  /-- Its name is still the first one. -/
  first : w'.resolver.queue.names.head? = some name
  /-- All names that waited wait still, and behind them the ones that were entered since. -/
  names : w'.resolver.queue.names =
    v.resolver.queue.names ++ w'.resolver.queue.since v.resolver.queue.checkpoint
  /-- No further name is written. -/
  written : w'.resolver.queue.written = v.resolver.queue.written
  unfinished : w'.resolver.queue.isWritten name = false
  /-- What stood on the page stands there. -/
  lines : (v.page on).lines <+: (w'.page on).lines

/-- A drain begins with a declaration and goes on in the order of the queue; it completes no
turn of a name that was done with before, and no such name is left to it. -/
def TakesUp (weight : ε → Nat) (d : Declaration ε) (before : List String) (w : Workshop ε) :
    Prop :=
  ∃ t ts v, Progress run on w (t :: ts) v ∧ Ends run on v (exec (drain weight run on) w) ∧
    t.name = d.name ∧ t.declaration = d ∧
    ∀ name ∈ before, name ∉ (t :: ts).map Turn.name ++ v.resolver.queue.names

end

section

variable {ε : Type} {P : ε → Prop} {run : ε → Working ε Unit} {on : Surface}
  (hrun : OnlyEnlarge run on P) {w v : Workshop ε} {ts : List (Turn ε)}

include hrun

theorem Turns.progress (hts : Turns run on w ts v) (hw : IsOrderly P w.resolver.queue) :
    Progress run on w ts v where
  turns := hts
  order := names_append_entered hrun hts hw
  written := hts.written_eq hrun hw
  rendered := fun _ ht => hts.rendered hrun hw ht
  lines := hts.lines_eq hrun hw

/-- A drain whose first declaration can be written begins with it. -/
theorem takesUp_of_next? {weight : ε → Nat} (huses : UsesUp weight run)
    (hw : IsOrderly P w.resolver.queue) {d : Declaration ε} {u : Workshop ε}
    (hnext : w.resolver.queue.next? = some (d.name, d))
    (hd : exec (writeDeclaration run on d) w = (.ok (), u)) {before : List String}
    (hbefore : ∀ name ∈ before, name ∈ w.resolver.queue.written) :
    TakesUp run on weight d before w := by
  obtain ⟨ts, v, hts, hend⟩ := exists_ends huses w
  have hp := hts.progress hrun hw
  have hv := hts.isOrderly hrun hw
  cases hts with
  | nil =>
    -- a drain that takes no turn has come to nothing that can be written
    generalize exec (drain weight run on) w = out at hend
    cases hend with
    | emptied h =>
      rw [hnext] at h
      cases h
    | failed h hf =>
      rw [hnext] at h
      cases h
      have hfail := exec_writeDeclaration_of_writeNext hrun hw hnext hf
      rw [hd] at hfail
      cases hfail
  | @cons _ _ _ t ts ht hts =>
    have hturn := ht.next
    rw [hnext, Option.some.injEq, Prod.mk.injEq] at hturn
    refine ⟨t, ts, v, hp, hend, hturn.1.symm, hturn.2.symm, fun name hname hmem => ?_⟩
    have hwritten := hbefore name hname
    rcases List.mem_append.mp hmem with hmem | hmem
    · -- the names of the turns are written behind the others, and none is written twice
      have honce := hv.sound.once
      rw [hp.written, List.nodup_append] at honce
      exact honce.2.2 name hwritten name hmem rfl
    · have hnot := hv.sound.disjoint name (isWaiting_iff.mpr hmem)
      have hin : name ∈ v.resolver.queue.written := by
        rw [hp.written]
        exact List.mem_append_left _ hwritten
      rw [isWritten, List.contains_iff_mem.mpr hin] at hnot
      cases hnot

theorem Interrupted.isOrderly {name : String} {e : Failure} {w' : Workshop ε}
    (h : Interrupted run on w ts v name e w') (hw : IsOrderly P w.resolver.queue) :
    IsOrderly P w'.resolver.queue := by
  obtain ⟨d, hnext, hf⟩ := h.failed
  have hv := h.progress.turns.isOrderly hrun hw
  have hq := enlarges_writeDeclaration hrun (hv.scripts _ (List.mem_of_head? hnext)) hv
  rw [hf] at hq
  exact hq.orderly

end

/-! ### Scripts -/

/-- A drain that fails has stopped at a name. -/
theorem exists_interrupted {n : Nat} {on : Surface} {w w' : Workshop Script} {e : Failure}
    (hw : IsOrderly (fun s => allScript Command.isAdding s = true) w.resolver.queue)
    (h : exec (drain scriptWeight (runScript (performWith n) on) on) w = (.error e, w')) :
    ∃ ts v name, Interrupted (runScript (performWith n) on) on w ts v name e w' := by
  have hrun := onlyEnlarge_runScript n on
  obtain ⟨ts, v, hts, hend⟩ := exists_ends (usesUp_runScript n on) w
  have hv := hts.isOrderly hrun hw
  rw [h] at hend
  cases hend with
  | @failed name d _ _ hnext hf =>
    have hfail := exec_writeDeclaration_of_writeNext hrun hv hnext hf
    have hadds := adds_writeDeclaration n on (hv.scripts _ (List.mem_of_head? hnext)) v
    rw [hfail] at hadds
    have hq := hadds.queue hv
    have hfirst : w'.resolver.queue.names.head? = some name := by
      obtain ⟨names, hnames⟩ := exists_names_of_next? hnext
      obtain ⟨late, hlate⟩ := hq.names
      rw [← hlate, hnames]
      rfl
    have hwait := isWaiting_iff.mpr (List.mem_of_head? hfirst)
    exact ⟨ts, v, name, hts.progress hrun hw, ⟨d, hnext, hfail⟩, hfirst,
      names_append_since hq.names, hq.written, hq.orderly.sound.disjoint name hwait, hadds.lines⟩

/-- **A drain that fails can be taken up where it stopped.**  Whatever waits, if its scripts
take nothing out of the queue, and whatever stands on the page: the turns before the failure
are completed, and the name at which the drain stopped waits first, with the others behind it.
A declaration for that name can be put in its place, the names staying as they are.  If this
one can be written, then another drain, on this page or on another one, begins with it and goes
on in the order of the queue, and it comes to no name of a turn that was completed before. -/
theorem drain_is_taken_up {n : Nat} {on : Surface} {w w' : Workshop Script} {e : Failure}
    (hw : IsOrderly (fun s => allScript Command.isAdding s = true) w.resolver.queue)
    (h : exec (drain scriptWeight (runScript (performWith n) on) on) w = (.error e, w')) :
    ∃ ts v name, Interrupted (runScript (performWith n) on) on w ts v name e w' ∧
      ∀ c : Declaration Script, c.name = name →
        c.Allows (fun s => allScript Command.isAdding s = true) →
        ∃ r, exec (Resolver.enqueue c true) w'.resolver = (.ok true, r) ∧
          r.queue.names = w'.resolver.queue.names ∧
          ∀ on' w₁ u, w₁.resolver.queue = r.queue →
            exec (writeDeclaration (runScript (performWith n) on') on' c) w₁ = (.ok (), u) →
            TakesUp (runScript (performWith n) on') on' scriptWeight c (ts.map Turn.name) w₁ := by
  obtain ⟨ts, v, name, hi⟩ := exists_interrupted hw h
  refine ⟨ts, v, name, hi, ?_⟩
  rintro c rfl hc
  have hw' := hi.isOrderly (onlyEnlarge_runScript n on) hw
  have haccepts : w'.resolver.queue.accepts c.name true = true :=
    accepts_iff.mpr ⟨hi.unfinished, Or.inl rfl⟩
  have hwait : w'.resolver.queue.isWaiting c.name = true :=
    isWaiting_iff.mpr (List.mem_of_head? hi.first)
  have hq := queue_enqueue c true w'.resolver
  have hout := Resolver.exec_enqueue c true w'.resolver
  rw [if_pos haccepts] at hout
  rw [hout] at hq
  refine ⟨_, hout, ?_, fun on' w₁ u hw₁ hu => ?_⟩
  · rw [hq, (admits_register haccepts).names, if_pos hwait]
  · obtain ⟨d, hd⟩ := exists_next?_of_head? hi.first
    rw [hq] at hw₁
    have horderly : IsOrderly (fun s => allScript Command.isAdding s = true)
        w₁.resolver.queue := by
      rw [hw₁]
      exact ⟨hw'.sound.register c true, hw'.scripts.register hc true⟩
    refine takesUp_of_next? (onlyEnlarge_runScript n on') (usesUp_runScript n on') horderly
      ?_ hu fun k hk => ?_
    · rw [hw₁]
      exact next?_register hd haccepts
    · rw [hw₁, written_register, hi.written, hi.progress.written]
      exact List.mem_append_right _ hk

/-- `A` puts `C` in the queue by registering and `D` by emitting, and `B` fails behind two lines
of its own.  Replaced, it is written on another page. -/
theorem drain_is_taken_up_renewed :
    let script name ss : Declaration Script := ⟨name, name, .null, none, .custom (some ss)⟩
    let a := script "A" [.line "a", .command (.registerScript "C" "C" .null [.line "c"] false),
      .command (.emit "D" (.given (.obj [("type", .str "string"), ("enum", .arr [.str "x"])])) none)]
    let b := script "B" [.openBlock "b", .closeBlock "end", .closeBlock "end"]
    let q : Queue Script :=
      Queue.empty.registerAll [(a, false), (b, false), (script "Z" [.line "z"], false)]
    let w : Workshop Script :=
      ⟨⟨[], .empty, q, .empty, .empty, []⟩, ⟨some "", ["old"], 0⟩, .blank none⟩
    ∃ ts v e w', exec (drain scriptWeight (runScript (performWith 1) .shared) .shared) w =
        (.error e, w') ∧
      Interrupted (runScript (performWith 1) .shared) .shared w ts v "B" e w' ∧
      ts.map Turn.name = ["A"] ∧ w'.resolver.queue.names = ["B", "Z", "C", "D"] ∧
      w'.shared.lines = ["old", "a", "", "b \x7b", "end"] ∧
      ∃ r, exec (Resolver.enqueue (script "B" [.line "b"]) true) w'.resolver = (.ok true, r) ∧
        TakesUp (runScript (performWith 1) .sheet) .sheet scriptWeight (script "B" [.line "b"])
          ["A"] ⟨r, w'.shared, .blank (some "")⟩ := by
  intro script a b q w
  have hq : IsOrderly (fun s => allScript Command.isAdding s = true) w.resolver.queue := by
    refine isOrderly_empty.registerAll fun c hc => ?_
    simp only [List.mem_cons, List.not_mem_nil, or_false] at hc
    rcases hc with rfl | rfl | rfl
    all_goals
      rintro s ⟨⟩
      rfl
  have hend : let out := exec (drain scriptWeight (runScript (performWith 1) .shared) .shared) w
      out.1.toOption = none ∧ out.2.resolver.queue.names = ["B", "Z", "C", "D"] ∧
        out.2.resolver.queue.written = ["A"] ∧
        out.2.shared.lines = ["old", "a", "", "b \x7b", "end"] := by
    decide +kernel
  rcases hx : exec (drain scriptWeight (runScript (performWith 1) .shared) .shared) w with ⟨o, w'⟩
  rw [hx] at hend
  obtain ⟨hout, hnames, hwritten, hlines⟩ := hend
  obtain ⟨e, rfl⟩ := exists_error_of_toOption hout
  obtain ⟨ts, v, name, hi, hnext⟩ := drain_is_taken_up hq hx
  have hname : name = "B" := by
    have hfirst := hi.first
    rw [hnames] at hfirst
    exact (Option.some.inj hfirst).symm
  have hts : ts.map Turn.name = ["A"] := by
    have hall := hi.written
    rw [hi.progress.written, hwritten] at hall
    exact hall.symm
  subst hname
  obtain ⟨r, hr, -, htakes⟩ := hnext (script "B" [.line "b"]) rfl (by rintro s ⟨⟩; rfl)
  refine ⟨ts, v, e, w', rfl, hi, hts, hnames, hlines, r, hr, ?_⟩
  rw [← hts]
  exact htakes .sheet _ _ rfl rfl

end Workshop
end SchemaScript
