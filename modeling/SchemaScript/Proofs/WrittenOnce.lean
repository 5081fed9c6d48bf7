import SchemaScript.Proofs.Scripts
import SchemaScript.Proofs.Turns

/-!
# Every name is written once

The queue of one workshop is registered in, rolled back and drained, in any order.  While a
drain runs them, scripts register further declarations, and any of them can fail.  Then the
turns of a drain that returns take the names in the order in which they came, and no name
has two completed turns, whatever the number of drains.

## Main definitions

* `Workshop.OnlyRegister` — what the scripts do.
* `Workshop.OnlyEnlarge` — as much of it as orders the turns.
* `Workshop.Call`, `Workshop.callAll` — what is done from outside.
* `Workshop.Completes` — the completed turns of all drains.
* `Workshop.Drained` — what a drain that returns has done.

## Main results

* `names_append_entered` — turns take the names in order.
* `each_name_written_once` — all together.
-/

namespace SchemaScript
namespace Workshop

open Stateful Queue

variable {ε : Type}

/-! ### Scripts that register -/

/-- Scripts that pass the test do nothing to the queue but register declarations whose
scripts pass it, too, whether they fail or not; and one that does not fail only puts lines
on its page. -/
structure OnlyRegister (run : ε → Working ε Unit) (on : Surface) (P : ε → Prop) : Prop where
  queue : ∀ s, P s → ∀ w, ∃ cs : List (Registration ε), (∀ c ∈ cs, c.1.Allows P) ∧
    (exec (run s) w).2.resolver.queue = w.resolver.queue.registerAll cs
  lines : ∀ s, P s → ∀ w w', exec (run s) w = (.ok (), w') →
    (w.page on).lines <+: (w'.page on).lines

/-- Scripts of commands that only register do so, with nesting to any depth. -/
theorem onlyRegister_runScript (n : Nat) (on : Surface) :
    OnlyRegister (runScript (performWith n) on) on
      fun s => allScript Command.isRegistering s = true where
  queue := fun _ hs w => (registers_runScript n hs w).queue
  lines := by
    intro s hs w w' h
    have hl : (w.page on).lines <+: ((exec (runScript (performWith n) on s) w).2.page on).lines :=
      (registers_runScript n hs w).lines
    rwa [h] at hl

/-- The queue is sound, and the scripts in it pass the test. -/
structure IsOrderly (P : ε → Prop) (q : Queue ε) : Prop where
  sound : q.IsSound
  scripts : q.HasScripts P

theorem isOrderly_empty {P : ε → Prop} : IsOrderly P (.empty : Queue ε) :=
  ⟨isSound_empty, hasScripts_empty⟩

section

variable {P : ε → Prop} {run : ε → Working ε Unit} {on : Surface}

theorem IsOrderly.registerAll {q : Queue ε} (h : IsOrderly P q) {cs : List (Registration ε)}
    (hcs : ∀ c ∈ cs, c.1.Allows P) : IsOrderly P (q.registerAll cs) :=
  ⟨h.sound.steps (steps_registerAll q cs), h.scripts.registerAll hcs⟩

theorem IsOrderly.finish {q : Queue ε} (h : IsOrderly P q) (name : String) :
    IsOrderly P (q.finish name) :=
  ⟨h.sound.finish name, h.scripts.finish name⟩

/-! ### Scripts that enlarge the queue -/

/-- Names came behind the others, no name was written, and the queue is orderly.  What waits
under a name may have been replaced. -/
structure Enlarges (P : ε → Prop) (q q' : Queue ε) : Prop where
  orderly : IsOrderly P q'
  names : q.names <+: q'.names
  written : q'.written = q.written

theorem Enlarges.refl {q : Queue ε} (h : IsOrderly P q) : Enlarges P q q :=
  ⟨h, List.prefix_rfl, rfl⟩

theorem Enlarges.trans {q q' q'' : Queue ε} (h : Enlarges P q q') (h' : Enlarges P q' q'') :
    Enlarges P q q'' :=
  ⟨h'.orderly, h.names.trans h'.names, h'.written.trans h.written⟩

theorem Enlarges.registerAll {q q' : Queue ε} (h : Enlarges P q q')
    {cs : List (Registration ε)} (hcs : ∀ c ∈ cs, c.1.Allows P) :
    Enlarges P q (q'.registerAll cs) where
  orderly := h.orderly.registerAll hcs
  names := h.names.trans (names_registerAll q' cs)
  written := (written_registerAll q' cs).trans h.written

theorem Enlarges.register {q q' : Queue ε} (h : Enlarges P q q') {d : Declaration ε}
    (hd : d.Allows P) (replace : Bool) : Enlarges P q (q'.register d replace) := by
  have hone : ∀ c ∈ [(d, replace)], c.1.Allows P := by
    intro c hc
    rw [List.mem_singleton.mp hc]
    exact hd
  exact h.registerAll hone

theorem Enlarges.isKnown {q q' : Queue ε} (h : Enlarges P q q') {name : String}
    (hk : q.isKnown name = true) : q'.isKnown name = true := by
  rw [Queue.isKnown, Bool.or_eq_true, isWaiting_iff] at hk ⊢
  refine hk.imp (fun hm => h.names.subset hm) fun hw => ?_
  rwa [isWritten, h.written]

/-- Scripts that pass the test only enlarge an orderly queue, whether they fail or not; and one
that does not fail only puts lines on its page. -/
structure OnlyEnlarge (run : ε → Working ε Unit) (on : Surface) (P : ε → Prop) : Prop where
  queue : ∀ s, P s → ∀ w, IsOrderly P w.resolver.queue →
    Enlarges P w.resolver.queue (exec (run s) w).2.resolver.queue
  lines : ∀ s, P s → ∀ w w', exec (run s) w = (.ok (), w') →
    (w.page on).lines <+: (w'.page on).lines

theorem OnlyRegister.onlyEnlarge (h : OnlyRegister run on P) : OnlyEnlarge run on P where
  queue := by
    intro s hs w hw
    obtain ⟨cs, hcs, hq⟩ := h.queue s hs w
    rw [hq]
    exact (Enlarges.refl hw).registerAll hcs
  lines := h.lines

variable (hrun : OnlyEnlarge run on P)

include hrun

/-- Writing a declaration enlarges the queue, whether it fails or not. -/
theorem enlarges_writeDeclaration {d : Declaration ε} (hd : d.Allows P) {w : Workshop ε}
    (hw : IsOrderly P w.resolver.queue) :
    Enlarges P w.resolver.queue (exec (writeDeclaration run on d) w).2.resolver.queue := by
  rw [writeDeclaration]
  cases hs : d.body.script? with
  | some s => exact hrun.queue s (hd s hs) w hw
  | none =>
    rw [exec_writing, resolver_withPage]
    exact .refl hw

/-- Writing a declaration without failing puts lines on the page. -/
theorem lines_writeDeclaration {d : Declaration ε} (hd : d.Allows P) {w w' : Workshop ε}
    (h : exec (writeDeclaration run on d) w = (.ok (), w')) :
    (w.page on).lines <+: (w'.page on).lines := by
  rw [writeDeclaration] at h
  cases hs : d.body.script? with
  | some s =>
    rw [hs] at h
    exact hrun.lines s (hd s hs) w w' h
  | none =>
    rw [hs] at h
    obtain ⟨p, hp, rfl⟩ := exec_writing_eq_ok h
    rw [page_withPage]
    exact (Declaration.write_ok hp).1.lines

/-! ### Single turns -/

section

variable {w u : Workshop ε} {t : Turn ε} (ht : IsTurn run on w t u)
  (hw : IsOrderly P w.resolver.queue)

include ht hw

theorem IsTurn.enlarges : Enlarges P w.resolver.queue t.finish.resolver.queue := by
  have h := enlarges_writeDeclaration hrun (hw.scripts _ (List.mem_of_head? ht.next)) hw
  rwa [ht.written] at h

theorem IsTurn.isOrderly : IsOrderly P u.resolver.queue := by
  rw [ht.queue]
  exact (ht.enlarges hrun hw).orderly.finish t.name

/-- The names that a turn enters come behind those that wait. -/
theorem IsTurn.names_finish : t.finish.resolver.queue.names =
    w.resolver.queue.names ++ t.entered := by
  rw [Turn.entered, ht.start]
  exact names_append_since (ht.enlarges hrun hw).names

/-- **A turn takes the first name off** and puts those that it enters at the end. -/
theorem IsTurn.names : w.resolver.queue.names ++ t.entered = t.name :: u.resolver.queue.names := by
  obtain ⟨names, hnames⟩ := exists_names_of_next? ht.next
  have hfinish := ht.names_finish hrun hw
  rw [hnames, List.cons_append] at hfinish
  have hrest := names_finish_of_cons hfinish (ht.enlarges hrun hw).orderly.sound.nodup
  rw [ht.queue, hrest, hnames, List.cons_append]

/-- A turn writes its name. -/
theorem IsTurn.written_eq : u.resolver.queue.written = w.resolver.queue.written ++ [t.name] := by
  have h := ht.enlarges hrun hw
  rw [ht.queue, written_finish (h.orderly.sound.disjoint t.name ht.isWaiting), h.written]

end

/-! ### Turns one after the other -/

section

variable {w v : Workshop ε} {ts : List (Turn ε)} (hts : Turns run on w ts v)
  (hw : IsOrderly P w.resolver.queue)

include hts hw

theorem Turns.isOrderly : IsOrderly P v.resolver.queue :=
  hts.keeps (Q := fun w => IsOrderly P w.resolver.queue)
    (fun _ _ _ ht hw => ht.isOrderly hrun hw) hw

/-- **Turns take the names in order**: those that waited, and those that came meanwhile. -/
theorem names_append_entered : w.resolver.queue.names ++ ts.flatMap Turn.entered =
    ts.map Turn.name ++ v.resolver.queue.names := by
  induction hts with
  | nil w => simp
  | @cons w u v t ts ht hts ih =>
    rw [List.flatMap_cons, ← List.append_assoc, ht.names hrun hw, List.cons_append,
      ih (ht.isOrderly hrun hw), List.map_cons, List.cons_append]

theorem Turns.written_eq : v.resolver.queue.written =
    w.resolver.queue.written ++ ts.map Turn.name := by
  induction hts with
  | nil w => simp
  | @cons w u v t ts ht hts ih =>
    rw [ih (ht.isOrderly hrun hw), ht.written_eq hrun hw, List.append_assoc]
    rfl

/-- What each turn writes stands on the page in the order of the turns. -/
theorem Turns.lines_eq : (v.page on).lines =
    (w.page on).lines ++ ts.flatMap fun t => t.lines on ++ [""] := by
  induction hts with
  | nil w => simp
  | @cons w u v t ts ht hts ih =>
    have hd := hw.scripts _ (List.mem_of_head? ht.next)
    rw [ih (ht.isOrderly hrun hw), ht.lines (lines_writeDeclaration hrun hd ht.written),
      List.flatMap_cons, List.append_assoc]

/-- A name that is known during the turns is known behind them. -/
theorem Turns.isKnown {name : String} (h : w.resolver.queue.isKnown name = true) :
    v.resolver.queue.isKnown name = true := by
  induction hts with
  | nil w => exact h
  | @cons w u v t ts ht hts ih =>
    refine ih (ht.isOrderly hrun hw) ?_
    rw [(exec_endTurn_eq_ok ht.ended).2.1]
    exact Resolver.isKnown_retired ((ht.enlarges hrun hw).isKnown h)

end

/-! ### Drains -/

end

/-- Behind its last completed turn a drain stops so. -/
inductive Stops (run : ε → Working ε Unit) (on : Surface) (w : Workshop ε) :
    Except Failure Unit × Workshop ε → Prop
  /-- None waits. -/
  | emptied (h : w.resolver.queue.names = []) : Stops run on w (.ok (), w)
  /-- The first declaration could not be written to its end. -/
  | interrupted {name : String} {d : Declaration ε} {e : Failure} {w' : Workshop ε}
      (h : w.resolver.queue.next? = some (name, d))
      (hw : exec (writeDeclaration run on d) w = (.error e, w')) : Stops run on w (.error e, w')
  /-- The fuel is used up, the weights of the scripts being too small. -/
  | exhausted : Stops run on w (.error .outOfFuel, w)

section

variable {P : ε → Prop} {run : ε → Working ε Unit} {on : Surface}

/-- The end of a turn does not fail if the name waits still. -/
theorem exec_endTurn_of_isWaiting (on : Surface) {name : String} {w : Workshop ε}
    (h : w.resolver.queue.isWaiting name = true) :
    ∃ w', exec (endTurn on name) w = (.ok (), w') := by
  refine ⟨(exec (endTurn on name) w).2, Prod.ext ?_ rfl⟩
  rw [endTurn, exec_bind, exec_writing, exec_line_empty]
  dsimp only
  rw [exec_resolving, resolver_withPage, Resolver.exec_retire, if_pos h]

section

variable (hrun : OnlyEnlarge run on P) {w : Workshop ε} (hw : IsOrderly P w.resolver.queue)
  {out : Except Failure Unit × Workshop ε}

include hrun hw

/-- A turn that fails fails in writing its declaration. -/
theorem exec_writeDeclaration_of_writeNext {name : String} {d : Declaration ε} {e : Failure}
    {w' : Workshop ε} (h : w.resolver.queue.next? = some (name, d))
    (hf : exec (writeNext run on name d) w = (.error e, w')) :
    exec (writeDeclaration run on d) w = (.error e, w') := by
  rw [exec_writeNext] at hf
  have hq := enlarges_writeDeclaration hrun (hw.scripts _ (List.mem_of_head? h)) hw
  rcases hx : exec (writeDeclaration run on d) w with ⟨e' | a, v⟩ <;> rw [hx] at hq
  · rwa [exec_bind_error hx] at hf
  · -- the name waits still, for scripts take no name away
    rw [exec_bind_ok hx] at hf
    have hwait : v.resolver.queue.isWaiting name = true :=
      isWaiting_iff.mpr (hq.names.subset (isWaiting_iff.mp (isWaiting_of_next? h)))
    obtain ⟨v', hv'⟩ := exec_endTurn_of_isWaiting on hwait
    rw [hv'] at hf
    cases hf

theorem stops_of_ends (h : Ends run on w out) : Stops run on w out := by
  cases h with
  | emptied h => exact .emptied (names_eq_nil_of_next? h)
  | failed h hf => exact .interrupted h (exec_writeDeclaration_of_writeNext hrun hw h hf)

/-- What the turn that failed did to the queue stays. -/
theorem Stops.enlarges (h : Stops run on w out) :
    Enlarges P w.resolver.queue out.2.resolver.queue := by
  cases h with
  | interrupted h hf =>
    have hq := enlarges_writeDeclaration hrun (hw.scripts _ (List.mem_of_head? h)) hw
    rwa [hf] at hq
  | _ => exact .refl hw

end

/-- What a drain that returns has done in its turns. -/
structure Drained (run : ε → Working ε Unit) (on : Surface) (w : Workshop ε)
    (ts : List (Turn ε)) (w' : Workshop ε) : Prop where
  /-- Each turn wrote the declaration that waited first when it came. -/
  turns : Turns run on w ts w'
  emptied : w'.resolver.queue.names = []
  /-- The names came up in the order of the queue, those that were entered meanwhile
  behind the others. -/
  order : ts.map Turn.name = w.resolver.queue.names ++ ts.flatMap Turn.entered
  /-- All names that came up are written. -/
  written : w'.resolver.queue.written = w.resolver.queue.written ++ ts.map Turn.name
  /-- A turn enters names behind those that wait, and these keep their places. -/
  entered : ∀ t ∈ ts, t.finish.resolver.queue.names =
    t.start.resolver.queue.names ++ t.entered
  /-- What was to be registered in a turn is written, whether it was accepted or not. -/
  registered : ∀ t ∈ ts, ∀ cs, t.finish.resolver.queue = t.start.resolver.queue.registerAll cs →
    ∀ c ∈ cs, w'.resolver.queue.isWritten c.1.name = true
  /-- A declaration puts lines on the page. -/
  rendered : ∀ t ∈ ts, (t.finish.page on).lines = (t.start.page on).lines ++ t.lines on
  /-- These lines are put on the page turn by turn, an empty one behind each
  declaration, and no others. -/
  lines : (w'.page on).lines = (w.page on).lines ++ ts.flatMap fun t => t.lines on ++ [""]

/-- Every turn leads from an orderly state to the turns behind it. -/
theorem Turns.exists_of_mem (hrun : OnlyEnlarge run on P) {w v : Workshop ε}
    {ts : List (Turn ε)} (hts : Turns run on w ts v) (hw : IsOrderly P w.resolver.queue)
    {t : Turn ε} (ht : t ∈ ts) :
    ∃ u us, IsOrderly P t.start.resolver.queue ∧ IsTurn run on t.start t u ∧
      Turns run on u us v := by
  induction hts with
  | nil w => exact absurd ht List.not_mem_nil
  | @cons w u v s ts hs hts ih =>
    rcases List.mem_cons.mp ht with rfl | ht
    · rw [hs.start]
      exact ⟨u, ts, hw, hs, hts⟩
    · exact ih (hs.isOrderly hrun hw) ht

/-- A turn puts the lines of its declaration on the page. -/
theorem Turns.rendered (hrun : OnlyEnlarge run on P) {w v : Workshop ε} {ts : List (Turn ε)}
    (hts : Turns run on w ts v) (hw : IsOrderly P w.resolver.queue) {t : Turn ε} (ht : t ∈ ts) :
    (t.finish.page on).lines = (t.start.page on).lines ++ t.lines on := by
  obtain ⟨u, us, hs, hturn, -⟩ := hts.exists_of_mem hrun hw ht
  have hd := hs.scripts _ (List.mem_of_head? hturn.next)
  exact (List.prefix_iff_eq_append.mp (lines_writeDeclaration hrun hd hturn.written)).symm

theorem exists_stops (hrun : OnlyEnlarge run on P) (weight : ε → Nat) {w : Workshop ε}
    (hw : IsOrderly P w.resolver.queue) :
    ∃ ts v, Turns run on w ts v ∧ Stops run on v (exec (drain weight run on) w) := by
  obtain ⟨ts, v, hts, hend⟩ := turns_drain run on weight w
  refine ⟨ts, v, hts, ?_⟩
  rcases hend with hend | ⟨ho, -⟩
  · exact stops_of_ends hrun (hts.isOrderly hrun hw) hend
  · exact ho ▸ .exhausted

/-- **A drain that returns has drained the queue.** -/
theorem exists_drained (honly : OnlyRegister run on P) {weight : ε → Nat} {w w' : Workshop ε}
    (hw : IsOrderly P w.resolver.queue) (h : exec (drain weight run on) w = (.ok (), w')) :
    ∃ ts, Drained run on w ts w' := by
  have hrun := honly.onlyEnlarge
  obtain ⟨ts, v, hts, hstop⟩ := exists_stops hrun weight hw
  rw [h] at hstop
  cases hstop with
  | emptied hnames =>
    have horder := names_append_entered hrun hts hw
    rw [hnames, List.append_nil] at horder
    refine ⟨ts, hts, hnames, horder.symm, hts.written_eq hrun hw, ?_, ?_, ?_, hts.lines_eq hrun hw⟩
    · intro t ht
      obtain ⟨u, us, hs, hturn, -⟩ := hts.exists_of_mem hrun hw ht
      exact hturn.names_finish hrun hs
    · intro t ht cs hcs c hc
      obtain ⟨u, us, hs, hturn, hus⟩ := hts.exists_of_mem hrun hw ht
      -- known behind the turn, so known at the end, where no name waits
      have hk : t.finish.resolver.queue.isKnown c.1.name = true := by
        rw [hcs]
        exact isKnown_registerAll hc _
      have hu : u.resolver.queue.isKnown c.1.name = true := by
        rw [(exec_endTurn_eq_ok hturn.ended).2.1]
        exact Resolver.isKnown_retired hk
      have hv := hus.isKnown hrun (hturn.isOrderly hrun hs) hu
      rw [Queue.isKnown, Bool.or_eq_true, isWaiting_iff, hnames] at hv
      exact hv.resolve_left List.not_mem_nil
    · exact fun t ht => hts.rendered hrun hw ht

end

/-! ### Calls from outside -/

/-- Something that is done to the queue from outside. -/
inductive Call (ε : Type)
  | register (d : Declaration ε) (replace : Bool)
  /-- Withdraws what came after a position. -/
  | rollback (position : Int)
  /-- Writes the waiting declarations on a page. -/
  | drain (page : Page)

/-- The scripts that the call brings in pass the test. -/
def Call.Allows (P : ε → Prop) : Call ε → Prop
  | .register d _ => d.Allows P
  | _ => True

/-- The workshop with another shared page. -/
def onPage (w : Workshop ε) (page : Page) : Workshop ε := { w with shared := page }

section

variable (weight : ε → Nat) (run : ε → Working ε Unit)

/-- Carries out a call. -/
def call : Call ε → Working ε Unit
  | .register d replace => do
    let _ ← resolving (Resolver.enqueue d replace)
  | .rollback position => resolving do
    let r ← get
    let _ ← Resolver.withdraw (r.queue.position position)
  | .drain page => do
    modify fun w => w.onPage page
    drain weight run .shared

/-- Carries out calls one after the other, whether they fail or not. -/
def callAll : List (Call ε) → Workshop ε → Workshop ε
  | [], w => w
  | c :: cs, w => callAll cs (exec (call weight run c) w).2

/-- The turns are those that the call completes: only a drain takes turns. -/
def Call.Completes (w : Workshop ε) : Call ε → List (Turn ε) → Prop
  | .drain page, ts => ∃ v, Turns run .shared (w.onPage page) ts v ∧
      Stops run .shared v (exec (Workshop.drain weight run .shared) (w.onPage page))
  | _, ts => ts = []

/-- The turns are those that the calls complete. -/
def Completes : List (Call ε) → Workshop ε → List (Turn ε) → Prop
  | [], _, ts => ts = []
  | c :: cs, w, ts => ∃ now later, ts = now ++ later ∧ c.Completes weight run w now ∧
      Completes cs (exec (call weight run c) w).2 later

end

section

variable {P : ε → Prop} {run : ε → Working ε Unit} {weight : ε → Nat}
  (hrun : OnlyRegister run .shared P)

/-- Registering does to the queue what its name says. -/
theorem queue_call_register (d : Declaration ε) (replace : Bool) (w : Workshop ε) :
    (exec (call weight run (.register d replace)) w).2.resolver.queue =
      w.resolver.queue.register d replace := by
  rw [call, exec_bind_pure, exec_resolving]
  exact queue_enqueue d replace w.resolver

theorem queue_call_rollback (position : Int) (w : Workshop ε) :
    (exec (call weight run (.rollback position)) w).2.resolver.queue =
      w.resolver.queue.rollback (w.resolver.queue.position position) := by
  rw [call, exec_resolving, exec_bind_ok (exec_get _), exec_bind_pure]
  exact queue_withdraw _ w.resolver

theorem exec_call_drain (page : Page) (w : Workshop ε) :
    exec (call weight run (.drain page)) w =
      exec (drain weight run .shared) (w.onPage page) := by
  rw [call, exec_bind_ok (exec_modify _ w)]

include hrun

/-- A call leaves an orderly queue. -/
theorem isOrderly_call {c : Call ε} (hc : c.Allows P) {w : Workshop ε}
    (hw : IsOrderly P w.resolver.queue) :
    IsOrderly P (exec (call weight run c) w).2.resolver.queue := by
  cases c with
  | register d replace =>
    rw [queue_call_register]
    exact ⟨hw.sound.register d replace, hw.scripts.register hc replace⟩
  | rollback position =>
    rw [queue_call_rollback]
    exact ⟨hw.sound.rollback _, hw.scripts.rollback _⟩
  | drain page =>
    rw [exec_call_drain]
    obtain ⟨ts, v, hts, hstop⟩ := exists_stops hrun.onlyEnlarge weight (w := w.onPage page) hw
    have hv := hts.isOrderly hrun.onlyEnlarge (w := w.onPage page) hw
    exact (hstop.enlarges hrun.onlyEnlarge hv).orderly

/-- The names of the turns that a call completes are the names that it writes. -/
theorem Call.Completes.written {c : Call ε} {w : Workshop ε} {ts : List (Turn ε)}
    (h : c.Completes weight run w ts) (hw : IsOrderly P w.resolver.queue) :
    (exec (call weight run c) w).2.resolver.queue.written =
      w.resolver.queue.written ++ ts.map Turn.name := by
  cases c with
  | register d replace =>
    rw [show ts = [] from h, queue_call_register, written_register, List.map_nil, List.append_nil]
  | rollback position =>
    rw [show ts = [] from h, queue_call_rollback, written_rollback, List.map_nil,
      List.append_nil]
  | drain page =>
    obtain ⟨v, hts, hstop⟩ := h
    have hv := hts.isOrderly hrun.onlyEnlarge (w := w.onPage page) hw
    rw [exec_call_drain, (hstop.enlarges hrun.onlyEnlarge hv).written]
    exact hts.written_eq hrun.onlyEnlarge hw

theorem exists_call_completes (weight : ε → Nat) (c : Call ε) {w : Workshop ε}
    (hw : IsOrderly P w.resolver.queue) : ∃ ts, c.Completes weight run w ts := by
  cases c with
  | drain page =>
    obtain ⟨ts, v, hts, hstop⟩ := exists_stops hrun.onlyEnlarge weight (w := w.onPage page) hw
    exact ⟨ts, v, hts, hstop⟩
  | _ => exact ⟨[], rfl⟩

section

variable {cs : List (Call ε)} (hcs : ∀ c ∈ cs, c.Allows P) {w : Workshop ε}
  (hw : IsOrderly P w.resolver.queue)

include hcs hw

theorem isOrderly_callAll (weight : ε → Nat) :
    IsOrderly P (callAll weight run cs w).resolver.queue := by
  induction cs generalizing w with
  | nil => exact hw
  | cons c cs ih =>
    exact ih (fun d hd => hcs d (List.mem_cons_of_mem c hd))
      (isOrderly_call hrun (hcs c List.mem_cons_self) hw)

theorem exists_completes : ∃ ts, Completes weight run cs w ts := by
  induction cs generalizing w with
  | nil => exact ⟨[], rfl⟩
  | cons c cs ih =>
    obtain ⟨now, hnow⟩ := exists_call_completes hrun weight c hw
    obtain ⟨later, hlater⟩ := ih (fun d hd => hcs d (List.mem_cons_of_mem c hd))
      (isOrderly_call hrun (hcs c List.mem_cons_self) hw)
    exact ⟨now ++ later, now, later, rfl, hnow, hlater⟩

/-- The completed turns of all calls are of the names that are written in the end. -/
theorem Completes.written {ts : List (Turn ε)} (h : Completes weight run cs w ts) :
    (callAll weight run cs w).resolver.queue.written =
      w.resolver.queue.written ++ ts.map Turn.name := by
  induction cs generalizing w ts with
  | nil =>
    rw [show ts = [] from h, callAll, List.map_nil, List.append_nil]
  | cons c cs ih =>
    obtain ⟨now, later, rfl, hnow, hlater⟩ := h
    have hlater' := ih (fun d hd => hcs d (List.mem_cons_of_mem c hd))
      (isOrderly_call hrun (hcs c List.mem_cons_self) hw) hlater
    rw [callAll, hlater', hnow.written hrun hw, List.map_append, List.append_assoc]

end

/-- **Every name is written once, in the order of the queue.**  Whatever is registered,
rolled back and drained, no name has two completed turns, and a drain that returns has
drained the queue. -/
theorem each_name_written_once (weight : ε → Nat) (es : List Exclusion) (ds : Definitions)
    (calls : List (Call ε)) (hcalls : ∀ c ∈ calls, c.Allows P) :
    let w : Workshop ε := .ofResolver (.fresh es ds)
    (∃ ts, Completes weight run calls w ts) ∧
      (∀ ts, Completes weight run calls w ts → (ts.map Turn.name).Nodup) ∧
      ∀ before page after, calls = before ++ .drain page :: after → ∀ w',
        exec (drain weight run .shared) ((callAll weight run before w).onPage page) =
            (.ok (), w') →
          ∃ ts, Drained run .shared ((callAll weight run before w).onPage page) ts w' := by
  intro w
  have hw : IsOrderly P w.resolver.queue := isOrderly_empty
  refine ⟨exists_completes hrun hcalls hw, fun ts hts => ?_, ?_⟩
  · -- the names of the turns are the written names, and these are listed once
    have honce := (isOrderly_callAll hrun hcalls hw weight).sound.once
    rw [hts.written hrun hcalls hw] at honce
    exact (List.nodup_append.mp honce).2.1
  · intro before page after hsplit w' h
    have hbefore : ∀ c ∈ before, c.Allows P := fun c hc =>
      hcalls c (hsplit ▸ List.mem_append_left _ hc)
    exact exists_drained hrun (isOrderly_callAll hrun hbefore hw weight) h

end

/-- The calls before a second drain.  `A` is replaced while it is written and puts `C` in
the queue, behind `B`, at which the first drain fails; then `B` is replaced. -/
def failedDrain : List (Call Script) :=
  let script name ss := (⟨name, name, .null, none, .custom (some ss)⟩ : Declaration Script)
  [.register (script "A" [.line "a", .command (.registerScript "C" "C" .null [.line "c"] false),
      .command (.registerScript "A" "A" .null [] true)]) false,
    .register (script "B" [.line "b", .closeBlock "b"]) false,
    .drain (.blank (some "")), .register (script "B" []) true, .rollback 2]

theorem allows_failedDrain :
    ∀ c ∈ failedDrain, c.Allows fun s => allScript Command.isRegistering s = true := by
  intro c hc
  simp only [failedDrain, List.mem_cons, List.not_mem_nil, or_false] at hc
  rcases hc with rfl | rfl | rfl | rfl | rfl
  all_goals first | trivial | (rintro s ⟨⟩; rfl)

/-- The state behind these calls, with a new page. -/
def behindFailedDrain : Workshop Script :=
  (callAll scriptWeight (runScript perform .shared) failedDrain
    (.ofResolver (.fresh [] .empty))).onPage (.blank (some ""))

/-- A drain that fails and one behind it that returns. -/
theorem each_name_written_once_failedDrain :
    (∃ ts, Completes scriptWeight (runScript perform .shared)
        (failedDrain ++ [.drain (.blank (some ""))]) (.ofResolver (.fresh [] .empty)) ts ∧
      (ts.map Turn.name).Nodup) ∧
    ∃ w ts, exec (drain scriptWeight (runScript perform .shared) .shared) behindFailedDrain =
        (.ok (), w) ∧
      Drained (runScript perform .shared) .shared behindFailedDrain ts w ∧
        w.resolver.queue.written = ["A", "B", "C"] ∧ w.shared.lines = ["", "c", ""] := by
  have hcalls : ∀ c ∈ failedDrain ++ [.drain (.blank (some ""))],
      c.Allows fun s => allScript Command.isRegistering s = true := by
    intro c hc
    rcases List.mem_append.mp hc with hc | hc
    · exact allows_failedDrain c hc
    · rw [List.mem_singleton.mp hc]
      trivial
  obtain ⟨⟨ts, hts⟩, honce, hdrain⟩ := each_name_written_once
    (onlyRegister_runScript nestingLimit .shared) scriptWeight [] .empty _ hcalls
  have hout : (exec (drain scriptWeight (runScript perform .shared) .shared)
      behindFailedDrain).1.toOption = some () := by
    decide +kernel
  have hend : (exec (drain scriptWeight (runScript perform .shared) .shared)
        behindFailedDrain).2.resolver.queue.written = ["A", "B", "C"] ∧
      (exec (drain scriptWeight (runScript perform .shared) .shared)
        behindFailedDrain).2.shared.lines = ["", "c", ""] := by
    decide +kernel
  rcases hx : exec (drain scriptWeight (runScript perform .shared) .shared) behindFailedDrain
    with ⟨o, w⟩
  rw [hx] at hout hend
  have hok : o = .ok () := eq_ok_of_toOption hout
  subst hok
  obtain ⟨ts', hts'⟩ := hdrain failedDrain (.blank (some "")) [] rfl w hx
  exact ⟨⟨ts, hts, honce ts hts⟩, w, ts', rfl, hts', hend.1, hend.2⟩

end Workshop
end SchemaScript
