import SchemaScript.Proofs.Budget
import SchemaScript.Proofs.Rendering
import SchemaScript.Proofs.WrittenOnce

/-!
# Scripts that only write

A script without commands does nothing but write on its page.  While only such scripts
run, a drain takes the waiting names as they stand: the written names, and the waiting ones
behind them, stay the same list, of which a turn moves the border by one.

Seen from a name, the queue *goes on*: this list grows at its end only, the border moves
only to the end, and a declaration waits under the name until the name is written.

## Main definitions

* `isWriting`, `writeScript` — scripts without commands, and what they write.
* `Queue.GoesOn` — the queue, seen from a name.
* `Workshop.Renders` — a drain in which the turn of a name comes.

## Main results

* `exec_runScript_of_isWriting` — such a script is a piece of writing.
* `Turns.goesOn` — turns, one after the other.
* `exists_renders` — a drain by which a name is written.
-/

namespace SchemaScript

open Stateful

/-! ### What a script writes -/

/-- The script carries out no commands. -/
def isWriting (script : Script) : Bool := allScript (fun _ => false) script

/-- A declaration made by hand. -/
def Declaration.byHand {ε : Type} (name : String) (script : Option ε) : Declaration ε :=
  ⟨name, name, .null, none, .custom script⟩

/-- What an action writes. -/
def writeAction : Action → Writing Unit
  | .line text => Page.line text
  | .openBlock header => Page.openBlock header
  | .closeBlock footer => Page.closeBlock footer
  | .command _ => pure ()

/-- What a script writes, its commands left out. -/
def writeScript : Script → Writing Unit
  | [] => pure ()
  | a :: as => do
    writeAction a
    writeScript as

namespace Workshop

section

variable {ε α β : Type}

theorem withPage_page (w : Workshop ε) (on : Surface) : w.withPage (w.page on) on = w := by
  cases on <;> rfl

/-- Writing two things on a page is writing one after the other. -/
theorem exec_writing_bind (on : Surface) (m : Writing α) (f : α → Writing β) (w : Workshop ε) :
    exec (writing on (m >>= f)) w = exec (writing on m >>= fun a => writing on (f a)) w := by
  rw [exec_writing, exec_bind, exec_bind, exec_writing]
  rcases exec m (w.page on) with ⟨e | a, p⟩
  · rfl
  · dsimp only
    rw [exec_writing, page_withPage, withPage_withPage]

end

theorem act_of_isWriting (perform : Command → Working Script Answer) (on : Surface) {a : Action}
    (ha : allAction (fun _ => false) a = true) : act perform on a = writing on (writeAction a) := by
  cases a with
  | command c => exact absurd (Command.of_all ha) Bool.false_ne_true
  | _ => rfl

/-- **A script without commands is a piece of writing.** -/
theorem exec_runScript_of_isWriting (perform : Command → Working Script Answer) (on : Surface)
    {script : Script} (hs : isWriting script = true) (w : Workshop Script) :
    exec (runScript perform on script) w = exec (writing on (writeScript script)) w := by
  induction script generalizing w with
  | nil =>
    rw [writeScript, exec_writing, exec_pure]
    dsimp only
    rw [withPage_page]
    rfl
  | cons a as ih =>
    rw [isWriting, allScript, Bool.and_eq_true] at hs
    rw [runScript, act_of_isWriting perform on hs.1, writeScript, exec_writing_bind, exec_bind,
      exec_bind]
    rcases exec (writing on (writeAction a)) w with ⟨e | u, v⟩
    · rfl
    · exact ih hs.2 v

/-- It leaves the resolver alone. -/
theorem resolver_runScript_of_isWriting (perform : Command → Working Script Answer)
    (on : Surface) {script : Script} (hs : isWriting script = true) (w : Workshop Script) :
    (exec (runScript perform on script) w).2.resolver = w.resolver := by
  rw [exec_runScript_of_isWriting perform on hs, exec_writing, resolver_withPage]

theorem lines_writeAction (a : Action) (p : Page) :
    p.lines <+: (exec (writeAction a) p).2.lines := by
  cases a with
  | line text => exact Page.adds_line text p
  | openBlock header => exact Page.adds_openBlock header p
  | closeBlock footer => exact Page.adds_closeBlock footer p
  | command c => exact List.prefix_rfl

/-- A script only puts lines on the page, whether it fails or not. -/
theorem lines_writeScript (script : Script) (p : Page) :
    p.lines <+: (exec (writeScript script) p).2.lines := by
  induction script generalizing p with
  | nil => exact List.prefix_rfl
  | cons a as ih =>
    have ha := lines_writeAction a p
    rw [writeScript, exec_bind]
    rcases hx : exec (writeAction a) p with ⟨e | u, q⟩ <;> rw [hx] at ha
    · exact ha
    · exact ha.trans (ih q)

/-- The declaration has no script, or one without commands. -/
abbrev OnlyWrites (d : Declaration Script) : Prop := d.Allows fun s => isWriting s = true

/-- Scripts without commands leave the queue alone. -/
theorem onlyEnlarge_of_isWriting (perform : Command → Working Script Answer) (on : Surface) :
    OnlyEnlarge (runScript perform on) on fun s => isWriting s = true where
  queue := by
    intro s hs w hw
    rw [resolver_runScript_of_isWriting perform on hs]
    exact .refl hw
  lines := by
    intro s hs w w' h
    rw [exec_runScript_of_isWriting perform on hs] at h
    obtain ⟨p, hp, rfl⟩ := exec_writing_eq_ok h
    have hlines := lines_writeScript s (w.page on)
    rwa [hp, ← page_withPage w p on] at hlines

end Workshop

/-! ### Queues that go on -/

namespace Queue

variable {ε : Type}

/-- Seen from the name, the queue only goes on. -/
structure GoesOn (name : String) (q q' : Queue ε) : Prop where
  written : q.written <+: q'.written
  /-- Names are written in the order in which they wait, and new ones come behind them. -/
  order : q.written ++ q.names <+: q'.written ++ q'.names
  /-- What waits under the name waits there until the name is written. -/
  kept : ∀ d, q.waiting.find? name = some d → q'.isWritten name = false →
    q'.waiting.find? name = some d

variable {name : String} {q q' q'' : Queue ε}

theorem isWritten_iff : q.isWritten name = true ↔ name ∈ q.written := List.contains_iff_mem

theorem isWritten_eq_false_iff : q.isWritten name = false ↔ name ∉ q.written := by
  rw [← isWritten_iff, Bool.not_eq_true]

theorem not_isWritten_before (h : q.written <+: q'.written) (hn : q'.isWritten name = false) :
    q.isWritten name = false := by
  rw [isWritten_eq_false_iff] at hn ⊢
  exact fun hm => hn (h.subset hm)

theorem GoesOn.refl (name : String) (q : Queue ε) : GoesOn name q q :=
  ⟨List.prefix_rfl, List.prefix_rfl, fun _ h _ => h⟩

theorem GoesOn.trans (h : GoesOn name q q') (h' : GoesOn name q' q'') : GoesOn name q q'' where
  written := h.written.trans h'.written
  order := h.order.trans h'.order
  kept := fun d hd hn => h'.kept d (h.kept d hd (not_isWritten_before h'.written hn)) hn

/-- Entries behind those that wait. -/
theorem goesOn_of_prefix (name : String) (hw : q'.written = q.written)
    (he : q.waiting.entries <+: q'.waiting.entries) : GoesOn name q q' where
  written := hw ▸ List.prefix_rfl
  order := by
    rw [hw]
    exact (List.prefix_append_right_inj _).mpr (he.map _)
  kept := fun d hd _ => Table.find?_of_prefix he hd

/-- Registering a declaration of another name. -/
theorem goesOn_register {d : Declaration ε} (hd : d.name ≠ name) (q : Queue ε)
    (replace : Bool) : GoesOn name q (q.register d replace) where
  written := written_register q d replace ▸ List.prefix_rfl
  order := by
    rw [written_register]
    exact (List.prefix_append_right_inj _).mpr (names_prefix_register q d replace)
  kept := by
    intro d' hd' _
    cases ha : q.accepts d.name replace with
    | true => rwa [(admits_register ha).others name (Ne.symm hd)]
    | false => rwa [register_of_not_accepts ha]

/-- Marking the first name as written. -/
theorem goesOn_finish {first : String} {names : List String} (name : String) (hq : q.IsSound)
    (h : q.names = first :: names) : GoesOn name q (q.finish first) where
  written := by
    have hwait : q.isWaiting first = true := isWaiting_iff.mpr (h ▸ List.mem_cons_self)
    rw [written_finish (hq.disjoint first hwait)]
    exact List.prefix_append _ _
  order := by
    have hwait : q.isWaiting first = true := isWaiting_iff.mpr (h ▸ List.mem_cons_self)
    rw [written_finish (hq.disjoint first hwait), names_finish_of_cons h hq.nodup, h,
      List.append_assoc]
    exact List.prefix_rfl
  kept := by
    intro d hd hn
    rw [isWritten_finish, Bool.or_eq_false_iff, decide_eq_false_iff_not] at hn
    rwa [finish, Table.find?_erase, if_neg hn.1]

/-- A name that waits and is not written meanwhile has the same names around it. -/
theorem GoesOn.exists_names (h : GoesOn name q q') (hw : q.isWaiting name = true)
    (hn : q'.isWritten name = false) : ∃ done rest new, q.names = done ++ rest ∧
      q'.names = rest ++ new ∧ q'.written = q.written ++ done ∧ name ∈ rest := by
  obtain ⟨done, hdone⟩ := h.written
  obtain ⟨new, hnew⟩ := h.order
  have hlist : q.names ++ new = done ++ q'.names := by
    rw [← hdone, List.append_assoc, List.append_assoc] at hnew
    exact List.append_cancel_left hnew
  have hnot : name ∉ done := by
    intro hm
    rw [isWritten_eq_false_iff, ← hdone] at hn
    exact hn (List.mem_append_right _ hm)
  -- the name waits behind what was written meanwhile
  rcases List.append_eq_append_iff.mp hlist with ⟨more, hmore, -⟩ | ⟨rest, hrest, hq'⟩
  · exact absurd (hmore ▸ List.mem_append_left more (isWaiting_iff.mp hw)) hnot
  · refine ⟨done, rest, new, hrest, hq', hdone.symm, ?_⟩
    have hm := isWaiting_iff.mp hw
    rw [hrest] at hm
    exact (List.mem_append.mp hm).resolve_left hnot

end Queue

/-! ### Turns -/

namespace Workshop

open Queue

section

variable {perform : Command → Working Script Answer} {on : Surface}

variable (perform on) in
/-- Writing a declaration leaves the resolver alone. -/
theorem resolver_writeDeclaration {d : Declaration Script} (hd : OnlyWrites d)
    (w : Workshop Script) :
    (exec (writeDeclaration (runScript perform on) on d) w).2.resolver = w.resolver := by
  rw [writeDeclaration]
  cases hs : d.body.script? with
  | some s => exact resolver_runScript_of_isWriting perform on (hd s hs) w
  | none =>
    dsimp only
    rw [exec_writing, resolver_withPage]

variable {w u v : Workshop Script} {ts us : List (Turn Script)} {t : Turn Script}

/-- A turn comes to the declaration that waits first. -/
theorem IsTurn.find? {ε : Type} {run : ε → Working ε Unit} {w u : Workshop ε} {t : Turn ε}
    (ht : IsTurn run on w t u) :
    w.resolver.queue.waiting.find? t.name = some t.declaration := by
  obtain ⟨es, hes⟩ := List.head?_eq_some_iff.mp ht.next
  rw [Table.find?, hes, Entries.find?, if_pos rfl]

variable (hw : IsOrderly (fun s => isWriting s = true) w.resolver.queue)

include hw

theorem IsTurn.resolver_finish (ht : IsTurn (runScript perform on) on w t u) :
    t.finish.resolver = w.resolver := by
  have h := resolver_writeDeclaration perform on
    (hw.scripts _ (List.mem_of_head? ht.next)) w
  rwa [ht.written] at h

theorem IsTurn.goesOn (name : String) (ht : IsTurn (runScript perform on) on w t u) :
    GoesOn name w.resolver.queue u.resolver.queue := by
  obtain ⟨names, hnames⟩ := exists_names_of_next? ht.next
  rw [ht.queue, ht.resolver_finish hw]
  exact goesOn_finish name hw.sound hnames

/-- **Turns, one after the other.** -/
theorem Turns.goesOn (name : String) (hts : Turns (runScript perform on) on w ts v) :
    GoesOn name w.resolver.queue v.resolver.queue := by
  induction hts with
  | nil w => exact GoesOn.refl name _
  | cons ht hts ih =>
    have hu := ht.isOrderly (onlyEnlarge_of_isWriting perform on) hw
    exact (ht.goesOn hw name).trans (ih hu)

end

/-! ### The turn of a name -/

section

variable {run : Script → Working Script Unit} {on : Surface} {w v : Workshop Script}
  {us vs : List (Turn Script)} {t : Turn Script}

/-- The turns before one, that one, and the turns behind it. -/
theorem Turns.exists_split (h : Turns run on w (us ++ t :: vs) v) :
    Turns run on w us t.start ∧ ∃ u, IsTurn run on t.start t u ∧ Turns run on u vs v := by
  induction us generalizing w with
  | nil =>
    cases h with
    | cons ht hts =>
      rw [ht.start]
      exact ⟨.nil w, _, ht, hts⟩
  | cons s us ih =>
    cases h with
    | cons hs hts =>
      obtain ⟨hus, hrest⟩ := ih hts
      exact ⟨.cons hs hus, hrest⟩

end

/-- Among the turns is the one of the name.  What it writes is what the script writes, and
the other turns write declarations of other names. -/
structure Renders (perform : Command → Working Script Answer) (on : Surface) (name : String)
    (script : Script) (w : Workshop Script) (us : List (Turn Script)) (t : Turn Script)
    (vs : List (Turn Script)) (v : Workshop Script) : Prop where
  turns : Turns (runScript perform on) on w (us ++ t :: vs) v
  named : t.name = name
  declaration : t.declaration = .byHand name (some script)
  writes : exec (writeScript script) (t.start.page on) = (.ok (), t.finish.page on)
  others : ∀ s ∈ us ++ vs, s.name ≠ name ∧ s.declaration.name = s.name
  /-- The lines of the turns stand on the page in order, an empty one behind each. -/
  lines : (v.page on).lines = (w.page on).lines ++
    (us.flatMap (fun s => s.lines on ++ [""]) ++ (t.lines on ++ [""]) ++
      vs.flatMap fun s => s.lines on ++ [""])

section

variable {perform : Command → Working Script Answer} {on : Surface} {w v : Workshop Script}
  {ts : List (Turn Script)}

/-- **A declaration made by hand is written by its script**, if turns come to its name. -/
theorem exists_renders {name : String} {script : Option Script}
    (hw : IsOrderly (fun s => isWriting s = true) w.resolver.queue)
    (hts : Turns (runScript perform on) on w ts v)
    (hfind : w.resolver.queue.waiting.find? name = some (.byHand name script))
    (hbefore : w.resolver.queue.isWritten name = false)
    (hafter : v.resolver.queue.isWritten name = true) :
    ∃ s us t vs, script = some s ∧ Renders perform on name s w us t vs v := by
  have hrun := onlyEnlarge_of_isWriting perform on
  have hwritten := hts.written_eq hrun hw
  have hmem : name ∈ ts.map Turn.name := by
    rw [isWritten_iff, hwritten, List.mem_append] at hafter
    exact hafter.resolve_left (isWritten_eq_false_iff.mp hbefore)
  obtain ⟨t, ht, rfl⟩ := List.mem_map.mp hmem
  obtain ⟨us, vs, rfl⟩ := List.append_of_mem ht
  have honce : ((us ++ t :: vs).map Turn.name).Nodup := by
    have hnodup := (hts.isOrderly hrun hw).sound.once
    rw [hwritten, List.nodup_append] at hnodup
    exact hnodup.2.1
  have hother : ∀ s ∈ us ++ vs, s.name ≠ t.name := by
    rw [List.map_append, List.map_cons, List.nodup_middle, ← List.map_append, List.nodup_cons]
      at honce
    exact fun s hs hname => honce.1 (hname ▸ List.mem_map_of_mem hs)
  obtain ⟨hus, u, hturn, -⟩ := hts.exists_split
  -- up to its turn the name waits, so the turn comes to its declaration
  have hstart : t.start.resolver.queue.isWritten t.name = false := by
    rw [isWritten_eq_false_iff, hus.written_eq hrun hw, List.mem_append]
    rintro (hm | hm)
    · exact isWritten_eq_false_iff.mp hbefore hm
    · obtain ⟨s, hs, hname⟩ := List.mem_map.mp hm
      exact hother s (List.mem_append_left _ hs) hname
  have hdeclaration : t.declaration = .byHand t.name script := by
    have hkept := (hus.goesOn hw t.name).kept _ hfind hstart
    rw [hturn.find?] at hkept
    exact Option.some.inj hkept
  have hrun' := hturn.written
  rw [writeDeclaration, hdeclaration] at hrun'
  cases script with
  | none =>
    obtain ⟨p, hp, -⟩ := exec_writing_eq_ok hrun'
    cases hp
  | some s =>
    have hs : isWriting s = true := hw.scripts _ (Table.mem_of_find? hfind) s rfl
    have hexec : exec (writing on (writeScript s)) t.start = (.ok (), t.finish) := by
      rw [← exec_runScript_of_isWriting perform on hs]
      exact hrun'
    obtain ⟨p, hp, hfinish⟩ := exec_writing_eq_ok hexec
    refine ⟨s, us, t, vs, rfl, hts, rfl, hdeclaration, ?_, fun s hs => ⟨hother s hs, ?_⟩, ?_⟩
    · rw [hp, hfinish, page_withPage]
    · have hsmem : s ∈ us ++ t :: vs := by
        rw [List.mem_append] at hs
        exact List.mem_append.mpr (hs.imp_right (List.mem_cons_of_mem t))
      obtain ⟨_, _, hsound, hsturn, -⟩ := hts.exists_of_mem hrun hw hsmem
      exact hsound.sound.keyed _ (List.mem_of_head? hsturn.next)
    · rw [hts.lines_eq hrun hw, List.flatMap_append, List.flatMap_cons]
      simp only [List.append_assoc]

end

end Workshop
end SchemaScript
