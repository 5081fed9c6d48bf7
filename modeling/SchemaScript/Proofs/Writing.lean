import SchemaScript.Declaration.Source
import SchemaScript.Proofs.Emission.Outcome
import SchemaScript.Proofs.Table

/-!
# What writing leaves on a page

Writing a declaration puts lines behind those that are there and closes every block
that it opens.

## Main definitions

* `Page.Extends` — the same page with further lines.
* `Page.Keeps` — a writing that succeeds only puts lines on the page.
* `Page.Adds` — a writing does so whether it succeeds or not.
* `Page.IsComposed` — what holds of all writing that is put together from lines and blocks.
* `Declaration.writeAll` — declarations one after the other, an empty line after each.
* `Declaration.IsOn` — a declaration has its head and its place on a page.

## Main results

* `Declaration.write_ok` — one declaration.
* `Declaration.composed_writeAll`, `Declaration.isOn_writeAll` — all of them.
-/

namespace SchemaScript

open Stateful

namespace Page

variable {α β : Type}

/-- The page with further lines; no block was opened or closed for good. -/
structure Extends (p p' : Page) : Prop where
  indent : p'.indent = p.indent
  depth : p'.depth = p.depth
  lines : p.lines <+: p'.lines

theorem Extends.refl (p : Page) : Extends p p := ⟨rfl, rfl, List.prefix_rfl⟩

theorem Extends.trans {p p' p'' : Page} (h : Extends p p') (h' : Extends p' p'') :
    Extends p p'' :=
  ⟨h'.indent.trans h.indent, h'.depth.trans h.depth, h.lines.trans h'.lines⟩

/-- If the writing succeeds, it only put lines on the page. -/
def Keeps (m : Writing α) : Prop :=
  ∀ p a p', exec m p = (.ok a, p') → Extends p p'

/-! ### Putting together -/

theorem keeps_pure (a : α) : Keeps (pure a : Writing α) := by
  rintro p b p' ⟨⟩
  exact Extends.refl p

theorem Keeps.bind {m : Writing α} {f : α → Writing β} (hm : Keeps m)
    (hf : ∀ a, Keeps (f a)) : Keeps (m >>= f) := by
  intro p b p' h
  obtain ⟨a, q, ha, hb⟩ := exec_bind_eq_ok h
  exact (hm p a q ha).trans (hf a q b p' hb)

theorem lineFor_ok {p p' : Page} {text : String} {u : Unit}
    (h : exec (line text) p = (.ok u, p')) :
    ∃ l, p.lineFor text = .ok l ∧ p' = { p with lines := p.lines ++ [l] } := by
  rw [exec_line] at h
  cases hl : p.lineFor text with
  | error e => simp [hl] at h
  | ok l => exact ⟨l, rfl, by simpa [hl, eq_comm] using h⟩

theorem keeps_line (text : String) : Keeps (line text) := by
  intro p u p' h
  obtain ⟨l, -, rfl⟩ := lineFor_ok h
  exact ⟨rfl, rfl, List.prefix_append _ _⟩

/-- A block with writing in it that only puts lines on the page is such a writing too,
and its header stands on the page. -/
theorem block_ok {header footer : String} {m : Writing Unit} (hm : Keeps m) {p p' : Page}
    {u : Unit} (h : exec (do openBlock header; m; closeBlock footer) p = (.ok u, p')) :
    Extends p p' ∧ ∃ l ∈ p'.lines, p.lineFor (header ++ " \x7b") = .ok l := by
  obtain ⟨_, p₁, h₁, h⟩ := exec_bind_eq_ok h
  obtain ⟨_, p₀, h₀, h₁⟩ := exec_bind_eq_ok h₁
  -- the header is the line before the block
  obtain ⟨l, hl, rfl⟩ := lineFor_ok h₀
  cases h₁
  obtain ⟨_, p₂, h₂, h⟩ := exec_bind_eq_ok h
  have hin := hm _ _ _ h₂
  -- the block that is closed is the one that was opened
  have hdepth : p₂.depth = p.depth + 1 := hin.depth
  rw [closeBlock, exec_bind_ok (exec_get p₂), if_neg (by omega), hdepth,
    Nat.add_sub_cancel] at h
  obtain ⟨_, p₃, h₃, h⟩ := exec_bind_eq_ok h
  cases h₃
  have hout := keeps_line footer _ _ _ h
  have hlines : p.lines ++ [l] <+: p'.lines := hin.lines.trans hout.lines
  refine ⟨⟨hout.indent.trans hin.indent, hout.depth, (List.prefix_append _ _).trans hlines⟩,
    l, hlines.subset ?_, hl⟩
  exact List.mem_append_right _ (List.mem_singleton.mpr rfl)

/-- The predicate holds of lines and of failures that are not reported, and of what is put
together from writing that it holds of. -/
structure IsComposed (P : ∀ ⦃α : Type⦄, Writing α → Prop) : Prop where
  pure : ∀ {α : Type} (a : α), P (pure a : Writing α)
  throw : ∀ {α : Type} {e : Failure}, e.isReported = false → P (throw e : Writing α)
  bind : ∀ {α β : Type} {m : Writing α} {f : α → Writing β}, P m → (∀ a, P (f a)) → P (m >>= f)
  line : ∀ text, P (line text)
  block : ∀ {header footer : String} {m : Writing Unit}, P m →
    P (do openBlock header; m; closeBlock footer)

theorem isComposed_keeps : IsComposed @Keeps where
  pure := keeps_pure
  throw := by
    rintro _ _ _ p b p' ⟨⟩
  bind := Keeps.bind
  line := keeps_line
  block := fun hm _ _ _ h => (block_ok hm h).1

/-- Whether the writing fails or not, the lines on the page stay, with further ones behind. -/
def Adds (m : Writing α) : Prop := ∀ p, p.lines <+: (exec m p).2.lines

theorem adds_pure (a : α) : Adds (pure a : Writing α) := fun _ => List.prefix_rfl

theorem adds_throw (e : Failure) : Adds (throw e : Writing α) := fun _ => List.prefix_rfl

theorem Adds.bind {m : Writing α} {f : α → Writing β} (hm : Adds m) (hf : ∀ a, Adds (f a)) :
    Adds (m >>= f) := by
  intro p
  have h := hm p
  rw [exec_bind]
  rcases hx : exec m p with ⟨e | a, q⟩ <;> rw [hx] at h
  · exact h
  · exact h.trans (hf a q)

theorem adds_line (text : String) : Adds (line text) := by
  intro p
  rw [exec_line]
  split
  · exact List.prefix_append _ _
  · exact List.prefix_rfl

theorem adds_openBlock (header : String) : Adds (openBlock header) :=
  (adds_line _).bind fun _ _ => List.prefix_rfl

theorem adds_closeBlock (footer : String) : Adds (closeBlock footer) := by
  intro p
  rw [closeBlock, exec_bind_ok (exec_get p)]
  split
  · exact List.prefix_rfl
  · exact adds_line footer { p with depth := p.depth - 1 }

theorem isComposed_adds : IsComposed @Adds where
  pure := adds_pure
  throw := fun _ => adds_throw _
  bind := Adds.bind
  line := adds_line
  block := fun hm => (adds_openBlock _).bind fun _ => hm.bind fun _ => adds_closeBlock _

/-- A line on the page stands in its text. -/
theorem isInfix_text {p : Page} {l : String} (h : l ∈ p.lines) : l.toList <:+: p.text.toList := by
  rw [text, String.toList_join]
  have hm : (l ++ "\n").toList ∈ (p.lines.map (· ++ "\n")).map String.toList :=
    List.mem_map_of_mem (List.mem_map_of_mem h)
  exact (String.toList_append ▸ (List.prefix_append _ _).isInfix).trans
    (List.infix_of_mem_flatten hm)

/-- Outside of all blocks a line is written as it is. -/
theorem lineFor_eq_of_depth {p : Page} {text l : String} (hd : p.depth = 0)
    (h : p.lineFor text = .ok l) : l = text := by
  rw [lineFor] at h
  split at h
  · next ht => simpa [ht, eq_comm] using h
  · split at h
    · simpa [indented, hd, String.join, eq_comm] using h
    · cases h

end Page

open Page

namespace Comment

section

variable {P : ∀ ⦃α : Type⦄, Writing α → Prop} (hP : IsComposed P)

include hP

theorem composed_writeLines (ls : List String) : P (writeLines ls) := by
  induction ls with
  | nil => exact hP.pure ()
  | cons l ls ih => exact hP.bind (hP.line l) fun _ => ih

theorem composed_writeDescription (description : Json) (annotations : Table Json) :
    P (writeDescription description annotations) := by
  unfold writeDescription
  split
  · split
    · exact hP.bind (composed_writeLines hP _) fun _ => hP.pure _
    · exact hP.throw rfl
  · exact hP.pure _

theorem composed_describe (fqn : String) (description : Json) (annotations : Table Json) :
    P (describe fqn description annotations) := by
  refine hP.bind (hP.line _) fun _ => ?_
  refine hP.bind (composed_writeDescription hP description annotations) fun _ => ?_
  exact hP.bind (composed_writeLines hP _) fun _ => hP.line _

end

/-- Outside of all blocks the lines are written as they are. -/
theorem writeLines_ok {ls : List String} {p p' : Page} {u : Unit} (hd : p.depth = 0)
    (h : exec (writeLines ls) p = (.ok u, p')) : p' = { p with lines := p.lines ++ ls } := by
  induction ls generalizing p with
  | nil =>
    cases h
    simp
  | cons l ls ih =>
    obtain ⟨_, q, hq, hrest⟩ := exec_bind_eq_ok h
    obtain ⟨l', hl', rfl⟩ := lineFor_ok hq
    obtain rfl := lineFor_eq_of_depth hd hl'
    rw [ih (p := { p with lines := p.lines ++ [l'] }) hd hrest]
    simp

theorem mem_writeLines {ls : List String} {p p' : Page} {u : Unit} (hd : p.depth = 0)
    (h : exec (writeLines ls) p = (.ok u, p')) {l : String} (hl : l ∈ ls) : l ∈ p'.lines := by
  rw [writeLines_ok hd h]
  exact List.mem_append_right _ hl

/-- The line of a comment that tells the place in the schema. -/
def placeLine (fqn : String) : String := annotationLine "schema" (.str (escape fqn))

/-- A comment tells the place. -/
theorem place_mem_describe {fqn : String} {description : Json} {annotations : Table Json}
    {p p' : Page} {u : Unit} (hd : p.depth = 0)
    (h : exec (describe fqn description annotations) p = (.ok u, p')) :
    placeLine fqn ∈ p'.lines := by
  obtain ⟨_, p₁, h₁, h⟩ := exec_bind_eq_ok h
  obtain ⟨found, p₂, h₂, h⟩ := exec_bind_eq_ok h
  obtain ⟨_, p₃, h₃, h⟩ := exec_bind_eq_ok h
  have hdepth : p₂.depth = 0 :=
    ((composed_writeDescription isComposed_keeps description annotations _ _ _ h₂).depth.trans
      (keeps_line _ _ _ _ h₁).depth).trans hd
  refine (keeps_line _ _ _ _ h).lines.subset (mem_writeLines hdepth h₃ ?_)
  have hentry : ("schema", Json.str (escape fqn)) ∈
      (found.insert "schema" (.str (escape fqn))).entries :=
    Table.mem_of_find? (by rw [Table.find?_insert, if_pos rfl])
  exact List.mem_map.mpr ⟨_, hentry, rfl⟩

end Comment

namespace Declaration

variable {ε : Type}

/-! ### The parts -/

section

variable {P : ∀ ⦃α : Type⦄, Writing α → Prop} (hP : IsComposed P)

include hP

theorem composed_writeFields (fs : List Field) : P (writeFields fs) := by
  induction fs with
  | nil => exact hP.pure ()
  | cons f fs ih =>
    refine hP.bind (Comment.composed_describe hP _ _ _) fun _ => ?_
    exact hP.bind (hP.line _) fun _ => hP.bind (hP.line _) fun _ => ih

theorem composed_writeMembers (ms : List Member) : P (writeMembers ms) := by
  induction ms with
  | nil => exact hP.pure ()
  | cons m ms ih => exact hP.bind (hP.line _) fun _ => hP.bind (hP.line _) fun _ => ih

theorem composed_writeOptions (name : String) (options : List String) :
    P (writeOptions name options) := by
  induction options with
  | nil => exact hP.pure ()
  | cons option options ih =>
    have hblock : P (do
        openBlock
          ("public static " ++ factoryName option ++ "(value: " ++ option ++ "): " ++ name)
        line ("return new " ++ name ++ "(value);")
        closeBlock usualFooter) := hP.block (hP.line _)
    have hrest := hP.bind hblock fun _ => ih
    simp only [bind_assoc] at hrest
    rw [writeOptions]
    split
    · -- an option of an unknown type ends the writing
      exact hP.bind (hP.throw rfl) fun _ => hrest
    · exact hrest

theorem composed_writeConstructor : P writeConstructor := hP.block (hP.line _)

theorem composed_writeBlock (d : Declaration ε) (word : String) {parts : Writing Unit}
    (hparts : P parts) : P (d.writeBlock word parts) :=
  hP.bind (Comment.composed_describe hP _ _ _) fun _ => hP.block hparts

theorem composed_write (d : Declaration ε) : P d.write := by
  unfold write
  split
  · exact composed_writeBlock hP d _ (composed_writeFields hP _)
  · exact composed_writeBlock hP d _ (composed_writeMembers hP _)
  · refine composed_writeBlock hP d _ (hP.bind (composed_writeOptions hP _ _) fun _ => ?_)
    exact composed_writeConstructor hP
  · exact hP.throw rfl
  · exact hP.throw rfl

end

/-! ### Declarations -/

/-- The head of a declaration. -/
def headLine (word name : String) : String := "export " ++ word ++ " " ++ name ++ " \x7b"

theorem writeBlock_ok {d : Declaration ε} {word : String} {parts : Writing Unit}
    (hparts : Keeps parts) {p p' : Page} {u : Unit}
    (h : exec (d.writeBlock word parts) p = (.ok u, p')) :
    p.Extends p' ∧ (p.depth = 0 → headLine word d.name ∈ p'.lines ∧
      Comment.placeLine d.fqn ∈ p'.lines) := by
  obtain ⟨_, q, hq, h⟩ := exec_bind_eq_ok h
  have hc := Comment.composed_describe isComposed_keeps _ _ _ _ _ _ hq
  obtain ⟨hb, l, hm, hl⟩ := block_ok hparts h
  refine ⟨hc.trans hb, ?_⟩
  intro hd
  refine ⟨?_, hb.lines.subset (Comment.place_mem_describe hd hq)⟩
  rw [headLine, ← lineFor_eq_of_depth (hc.depth.trans hd) hl]
  exact hm

/-- The head of the declaration and its place stand on the page. -/
def IsOn (d : Declaration ε) (p : Page) : Prop :=
  (∃ word, headLine word d.name ∈ p.lines) ∧ Comment.placeLine d.fqn ∈ p.lines

/-- What is on a page stays there. -/
theorem IsOn.extends {d : Declaration ε} {p p' : Page} (h : d.IsOn p) (hp : p.Extends p') :
    d.IsOn p' := by
  obtain ⟨⟨word, hhead⟩, hplace⟩ := h
  exact ⟨⟨word, hp.lines.subset hhead⟩, hp.lines.subset hplace⟩

/-- A declaration that was written is on the page. -/
theorem write_ok {d : Declaration ε} {p p' : Page} {u : Unit}
    (h : exec d.write p = (.ok u, p')) :
    p.Extends p' ∧ (p.depth = 0 → d.IsOn p') := by
  unfold write at h
  cases hb : d.body with
  | struct fields =>
    rw [hb] at h
    obtain ⟨he, hm⟩ := writeBlock_ok (composed_writeFields isComposed_keeps fields) h
    exact ⟨he, fun hd => ⟨⟨_, (hm hd).1⟩, (hm hd).2⟩⟩
  | enum members =>
    rw [hb] at h
    obtain ⟨he, hm⟩ := writeBlock_ok (composed_writeMembers isComposed_keeps members) h
    exact ⟨he, fun hd => ⟨⟨_, (hm hd).1⟩, (hm hd).2⟩⟩
  | union options =>
    rw [hb] at h
    have hparts : Keeps (do writeOptions d.name options; writeConstructor) :=
      Keeps.bind (composed_writeOptions isComposed_keeps _ _) fun _ =>
        composed_writeConstructor isComposed_keeps
    obtain ⟨he, hm⟩ := writeBlock_ok hparts h
    exact ⟨he, fun hd => ⟨⟨_, (hm hd).1⟩, (hm hd).2⟩⟩
  | custom script =>
    rw [hb] at h
    cases h
  | bare =>
    rw [hb] at h
    cases h

/-- Writes declarations one after the other, an empty line after each. -/
def writeAll : List (Declaration ε) → Writing Unit
  | [] => pure ()
  | d :: ds => do
    d.write
    Page.line ""
    writeAll ds

theorem composed_writeAll {P : ∀ ⦃α : Type⦄, Writing α → Prop} (hP : IsComposed P)
    (ds : List (Declaration ε)) : P (writeAll ds) := by
  induction ds with
  | nil => exact hP.pure ()
  | cons d ds ih =>
    exact hP.bind (composed_write hP d) fun _ => hP.bind (hP.line _) fun _ => ih

/-- **Every declaration written outside of all blocks is on the page.** -/
theorem isOn_writeAll {ds : List (Declaration ε)} {p p' : Page} {u : Unit}
    (hdepth : p.depth = 0) (h : exec (writeAll ds) p = (.ok u, p')) {d : Declaration ε}
    (hd : d ∈ ds) : d.IsOn p' := by
  induction ds generalizing p with
  | nil => exact absurd hd List.not_mem_nil
  | cons c ds ih =>
    obtain ⟨_, p₁, h₁, h⟩ := exec_bind_eq_ok h
    obtain ⟨_, p₂, h₂, h⟩ := exec_bind_eq_ok h
    obtain ⟨hw, hon⟩ := write_ok h₁
    have hl := keeps_line "" _ _ _ h₂
    rcases List.mem_cons.mp hd with hd | hd
    · exact hd ▸ (hon hdepth).extends (hl.trans (composed_writeAll isComposed_keeps ds _ _ _ h))
    · exact ih ((hl.depth.trans hw.depth).trans hdepth) h hd

end Declaration
end SchemaScript
