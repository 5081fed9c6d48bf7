import SchemaScript.Proofs.Emission.Building
import SchemaScript.Proofs.Writing

/-!
# Writing that does not fail

With a text to indent by, a declaration without a script can be written if its descriptions
are texts or absent and every option of a union has a name.  The lines that it becomes do
not depend on those on the page, and in open blocks they are the same lines further
indented.  So a declaration is the same wherever it is written, and what is written in
pieces and what is written at once is the same text.

## Main definitions

* `Page.deepened` — a line in further open blocks.
* `Page.Shifts` — a writing that puts the same lines on every page, indented as it asks.
* `Page.Appends` — the same, for pages of one depth.
* `Declaration.IsWritable` — a declaration that can be written.
* `Declaration.textOf` — the text of declarations written one after the other.

## Main results

* `Declaration.shifts_write`, `Declaration.shifts_writeAll` — what can be written.
* `Declaration.write_anywhere` — a declaration on a blank page and on any other one.
* `Declaration.textOf_append` — texts in pieces.
* `Resolver.isWritable_emit` — what emissions build can be written.
-/

namespace SchemaScript

open Stateful

/-- The value is a text or `null`. -/
def Json.isTextOrNull : Json → Bool
  | .null => true
  | .str _ => true
  | _ => false

/-- The description of the schema is a text, `null` or absent. -/
def Schema.HasText (schema : Json) : Prop := (schema.get "description").isTextOrNull = true

namespace Page

variable {α β : Type}

/-! ### Depth -/

/-- A line in further open blocks.  An empty line stays empty. -/
def deepened (indent : String) (depth : Nat) (l : String) : String :=
  if l = "" then "" else indented indent depth l

@[simp] theorem deepened_empty (indent : String) (depth : Nat) : deepened indent depth "" = "" :=
  rfl

@[simp] theorem deepened_zero (indent l : String) : deepened indent 0 l = l := by
  by_cases h : l = "" <;> simp [deepened, indented, h, String.join]

theorem indented_indented (indent l : String) (m n : Nat) :
    indented indent m (indented indent n l) = indented indent (m + n) l := by
  simp only [indented, ← String.append_assoc, ← String.join_append, List.replicate_append_replicate]

theorem indented_ne_empty {l : String} (h : l ≠ "") (indent : String) (depth : Nat) :
    indented indent depth l ≠ "" := by
  simp [indented, h]

/-- Depths add up. -/
theorem deepened_deepened (indent l : String) (m n : Nat) :
    deepened indent m (deepened indent n l) = deepened indent (m + n) l := by
  by_cases h : l = ""
  · simp [h]
  · simp only [deepened, if_neg h, if_neg (indented_ne_empty h indent n), indented_indented]

/-- With a text to indent by, every text can be written as a line. -/
theorem exec_line_deepened (indent : String) (lines : List String) (depth : Nat) (text : String) :
    exec (line text) ⟨some indent, lines, depth⟩ =
      (.ok (), ⟨some indent, lines ++ [deepened indent depth text], depth⟩) := by
  rw [exec_line]
  by_cases h : text = "" <;> simp [lineFor, deepened, h]

/-! ### Writing that can be moved -/

/-- With a text to indent by, the writing succeeds and puts lines on the page that do not
depend on the ones there. -/
def Appends (m : Writing α) : Prop :=
  ∀ indent depth, ∃ a ls, ∀ lines,
    exec m ⟨some indent, lines, depth⟩ = (.ok a, ⟨some indent, lines ++ ls, depth⟩)

/-- With a text to indent by, the writing succeeds and puts the same lines on every page, in
further open blocks further indented, and closes the blocks that it opens. -/
def Shifts (m : Writing α) : Prop :=
  ∀ indent, ∃ (a : α) (ls : List String), ∀ lines depth, exec m ⟨some indent, lines, depth⟩ =
    (.ok a, ⟨some indent, lines ++ ls.map (deepened indent depth), depth⟩)

theorem Shifts.appends {m : Writing α} (h : Shifts m) : Appends m := by
  intro indent depth
  obtain ⟨a, ls, hm⟩ := h indent
  exact ⟨a, ls.map (deepened indent depth), fun lines => hm lines depth⟩

theorem shifts_pure (a : α) : Shifts (pure a : Writing α) :=
  fun _ => ⟨a, [], fun _ _ => by rw [List.map_nil, List.append_nil, exec_pure]⟩

theorem Shifts.bind {m : Writing α} {f : α → Writing β} (hm : Shifts m)
    (hf : ∀ a, Shifts (f a)) : Shifts (m >>= f) := by
  intro indent
  obtain ⟨a, ls, ha⟩ := hm indent
  obtain ⟨b, ls', hb⟩ := hf a indent
  refine ⟨b, ls ++ ls', fun lines depth => ?_⟩
  rw [exec_bind_ok (ha lines depth), hb, List.map_append, List.append_assoc]

theorem shifts_line (text : String) : Shifts (line text) := by
  intro indent
  exact ⟨(), [text], fun lines depth => exec_line_deepened indent lines depth text⟩

/-- **A block around writing that can be moved**: the lines in it stand one block further in
than its head and its foot. -/
theorem shifts_block {header footer : String} {m : Writing Unit} (hm : Shifts m) :
    Shifts (do openBlock header; m; closeBlock footer) := by
  intro indent
  obtain ⟨_, ls, hin⟩ := hm indent
  refine ⟨(), (header ++ " \x7b") :: ls.map (deepened indent 1) ++ [footer],
    fun lines depth => ?_⟩
  have hopen : exec (openBlock header) ⟨some indent, lines, depth⟩ = (.ok (),
      ⟨some indent, lines ++ [deepened indent depth (header ++ " \x7b")], depth + 1⟩) := by
    rw [openBlock, exec_bind_ok (exec_line_deepened _ _ _ _), exec_modify]
  have hclose : ∀ lines, exec (closeBlock footer) ⟨some indent, lines, depth + 1⟩ =
      (.ok (), ⟨some indent, lines ++ [deepened indent depth footer], depth⟩) := by
    intro lines
    rw [closeBlock, exec_bind_ok (exec_get _), if_neg (Nat.succ_ne_zero depth)]
    exact (exec_bind_ok (exec_set _ _)).trans (exec_line_deepened indent lines depth footer)
  have hdeep : (ls.map (deepened indent 1)).map (deepened indent depth) =
      ls.map (deepened indent (depth + 1)) := by
    rw [List.map_map]
    exact List.map_congr_left fun l _ => deepened_deepened indent l depth 1
  rw [exec_bind_ok hopen, exec_bind_ok (hin _ _), hclose, List.map_append, List.map_cons, hdeep]
  simp

end Page

open Page

namespace Comment

theorem shifts_writeLines (ls : List String) : Shifts (writeLines ls) := by
  induction ls with
  | nil => exact shifts_pure ()
  | cons l ls ih => exact (shifts_line l).bind fun _ => ih

theorem shifts_writeDescription {description : Json} (h : description.isTextOrNull = true)
    (annotations : Table Json) : Shifts (writeDescription description annotations) := by
  cases description with
  | null => exact shifts_pure annotations
  | str text =>
    unfold writeDescription
    split
    · exact (shifts_writeLines _).bind fun _ => shifts_pure _
    · exact shifts_pure annotations
  | _ => cases h

theorem shifts_describe (fqn : String) {description : Json}
    (h : description.isTextOrNull = true) (annotations : Table Json) :
    Shifts (describe fqn description annotations) :=
  (shifts_line _).bind fun _ => (shifts_writeDescription h annotations).bind fun _ =>
    (shifts_writeLines _).bind fun _ => shifts_line _

end Comment

namespace Declaration

variable {ε : Type}

/-! ### Declarations that can be written -/

/-- The descriptions are texts or absent, the options of a union have names, and nothing is
left to a script. -/
def IsWritable (d : Declaration ε) : Prop :=
  d.description.isTextOrNull = true ∧
    match d.body with
    | .struct fields => ∀ f ∈ fields, f.description.isTextOrNull = true
    | .enum _ => True
    | .union options => "" ∉ options
    | .custom _ => False
    | .bare => False

/-- Nothing is left to a script. -/
theorem IsWritable.script?_eq_none {d : Declaration ε} (h : d.IsWritable) :
    d.body.script? = none := by
  obtain ⟨-, h⟩ := h
  cases hb : d.body with
  | custom script =>
    rw [hb] at h
    exact h.elim
  | _ => rfl

theorem shifts_writeFields {fs : List Field}
    (h : ∀ f ∈ fs, f.description.isTextOrNull = true) : Shifts (writeFields fs) := by
  induction fs with
  | nil => exact shifts_pure ()
  | cons f fs ih =>
    have hf := h f List.mem_cons_self
    exact (Comment.shifts_describe _ hf _).bind fun _ => (shifts_line _).bind fun _ =>
      (shifts_line _).bind fun _ => ih fun g hg => h g (List.mem_cons_of_mem f hg)

theorem shifts_writeMembers (ms : List Member) : Shifts (writeMembers ms) := by
  induction ms with
  | nil => exact shifts_pure ()
  | cons m ms ih => exact (shifts_line _).bind fun _ => (shifts_line _).bind fun _ => ih

theorem shifts_writeOptions (name : String) {options : List String} (h : "" ∉ options) :
    Shifts (writeOptions name options) := by
  induction options with
  | nil => exact shifts_pure ()
  | cons option options ih =>
    rw [List.mem_cons, not_or] at h
    have hb : Shifts (do
        openBlock
          ("public static " ++ factoryName option ++ "(value: " ++ option ++ "): " ++ name)
        line ("return new " ++ name ++ "(value);")
        closeBlock usualFooter) := shifts_block (shifts_line _)
    rw [writeOptions, if_neg (Ne.symm h.1)]
    simpa only [bind_assoc, pure_bind] using hb.bind fun _ => ih h.2

theorem shifts_writeBlock {d : Declaration ε} (hd : d.description.isTextOrNull = true)
    (word : String) {parts : Writing Unit} (hparts : Shifts parts) :
    Shifts (d.writeBlock word parts) :=
  (Comment.shifts_describe _ hd _).bind fun _ => shifts_block hparts

/-- **What can be written puts the same lines on every page.** -/
theorem shifts_write {d : Declaration ε} (h : d.IsWritable) : Shifts d.write := by
  obtain ⟨hd, hparts⟩ := h
  unfold write
  cases hb : d.body with
  | struct fields =>
    rw [hb] at hparts
    exact shifts_writeBlock hd _ (shifts_writeFields hparts)
  | enum members => exact shifts_writeBlock hd _ (shifts_writeMembers members)
  | union options =>
    rw [hb] at hparts
    exact shifts_writeBlock hd _ ((shifts_writeOptions d.name hparts).bind fun _ =>
      shifts_block (shifts_line _))
  | custom script =>
    rw [hb] at hparts
    exact hparts.elim
  | bare =>
    rw [hb] at hparts
    exact hparts.elim

theorem shifts_writeAll {ds : List (Declaration ε)} (h : ∀ d ∈ ds, d.IsWritable) :
    Shifts (writeAll ds) := by
  induction ds with
  | nil => exact shifts_pure ()
  | cons d ds ih =>
    exact (shifts_write (h d List.mem_cons_self)).bind fun _ => (shifts_line "").bind fun _ =>
      ih fun c hc => h c (List.mem_cons_of_mem d hc)

/-- **Writing is balanced and does not depend on where it is done.**  On a blank page a
declaration that can be written becomes lines, outside of all blocks as before.  On any page
with the same indentation, with any lines and in any number of open blocks, it becomes these
lines, each but the empty ones indented by the open blocks, behind the lines that are there;
the lines there and the number of open blocks stay. -/
theorem write_anywhere {d : Declaration ε} (h : d.IsWritable) (indent : String) :
    ∃ ls, exec d.write (.blank (some indent)) = (.ok (), ⟨some indent, ls, 0⟩) ∧
      ∀ lines depth, exec d.write ⟨some indent, lines, depth⟩ =
        (.ok (), ⟨some indent, lines ++ ls.map (deepened indent depth), depth⟩) := by
  obtain ⟨_, ls, hls⟩ := shifts_write h indent
  have hblank : ls.map (deepened indent 0) = ls :=
    (List.map_congr_left fun l _ => deepened_zero indent l).trans (List.map_id' ls)
  refine ⟨ls, ?_, hls⟩
  rw [blank, hls, hblank, List.nil_append]

/-- An interface, an enum and a union, in two open blocks behind a line. -/
theorem write_anywhere_parcelTypes :
    let price : Declaration Empty := ⟨"Price", "a.Price", .str "In cents.", none, .union ["number"]⟩
    let size : Declaration Empty := ⟨"Size", "a.Size", .null, none, .enum [⟨"S", "*/"⟩]⟩
    let parcel : Declaration Empty := ⟨"Parcel", "a.Parcel", .str "", none,
      .struct [⟨"size", "size", .array (.named "Size"), true, "a.Parcel#size", .str "One\n\ntwo"⟩]⟩
    (∀ d ∈ [price, size, parcel], d.IsWritable ∧
      ∃ ls, exec d.write (.blank (some " ")) = (.ok (), ⟨some " ", ls, 0⟩) ∧
        exec d.write ⟨some " ", ["outer"], 2⟩ =
          (.ok (), ⟨some " ", "outer" :: ls.map (deepened " " 2), 2⟩)) ∧
    (exec parcel.write ⟨some " ", ["outer"], 2⟩).2.lines =
      ["outer", "  /**", "   * @schema a.Parcel", "   */", "  export interface Parcel \x7b",
        "   /**", "    * One", "    *", "    * two", "    *", "    * @schema a.Parcel#size",
        "    */", "   readonly size?: Size[];", "", "  \x7d"] := by
  intro price size parcel
  refine ⟨fun d hd => ?_, by decide +kernel⟩
  have hw : d.IsWritable := by
    simp only [List.mem_cons, List.not_mem_nil, or_false] at hd
    rcases hd with rfl | rfl | rfl
    · exact ⟨rfl, by decide⟩
    · exact ⟨rfl, trivial⟩
    · refine ⟨rfl, fun f hf => ?_⟩
      rw [List.mem_singleton.mp hf]
      rfl
  obtain ⟨ls, hblank, hpage⟩ := write_anywhere hw " "
  exact ⟨hw, ls, hblank, hpage ["outer"] 2⟩

/-! ### Texts in pieces -/

/-- Writes the one list behind the other. -/
theorem exec_writeAll_append (ds ds' : List (Declaration ε)) (p : Page) :
    exec (writeAll (ds ++ ds')) p = exec (writeAll ds >>= fun _ => writeAll ds') p := by
  induction ds generalizing p with
  | nil => rfl
  | cons d ds ih =>
    simp only [List.cons_append, writeAll, bind_assoc]
    simp only [exec_bind] at ih ⊢
    rcases exec d.write p with ⟨e | u, p₁⟩
    · rfl
    · dsimp only
      rcases exec (line "") p₁ with ⟨e | u', p₂⟩
      · rfl
      · exact ih p₂

/-- The text of declarations written one after the other on a page of their own. -/
def textOf (indent : String) (ds : List (Declaration ε)) : String :=
  (exec (writeAll ds) (.blank (some indent))).2.text

/-- Writing declarations that can be written succeeds and gives their text. -/
theorem exec_writeAll_blank {ds : List (Declaration ε)} (h : ∀ d ∈ ds, d.IsWritable)
    (indent : String) :
    ∃ p, exec (writeAll ds) (.blank (some indent)) = (.ok (), p) ∧ p.text = textOf indent ds := by
  obtain ⟨_, ls, hls⟩ := (shifts_writeAll h).appends indent 0
  refine ⟨_, hls [], ?_⟩
  rw [textOf, show exec (writeAll ds) (.blank (some indent)) = _ from hls []]

/-- **Texts in pieces, one behind the other, are the text of the whole.** -/
theorem textOf_append {ds ds' : List (Declaration ε)} (h : ∀ d ∈ ds, d.IsWritable)
    (h' : ∀ d ∈ ds', d.IsWritable) (indent : String) :
    textOf indent (ds ++ ds') = textOf indent ds ++ textOf indent ds' := by
  obtain ⟨_, ls, hls⟩ := (shifts_writeAll h).appends indent 0
  obtain ⟨_, ls', hls'⟩ := (shifts_writeAll h').appends indent 0
  rw [textOf, textOf, textOf, exec_writeAll_append, Page.blank, exec_bind_ok (hls []), hls,
    hls', hls']
  simp [Page.text, String.join_append]

@[simp] theorem textOf_nil (indent : String) :
    textOf indent ([] : List (Declaration ε)) = "" := rfl

end Declaration

/-! ### What emissions build -/

namespace Resolver

/-- The values of a list without repetitions stand in the list. -/
theorem mem_of_mem_distinct {seen ss : List String} {s : String} (h : s ∈ distinct seen ss) :
    s ∈ ss := by
  induction ss generalizing seen with
  | nil => exact absurd h List.not_mem_nil
  | cons t ss ih =>
    rw [distinct] at h
    split at h
    · exact List.mem_cons_of_mem t (ih h)
    · rcases List.mem_cons.mp h with rfl | h
      · exact List.mem_cons_self
      · exact List.mem_cons_of_mem t (ih h)

/-- The primitive type of a branch has a name. -/
theorem optionType_ne_empty {option : Json} (h : Schema.isPrimitive option = true) :
    optionType option ≠ some "" := by
  unfold Schema.isPrimitive at h
  unfold optionType
  cases ht : option.get "type" with
  | str t =>
    rw [ht] at h
    intro heq
    split at heq
    · exact absurd (Option.some.inj heq) (by decide)
    · next heqt =>
      rw [Json.str.inj heqt, Option.some.inj heq] at h
      exact absurd h (by decide)
    · cases heq
  | _ =>
    rw [ht] at h
    cases h

theorem empty_notMem_optionTypes {schema : Json} (hk : Schema.classify schema = .ok .union) :
    "" ∉ optionTypes schema := by
  unfold optionTypes
  cases ho : Schema.unionOptions schema with
  | arr options =>
    have hu := Schema.isPrimitiveUnion_of_classify hk
    rw [Schema.isPrimitiveUnion, ho] at hu
    have hall : options.all Schema.isPrimitive = true :=
      ((Bool.and_eq_true _ _).mp (Except.ok.inj hu)).2
    intro hm
    obtain ⟨option, hmem, htype⟩ := List.mem_filterMap.mp (mem_of_mem_distinct hm)
    exact optionType_ne_empty (List.all_eq_true.mp hall option hmem) htype
  | _ => exact List.not_mem_nil

variable {ε : Type}

/-- **What emissions build can be written**, if the descriptions of the schemas are texts
or absent. -/
theorem Builds.isWritable {T : Site → TypeExpr → Prop} {e : String × Declaration ε}
    (h : Builds T Schema.HasText e) : e.2.IsWritable := by
  obtain ⟨name, d⟩ := e
  obtain ⟨s, hs, -, hd⟩ := h
  dsimp only at hd ⊢
  cases hd with
  | union hk => exact ⟨hs.here, empty_notMem_optionTypes hk⟩
  | enum hk hms => exact ⟨hs.here, trivial⟩
  | struct hk hfs =>
    refine ⟨hs.here, fun f hf => ?_⟩
    obtain ⟨p, hp, t, rfl, -⟩ := hfs.exists_of_mem hf
    exact (hs.property hk hp).here

/-- Where all that waits can be written, it can be written behind an emission. -/
theorem isWritable_emit {r : Resolver ε}
    (hr : r.definitions.Each (Schema.Everywhere Schema.HasText)) (typeName : String)
    {node : Node} (hs : Schema.Everywhere Schema.HasText node.schema) (fqn : Option String)
    (hw : ∀ e ∈ r.queue.waiting.entries, e.2.IsWritable) :
    ∀ e ∈ (exec (emit typeName node fqn) r).2.queue.waiting.entries, e.2.IsWritable := by
  have hadds := adds_emit (fun _ => relates_true _) hr typeName hs fqn
  exact hadds.forall_mem hw fun _ hbuilds => hbuilds.isWritable

end Resolver
end SchemaScript
