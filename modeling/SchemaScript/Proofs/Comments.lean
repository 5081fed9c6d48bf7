import SchemaScript.Proofs.Writing

/-!
# Comments end once

Whatever stands in a description, in the name of a place or in a value of an enum, a
comment ends where it is meant to: the end of a comment stands at the end of its last line
and nowhere else.

Escaping takes the end of a comment out of a text.  What is written consists of pieces of
escaped texts, each with a blank between it and what stands before it, so no end of a
comment comes about where pieces meet.

## Main definitions

* `Comment.StaysOpen` — a text without the end of a comment.
* `Comment.ClosesAtEnd` — a text that ends with the only end of a comment in it.
* `Comment.innerLines` — the lines of a comment between its first and its last one.

## Main results

* `staysOpen_escape` — an escaped text stays open.
* `infix_of_mem_lines`, `infix_of_findDefault?` — lines and default values are pieces.
* `describe_eq_writeLines`, `writeMembers_eq_writeLines` — which lines are written.
* `comments_end_once` — comments of declarations, fields and members.
-/

namespace SchemaScript

/-! ### Lines and ends of texts -/

namespace Text

theorem prefix_trimEnd (cs : List Char) : trimEnd cs <+: cs := by
  induction cs with
  | nil => exact List.prefix_rfl
  | cons c cs ih =>
    rw [trimEnd]
    split
    · split
      · exact List.nil_prefix
      · simp
    · simpa using ih

theorem mem_onFirst {c : Char} {ls : List (List Char)} {l : List Char} (h : l ∈ onFirst c ls) :
    l = c :: ls.headD [] ∨ l ∈ ls := by
  cases ls with
  | nil => exact Or.inl (List.mem_singleton.mp h)
  | cons k ls =>
    rw [onFirst, List.mem_cons] at h
    exact h.imp_right (List.mem_cons_of_mem k)

/-- The first line is a start of the text. -/
theorem prefix_headD_lines (cs : List Char) : (lines cs).headD [] <+: cs := by
  fun_induction lines cs with
  | case1 => simp
  | case2 cs ih => simp
  | case3 c cs hc hend ih => simp
  | case4 c cs hc hend ih =>
    cases hls : lines cs with
    | nil => simp [onFirst]
    | cons k ls => simpa [hls, onFirst] using ih

/-- **Lines are pieces of the text.** -/
theorem infix_of_mem_lines {cs l : List Char} (h : l ∈ lines cs) : l <:+: cs := by
  fun_induction lines cs with
  | case1 => simp at h
  | case2 cs ih =>
    rcases List.mem_cons.mp h with rfl | h
    · exact List.nil_infix
    · exact List.infix_cons (List.infix_cons (ih h))
  | case3 c cs hc hend ih =>
    rcases List.mem_cons.mp h with rfl | h
    · exact List.nil_infix
    · exact List.infix_cons (ih h)
  | case4 c cs hc hend ih =>
    rcases mem_onFirst h with rfl | h
    · have hp : c :: (lines cs).headD [] <+: c :: cs := by simpa using prefix_headD_lines cs
      exact hp.isInfix
    · exact List.infix_cons (ih h)

theorem infix_of_after? {start cs rest : List Char} (h : after? start cs = some rest) :
    rest <:+: cs := by
  rw [eq_append_of_after? h]
  exact (List.suffix_append start rest).isInfix

end Text

namespace Comment

open Text

/-! ### Default values -/

theorem infix_of_behindGap? {cs v : List Char} (h : behindGap? cs = some v) : v <:+: cs := by
  fun_induction behindGap? cs with
  | case1 => cases h
  | case2 => cases h
  | case3 c cs hc w hw ih =>
    cases h
    exact List.infix_cons (ih hw)
  | case4 => cases h
  | case5 => cases h
  | case6 c hc d ds hd hnone ih =>
    -- the rest of the line behind the gap
    cases h
    exact List.infix_cons (List.takeWhile_prefix _).isInfix

theorem infix_of_afterLink? {cs rest : List Char} (h : afterLink? cs = some rest) :
    rest <:+: cs := by
  rw [afterLink?] at h
  split at h
  · next hto =>
    cases h
    exact infix_of_after? hto
  · exact infix_of_after? h

theorem infix_of_defaultAt? {cs v : List Char} (h : defaultAt? cs = some v) : v <:+: cs := by
  -- behind the word, the link stands behind a gap, and the value behind another one
  have hlinked : ∀ {rest : List Char},
      (if rest.head?.all isWord then none
        else (afterLink? (rest.dropWhile fun c => !isWord c)).bind behindGap?) = some v →
      v <:+: rest := by
    intro rest h
    split at h
    · cases h
    · obtain ⟨gap, hgap, hv⟩ := Option.bind_eq_some_iff.mp h
      have hlink : gap <:+: rest :=
        (infix_of_afterLink? hgap).trans (List.dropWhile_suffix _).isInfix
      exact (infix_of_behindGap? hv).trans hlink
  simp only [defaultAt?, Option.bind_eq_bind, Option.bind_eq_some_iff] at h
  obtain ⟨rest, hrest, h⟩ := h
  have hword : rest <:+: cs := infix_of_after? hrest
  split at h
  · exact (hlinked h).trans ((List.suffix_cons 's' _).isInfix.trans hword)
  · exact (hlinked h).trans hword

/-- **A default value is a piece of the text.** -/
theorem infix_of_findDefault? {cs v : List Char} (h : findDefault? cs = some v) : v <:+: cs := by
  induction cs with
  | nil => simp [findDefault?] at h
  | cons c cs ih =>
    rw [findDefault?] at h
    split at h
    · next hv =>
      cases h
      exact infix_of_defaultAt? hv
    · exact List.infix_cons (ih h)

/-! ### Texts that stay open -/

/-- The end of a comment stands nowhere in the text. -/
def StaysOpen (cs : List Char) : Prop := ¬ ['*', '/'] <:+: cs

/-- The end of a comment stands at the end of the text and nowhere else. -/
def ClosesAtEnd (cs : List Char) : Prop :=
  ['*', '/'] <:+ cs ∧ ∀ before after, cs = before ++ ['*', '/'] ++ after → after = []

instance (cs : List Char) : Decidable (StaysOpen cs) := inferInstanceAs (Decidable (¬ _))

@[simp] theorem staysOpen_nil : StaysOpen [] := by decide

theorem StaysOpen.of_infix {cs ds : List Char} (h : StaysOpen cs) (hd : ds <:+: cs) :
    StaysOpen ds :=
  fun hend => h (hend.trans hd)

@[simp] theorem staysOpen_cons {c : Char} {cs : List Char} :
    StaysOpen (c :: cs) ↔ ¬ (c = '*' ∧ cs.head? = some '/') ∧ StaysOpen cs := by
  rw [StaysOpen, StaysOpen, List.infix_cons_iff, not_or]
  refine and_congr_left' (not_congr ?_)
  cases cs <;> simp [eq_comm]

/-- **Where a blank stands between them**, two texts that stay open make one. -/
@[simp] theorem staysOpen_append_blank {cs ds : List Char} :
    StaysOpen (cs ++ ' ' :: ds) ↔ StaysOpen cs ∧ StaysOpen ds := by
  induction cs with
  | nil => simp
  | cons c cs ih => cases cs <;> simp_all [and_assoc]

/-- A text that stays open when a star comes behind it is closed by a slash behind that. -/
theorem closesAtEnd_of_staysOpen {cs : List Char} (h : StaysOpen (cs ++ ['*'])) :
    ClosesAtEnd (cs ++ ['*', '/']) := by
  refine ⟨List.suffix_append cs _, fun before after heq => ?_⟩
  rcases List.eq_nil_or_concat after with rfl | ⟨after, c, rfl⟩
  · rfl
  · -- the end would stand before the slash
    have hcut : (cs ++ ['*']) ++ ['/'] = (before ++ ['*', '/'] ++ after) ++ [c] := by
      simpa using heq
    exact absurd ⟨before, after, (List.append_inj' hcut rfl).1.symm⟩ h

/-! ### Escaped texts -/

/-- Escaping brings no slash to the front. -/
theorem head?_escapeChars {cs : List Char} (h : (escapeChars cs).head? = some '/') :
    cs.head? = some '/' := by
  fun_cases escapeChars cs <;> simp_all [escapeChars]

/-- **An escaped text stays open.** -/
theorem staysOpen_escapeChars (cs : List Char) : StaysOpen (escapeChars cs) := by
  fun_induction escapeChars cs with
  | case1 => simp
  | case2 cs ih => simpa using ih
  | case3 c cs hc ih =>
    refine staysOpen_cons.mpr ⟨?_, ih⟩
    rintro ⟨rfl, hslash⟩
    obtain ⟨ds, rfl⟩ := List.head?_eq_some_iff.mp (head?_escapeChars hslash)
    exact hc ds rfl rfl

theorem staysOpen_escape (text : String) : StaysOpen (escape text).toList := by
  rw [escape, String.toList_ofList]
  exact staysOpen_escapeChars text.toList

/-! ### Lines of comments -/

/-- The lines that tell what a description says: the description itself, and the default
value that it mentions. -/
def tellingLines (description : String) : List String :=
  if description = "" then []
  else descriptionLines (escape description) ++
    (default? (escape description)).toList.map fun v => annotationLine "default" (.str v)

/-- The lines of a comment between the first and the last one. -/
def innerLines (fqn description : String) : List String :=
  tellingLines description ++ [placeLine fqn]

theorem writeLines_append (ls ks : List String) :
    writeLines (ls ++ ks) = writeLines ls >>= fun _ => writeLines ks := by
  induction ls with
  | nil => simp [writeLines]
  | cons l ls ih => simp [writeLines, ih]

theorem writeLines_concat (ls : List String) (l : String) :
    writeLines (ls ++ [l]) = writeLines ls >>= fun _ => Page.line l := by
  simp [writeLines_append, writeLines]

/-- A value that does not count as given is no description. -/
theorem writeDescription_of_not_truthy {description : Json} (h : description.truthy = false)
    (annotations : Table Json) : writeDescription description annotations = pure annotations := by
  simp [writeDescription, h]

theorem writeDescription_str {text : String} (h : text ≠ "") (annotations : Table Json) :
    writeDescription (.str text) annotations = (do
      writeLines (descriptionLines (escape text))
      return withDefault (escape text) annotations) := by
  simp [writeDescription, Json.truthy, h]

/-- The lines of the annotations of a comment that the caller does not annotate. -/
theorem map_annotationLine_withDefault (text fqn : String) :
    ((withDefault text .empty).insert "schema" (.str (escape fqn))).entries.map
        (fun e => annotationLine e.1 e.2) =
      (default? text).toList.map (fun v => annotationLine "default" (.str v)) ++ [placeLine fqn] := by
  cases h : default? text <;> simp [withDefault, h, Table.insert, Table.empty, Entries.put, placeLine]

/-- **A comment is its lines.** -/
theorem describe_eq_writeLines (fqn : String) (description : Option String) :
    describe fqn (description.elim .null .str) .empty =
      writeLines ("/**" :: innerLines fqn (description.getD "") ++ [" */"]) := by
  have hnone : ∀ {d : Json}, d.truthy = false →
      describe fqn d .empty = writeLines ["/**", placeLine fqn, " */"] := by
    intro d hd
    simp [describe, writeDescription_of_not_truthy hd, writeLines, Table.insert, Table.empty,
      Entries.put, placeLine]
  cases description with
  | none => exact hnone rfl
  | some text =>
    by_cases ht : text = ""
    · subst ht
      exact hnone rfl
    · have hinner : innerLines fqn text = descriptionLines (escape text) ++
          ((withDefault (escape text) .empty).insert "schema" (.str (escape fqn))).entries.map
            fun e => annotationLine e.1 e.2 := by
        rw [innerLines, tellingLines, if_neg ht, List.append_assoc, map_annotationLine_withDefault]
      rw [Option.elim_some, Option.getD_some, hinner, List.cons_append, writeLines,
        writeLines_concat, writeLines_append, describe, writeDescription_str ht]
      simp only [bind_assoc, pure_bind]

theorem staysOpen_commentLine {cs : List Char} (h : StaysOpen cs) :
    StaysOpen (commentLine cs).toList := by
  rw [commentLine, String.toList_ofList]
  exact StaysOpen.of_infix (by simpa using h) (prefix_trimEnd _).isInfix

theorem staysOpen_annotationLine {key value : String} (hk : StaysOpen key.toList)
    (hv : StaysOpen value.toList) : StaysOpen (annotationLine key (.str value)).toList := by
  have hline : (annotationLine key (.str value)).toList =
      [' ', '*'] ++ ' ' :: ('@' :: key.toList ++ ' ' :: value.toList) := by
    simp [annotationLine, Json.display]
  have hat : StaysOpen ('@' :: key.toList) := by simpa using hk
  rw [hline, staysOpen_append_blank, staysOpen_append_blank]
  exact ⟨by decide, hat, hv⟩

theorem staysOpen_of_mem_tellingLines {description l : String}
    (h : l ∈ tellingLines description) : StaysOpen l.toList := by
  have hescaped := staysOpen_escape description
  rw [tellingLines] at h
  split at h
  · cases h
  · rw [List.mem_append, descriptionLines, List.mem_append, List.mem_map, List.mem_map] at h
    rcases h with (⟨cs, hcs, rfl⟩ | h) | ⟨v, hv, rfl⟩
    · exact staysOpen_commentLine (hescaped.of_infix (infix_of_mem_lines hcs))
    · rw [List.mem_singleton.mp h]
      decide
    · -- the value that the description mentions
      rw [Option.mem_toList, default?, Option.map_eq_some_iff] at hv
      obtain ⟨cs, hcs, rfl⟩ := hv
      have hpiece : StaysOpen (String.ofList cs).toList := by
        rw [String.toList_ofList]
        exact hescaped.of_infix (infix_of_findDefault? hcs)
      exact staysOpen_annotationLine (by simp) hpiece

theorem staysOpen_placeLine (fqn : String) : StaysOpen (placeLine fqn).toList :=
  staysOpen_annotationLine (by simp) (staysOpen_escape fqn)

/-- **The lines between the first and the last one stay open.** -/
theorem staysOpen_of_mem_innerLines {fqn description l : String}
    (h : l ∈ innerLines fqn description) : StaysOpen l.toList := by
  rw [innerLines, List.mem_append, List.mem_singleton] at h
  rcases h with h | rfl
  · exact staysOpen_of_mem_tellingLines h
  · exact staysOpen_placeLine fqn

/-! ### Members -/

theorem writeMembers_eq_writeLines (ms : List Member) :
    Declaration.writeMembers ms =
      writeLines (ms.flatMap fun m => [Declaration.memberComment m, Declaration.memberLine m]) := by
  induction ms with
  | nil => rfl
  | cons m ms ih => rw [Declaration.writeMembers, ih, List.flatMap_cons]; rfl

theorem closesAtEnd_memberComment (m : Member) :
    ClosesAtEnd (Declaration.memberComment m).toList := by
  have hline : (Declaration.memberComment m).toList =
      (['/', '*', '*'] ++ ' ' :: ((escape m.value).toList ++ [' '])) ++ ['*', '/'] := by
    simp [Declaration.memberComment]
  rw [hline]
  refine closesAtEnd_of_staysOpen ?_
  have hvalue : StaysOpen ((escape m.value).toList ++ ' ' :: ['*']) :=
    staysOpen_append_blank.mpr ⟨staysOpen_escape m.value, by decide⟩
  have hall : StaysOpen (['/', '*', '*'] ++ ' ' :: ((escape m.value).toList ++ ' ' :: ['*'])) :=
    staysOpen_append_blank.mpr ⟨by decide, hvalue⟩
  simpa using hall

/-- **Every comment ends once, and at its end.**  The comment of a declaration or a field is
its first line, the lines of the description with the default value that it mentions, the
line of the place, and its last line; of these only the last one ends a comment, and with
its last two characters.  So does the comment of a member, whatever the value. -/
theorem comments_end_once (fqn : String) (description : Option String) (ms : List Member) :
    (describe fqn (description.elim .null .str) .empty =
        writeLines ("/**" :: innerLines fqn (description.getD "") ++ [" */"]) ∧
      (∀ l ∈ "/**" :: innerLines fqn (description.getD ""), StaysOpen l.toList) ∧
      ClosesAtEnd " */".toList) ∧
    Declaration.writeMembers ms =
        writeLines (ms.flatMap fun m => [Declaration.memberComment m, Declaration.memberLine m]) ∧
      ∀ m, ClosesAtEnd (Declaration.memberComment m).toList := by
  refine ⟨⟨describe_eq_writeLines fqn description, fun l hl => ?_, ?_⟩,
    writeMembers_eq_writeLines ms, closesAtEnd_memberComment⟩
  · rcases List.mem_cons.mp hl with rfl | hl
    · decide
    · exact staysOpen_of_mem_innerLines hl
  · have hblank : ClosesAtEnd ([' '] ++ ['*', '/']) := closesAtEnd_of_staysOpen (by decide)
    exact hblank

/-- A description of which every line and the default value try to end the comment, one of
them with a slash at the start of a line, and a place and a value that do. -/
theorem comments_end_once_hostile :
    let inner := innerLines "a*/b" "**/ x*\u2028/ Default is: */ \n*/"
    inner = [" * *_/ x*", " * / Default is: _/", " * _/", " *", " * @default _/ ",
        " * @schema a_/b"] ∧
      (∀ l ∈ inner, StaysOpen l.toList) ∧
      Declaration.memberComment ⟨"M", "/**/"⟩ = "/** /*_/ */" ∧
        ClosesAtEnd (Declaration.memberComment ⟨"M", "/**/"⟩).toList := by
  intro inner
  obtain ⟨⟨-, hopen, -⟩, -, hmember⟩ :=
    comments_end_once "a*/b" (some "**/ x*\u2028/ Default is: */ \n*/") [⟨"M", "/**/"⟩]
  rw [Option.getD_some] at hopen
  exact ⟨by decide +kernel, fun l hl => hopen l (List.mem_cons_of_mem _ hl), by decide +kernel,
    hmember _⟩

end Comment
end SchemaScript
