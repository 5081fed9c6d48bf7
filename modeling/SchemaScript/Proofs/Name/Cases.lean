import SchemaScript.Proofs.Name.MemberNames

/-!
# Changing the case of a name

Cutting a text into words loses no letter and no digit, and putting the words together again
changes the case of letters only; so each case of a text has the letters and digits of the text
in order.  Two of the cases moreover cut into the words they were made from: in pascal case a
word goes up to the next capital or digit, in snake case up to the next underscore.

## Main definitions

* `smallLetters` — the letters and digits of a text, small.
* `IsOneKind` — letters alone, or digits alone.
* `IsSnake` — words of small letters or digits between underscores.
* `IsWord` — characters that are one word in front of a given rest.

## Main results

* `pascalChars_eq_self_iff`, `snakeChars_eq_self_iff` — what the cases leave alone.
* `cases_keep_letters` — the letters and digits of all cases, and the cases taken again.
-/

namespace SchemaScript
namespace Name

/-- The letters and digits of a text in order, with small letters. -/
def smallLetters (cs : List Char) : List Char := (cs.filter Char.isAlphanum).map Char.toLower

/-- Letters alone, or digits alone. -/
def IsOneKind (w : List Char) : Prop :=
  (∀ c ∈ w, c.isAlpha = true) ∨ ∀ c ∈ w, c.isDigit = true

/-- A word of small letters, or of digits. -/
def IsSmallWord (w : List Char) : Prop :=
  w ≠ [] ∧ ((∀ c ∈ w, c.isLower = true) ∨ ∀ c ∈ w, c.isDigit = true)

/-- Small words between single underscores. -/
def IsSnake (cs : List Char) : Prop := ∃ ws, cs = underscored ws ∧ ∀ w ∈ ws, IsSmallWord w

/-! ### Words of one kind -/

theorem isAlpha_eq_false_of_isDigit {c : Char} (h : c.isDigit = true) : c.isAlpha = false := by
  obtain ⟨hu, hl⟩ := not_isAlpha_of_isDigit h
  simp [Char.isAlpha, hu, hl]

/-- Letters join letters, and digits join digits. -/
theorem of_acronymJoins {c d : Char} {cs : List Char} (h : acronymJoins c (d :: cs) = true) :
    (c.isAlpha = true ∧ d.isAlpha = true) ∨ (c.isDigit = true ∧ d.isDigit = true) := by
  simp only [acronymJoins, Bool.or_eq_true, Bool.and_eq_true] at h
  rcases h with (⟨hc, hd⟩ | h) | ⟨⟨hc, hd⟩, -⟩
  · exact Or.inl ⟨hc, by simp [Char.isAlpha, hd]⟩
  · exact Or.inr h
  · exact Or.inl ⟨by simp [Char.isAlpha, hc], by simp [Char.isAlpha, hd]⟩

/-- A word that is joined to a character stays of one kind. -/
theorem IsOneKind.cons {c d : Char} {w cs : List Char} (h : IsOneKind (d :: w))
    (hj : acronymJoins c (d :: cs) = true) : IsOneKind (c :: d :: w) := by
  have hd : d ∈ d :: w := List.mem_cons_self
  rcases of_acronymJoins hj with ⟨hc, halpha⟩ | ⟨hc, hdigit⟩
  · refine Or.inl (List.forall_mem_cons.mpr ⟨hc, h.resolve_right fun hw => ?_⟩)
    rw [isAlpha_eq_false_of_isDigit (hw d hd)] at halpha
    cases halpha
  · refine Or.inr (List.forall_mem_cons.mpr ⟨hc, h.resolve_left fun hw => ?_⟩)
    have halpha := hw d hd
    rw [isAlpha_eq_false_of_isDigit hdigit] at halpha
    cases halpha

/-- The first word starts with the first character, if that is a letter or digit. -/
theorem words_cons_of_isAlphanum (joins : Joins) {c : Char} (hc : c.isAlphanum = true)
    (cs : List Char) : ∃ w ws, words joins (c :: cs) = (c :: w) :: ws := by
  rw [words, if_pos hc]
  split
  · cases words joins cs with
    | nil => exact ⟨[], [], rfl⟩
    | cons w ws => exact ⟨w, ws, rfl⟩
  · exact ⟨[], words joins cs, rfl⟩

/-- **A word consists of letters, or of digits.** -/
theorem isOneKind_of_mem_acronymWords {cs w : List Char} (h : w ∈ acronymWords cs) :
    IsOneKind w := by
  rw [acronymWords] at h
  induction cs generalizing w with
  | nil => exact absurd h List.not_mem_nil
  | cons c cs ih =>
    rw [words] at h
    by_cases hc : c.isAlphanum = true
    · rw [if_pos hc] at h
      by_cases hj : acronymJoins c cs = true
      · -- the first word behind the character starts with the next one, which it is joined to
        rw [if_pos hj] at h
        cases cs with
        | nil => cases hj
        | cons d cs =>
          have hd : d.isAlphanum = true := by
            rcases of_acronymJoins hj with ⟨-, hd⟩ | ⟨-, hd⟩ <;> simp [Char.isAlphanum, hd]
          obtain ⟨v, vs, hwords⟩ := words_cons_of_isAlphanum acronymJoins hd cs
          rw [hwords] at h ih
          rcases List.mem_cons.mp h with rfl | h
          · exact (ih List.mem_cons_self).cons hj
          · exact ih (List.mem_cons_of_mem _ h)
      · rw [if_neg hj] at h
        rcases List.mem_cons.mp h with rfl | h
        · simpa [IsOneKind, Char.isAlphanum] using hc
        · exact ih h
    · rw [if_neg hc] at h
      exact ih h

theorem IsOneKind.isSmallWord {w : List Char} (h : IsOneKind w) (hne : w ≠ []) :
    IsSmallWord (w.map Char.toLower) := by
  refine ⟨by simpa using hne, h.imp (fun h => by simpa using h) fun h => ?_⟩
  intro c hc
  obtain ⟨d, hd, rfl⟩ := List.mem_map.mp hc
  have hu := (not_isAlpha_of_isDigit (h d hd)).1
  rw [Char.toLower_eq_of_not_isUpper (by simp [hu])]
  exact h d hd

/-- The words of snake case are small. -/
theorem isSmallWord_of_mem {cs w : List Char}
    (h : w ∈ (acronymWords cs).map (·.map Char.toLower)) : IsSmallWord w := by
  obtain ⟨v, hv, rfl⟩ := List.mem_map.mp h
  exact (isOneKind_of_mem_acronymWords hv).isSmallWord (ne_nil_of_mem_words hv)

/-! ### Words found again -/

/-- The characters are one word in front of the rest: each is joined to what comes behind it, but
the last one is not. -/
def IsWord (joins : Joins) (rest : List Char) : List Char → Prop
  | [] => False
  | [c] => c.isAlphanum = true ∧ joins c rest = false
  | c :: d :: w =>
    c.isAlphanum = true ∧ joins c (d :: w ++ rest) = true ∧ IsWord joins rest (d :: w)

theorem words_append {joins : Joins} {w rest : List Char} (h : IsWord joins rest w) :
    words joins (w ++ rest) = w :: words joins rest := by
  induction w using IsWord.induct with
  | case1 => exact h.elim
  | case2 c =>
    obtain ⟨hc, hj⟩ := h
    rw [List.singleton_append, words, if_pos hc, hj, if_neg Bool.false_ne_true]
  | case3 c d w ih =>
    obtain ⟨hc, hj, h⟩ := h
    rw [List.cons_append, words, if_pos hc, if_pos hj, ih h, onFirstWord]

/-- Letters and digits are a word, if those behind the first one are joined to whatever comes before
them, and what follows is not. -/
theorem isWord_of_joins {joins : Joins} {c : Char} {w rest : List Char}
    (halnum : ∀ d ∈ c :: w, d.isAlphanum = true)
    (hjoins : ∀ d ∈ c :: w, ∀ e ∈ w, ∀ cs, joins d (e :: cs) = true)
    (hend : ∀ d ∈ (c :: w).getLast?, joins d rest = false) : IsWord joins rest (c :: w) := by
  induction w generalizing c with
  | nil => exact ⟨halnum c List.mem_cons_self, hend c rfl⟩
  | cons d w ih =>
    have hjoin := hjoins c List.mem_cons_self d List.mem_cons_self (w ++ rest)
    refine ⟨halnum c List.mem_cons_self, hjoin, ih ?_ ?_ ?_⟩
    · exact fun e he => halnum e (List.mem_cons_of_mem c he)
    · exact fun e he f hf => hjoins e (List.mem_cons_of_mem c he) f (List.mem_cons_of_mem d hf)
    · exact fun e he => hend e (by rwa [List.getLast?_cons_cons])

/-- A character is not joined to something else than a letter or digit. -/
theorem acronymJoins_eq_false {c : Char} {rest : List Char}
    (h : ∀ d ∈ rest.head?, d.isAlphanum = false) : acronymJoins c rest = false := by
  cases rest with
  | nil => rfl
  | cons d rest =>
    rw [Bool.eq_false_iff]
    intro hj
    have hd := h d rfl
    rw [Char.isAlphanum, Bool.or_eq_false_iff] at hd
    rcases of_acronymJoins hj with ⟨-, halpha⟩ | ⟨-, hdigit⟩
    · rw [hd.1] at halpha
      cases halpha
    · rw [hd.2] at hdigit
      cases hdigit

/-- A small word is one in front of something else than a letter or digit. -/
theorem IsSmallWord.isWord {w rest : List Char} (hw : IsSmallWord w)
    (hrest : ∀ c ∈ rest.head?, c.isAlphanum = false) : IsWord acronymJoins rest w := by
  obtain ⟨hne, hw⟩ := hw
  cases w with
  | nil => exact absurd rfl hne
  | cons c w =>
    refine isWord_of_joins (fun d hd => ?_) (fun d hd e he cs => ?_) fun d _ => ?_
    · rcases hw with hw | hw <;> simp [Char.isAlphanum, Char.isAlpha, hw d hd]
    · have he := List.mem_cons_of_mem c he
      rcases hw with hw | hw <;> simp [acronymJoins, Char.isAlpha, hw d hd, hw e he]
    · exact acronymJoins_eq_false hrest

/-- **Small words between underscores are found again.** -/
theorem acronymWords_underscored {ws : List (List Char)} (h : ∀ w ∈ ws, IsSmallWord w) :
    acronymWords (underscored ws) = ws := by
  induction ws using underscored.induct with
  | case1 => rfl
  | case2 w =>
    have hw : IsWord acronymJoins [] w := (h w List.mem_cons_self).isWord (by simp)
    have hwords := words_append hw
    rwa [List.append_nil] at hwords
  | case3 w ws hws ih =>
    rw [underscored, acronymWords]
    · -- the underscore itself is in no word
      rw [words_append ((h w List.mem_cons_self).isWord (by simp))]
      exact congrArg (w :: ·) (ih fun v hv => h v (List.mem_cons_of_mem w hv))
    · exact hws

theorem IsSmallWord.map_toLower {w : List Char} (h : IsSmallWord w) : w.map Char.toLower = w := by
  refine (List.map_congr_left fun c hc => ?_).trans (List.map_id w)
  have hu : c.isUpper = false := by
    rcases h.2 with h | h
    · exact Bool.eq_false_iff.mpr (Char.not_isUpper_of_isLower (h c hc))
    · exact (not_isAlpha_of_isDigit (h c hc)).1
  exact Char.toLower_eq_of_not_isUpper (by simp [hu])

/-! ### Cases taken again -/

theorem isSnake_snakeChars (cs : List Char) : IsSnake (snakeChars cs) :=
  ⟨_, rfl, fun _ => isSmallWord_of_mem⟩

/-- **What snake case leaves alone**: small words between underscores. -/
theorem snakeChars_eq_self_iff {cs : List Char} : snakeChars cs = cs ↔ IsSnake cs := by
  constructor
  · intro h
    rw [← h]
    exact isSnake_snakeChars cs
  · rintro ⟨ws, rfl, h⟩
    have hws : ws.map (·.map Char.toLower) = ws :=
      (List.map_congr_left fun w hw => (h w hw).map_toLower).trans (List.map_id ws)
    rw [snakeChars, acronymWords_underscored h, hws]

theorem isFormed_pascalChars (cs : List Char) : IsFormed false (pascalChars cs) = true := by
  rw [pascalChars_eq]
  exact (isFormed_pascalFrom cs).1

/-- **What pascal case leaves alone**: letters and digits, with small letters behind letters. -/
theorem pascalChars_eq_self_iff {cs : List Char} :
    pascalChars cs = cs ↔ IsFormed false cs = true := by
  constructor
  · intro h
    rw [← h]
    exact isFormed_pascalChars cs
  · intro h
    rw [pascalChars_eq]
    exact (pascalFrom_eq_self cs).1 h

/-! ### Letters and digits -/

theorem map_toLower_flatten_words (joins : Joins) (cs : List Char) :
    (words joins cs).flatten.map Char.toLower = smallLetters cs := by
  rw [flatten_words, smallLetters]

theorem map_toLower_flatMap_capitalise (ws : List (List Char)) :
    (ws.flatMap capitalise).map Char.toLower = ws.flatten.map Char.toLower := by
  induction ws with
  | nil => rfl
  | cons w ws ih =>
    rw [List.flatMap_cons, List.flatten_cons, List.map_append, List.map_append, ih]
    cases w <;> simp [capitalise, Function.comp_def]

/-- Taking the underscores away leaves the words. -/
theorem filter_underscored {ws : List (List Char)} (h : ∀ w ∈ ws, '_' ∉ w) :
    (underscored ws).filter (· ≠ '_') = ws.flatten := by
  have hflat : (underscored ws).filter (· ≠ '_') = ws.flatten.filter (· ≠ '_') := by
    cases ws with
    | nil => rfl
    | cons w ws =>
      rw [underscored_cons, List.flatten_cons, List.filter_append, List.filter_append,
        List.filter_flatMap, List.filter_flatten, List.flatMap_def]
      simp
  rw [hflat, List.filter_eq_self]
  intro c hc
  obtain ⟨w, hw, hcw⟩ := List.mem_flatten.mp hc
  simpa using fun e : c = '_' => h w hw (e ▸ hcw)

theorem map_toLower_pascalChars (cs : List Char) :
    (pascalChars cs).map Char.toLower = smallLetters cs := by
  rw [pascalChars, map_toLower_flatMap_capitalise, capitalWords, map_toLower_flatten_words]

theorem map_toLower_camelChars (cs : List Char) :
    (camelChars cs).map Char.toLower = smallLetters cs := by
  rw [← map_toLower_flatten_words acronymJoins, camelChars, acronymWords]
  cases words acronymJoins cs with
  | nil => rfl
  | cons w ws => simp [map_toLower_flatMap_capitalise]

theorem filter_snakeChars (cs : List Char) :
    (snakeChars cs).filter (· ≠ '_') = smallLetters cs := by
  have hwords : ∀ w ∈ (acronymWords cs).map (·.map Char.toLower), '_' ∉ w := by
    intro w hw hmem
    rcases (isSmallWord_of_mem hw).2 with h | h <;> exact absurd (h _ hmem) (by decide)
  rw [snakeChars, filter_underscored hwords, ← List.map_flatten, acronymWords,
    map_toLower_flatten_words]

/-- **Each case has the letters and digits of the text in order**, however it is cut into words,
and pascal and snake case are left alone when they are taken again. -/
theorem cases_keep_letters (t : String) :
    (pascal t).toList.map Char.toLower = smallLetters t.toList ∧
      (camel t).toList.map Char.toLower = smallLetters t.toList ∧
      (snake t).toList.filter (· ≠ '_') = smallLetters t.toList ∧
      pascal (pascal t) = pascal t ∧ snake (snake t) = snake t := by
  simp only [pascal, camel, snake, String.toList_ofList]
  refine ⟨map_toLower_pascalChars _, map_toLower_camelChars _, filter_snakeChars _, ?_, ?_⟩
  · rw [pascalChars_eq_self_iff.mpr (isFormed_pascalChars _)]
  · rw [snakeChars_eq_self_iff.mpr (isSnake_snakeChars _)]

/-- Camel case is not left alone: words of one letter become an acronym. -/
example : camel "a-b c" = "aBC" ∧ camel "aBC" = "aBc" := by decide +kernel

end Name
end SchemaScript
