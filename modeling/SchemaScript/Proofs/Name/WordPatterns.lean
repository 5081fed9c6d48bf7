import SchemaScript.Pattern.Parser
import SchemaScript.Proofs.Name.Cases
import SchemaScript.Proofs.Pattern.Search

/-!
# Words as matches

The words of a name are what a pattern finds in it from left to right, once the separators of
the name are blanks.  The pattern for acronyms takes as many capitals as it can and gives the
last one back where a small letter follows; a rule that looks at no more than the next two
characters says where it ends up.

## Main definitions

* `capitalWord`, `acronymWord` — the patterns.
* `FindsWords` — a pattern finds the words of a rule.
* `spaced` — separators become blanks.

## Main results

* `parse?_capitalWord`, `parse?_acronymWord` — the texts that are read as the patterns.
* `firstPair?_capitals` — what a pattern finds where it starts with capitals.
* `findsWords_capitalWord`, `findsWords_acronymWord` — the patterns find the words of the rules.
* `findTexts_capitalWord`, `findTexts_acronymWord` — so they find the words of every text.
-/

namespace SchemaScript
namespace Name

/-! ### The patterns -/

/-- A character of a range. -/
def range (low high : Char) : Pattern := .set false false [.range low high]

/-- A small letter. -/
def smallLetter : Pattern := range 'a' 'z'

/-- A capital. -/
def capitalLetter : Pattern := range 'A' 'Z'

/-- A digit. -/
def digit : Pattern := range '0' '9'

/-- The pattern for words in which every capital starts a word. -/
def capitalWord : Pattern :=
  .alt (.seq (.rep false smallLetter 1 none) .empty)
    (.alt (.seq capitalLetter (.seq (.rep false smallLetter 0 none) .empty))
      (.seq (.rep false digit 1 none) .empty))

/-- No small letter comes next. -/
def noSmallLetter : Pattern := .seq (.ahead true (.seq smallLetter .empty)) .empty

/-- The pattern for words in which a run of capitals stays together. -/
def acronymWord : Pattern :=
  .alt (.seq (.rep false capitalLetter 1 none) noSmallLetter)
    (.alt (.seq (.rep false capitalLetter 0 (some 1)) (.seq (.rep false smallLetter 1 none) .empty))
      (.seq (.rep false digit 1 none) .empty))

/-- The text of the pattern for words in which every capital starts a word. -/
theorem parse?_capitalWord : Pattern.parse? "[a-z]+|[A-Z][a-z]*|[0-9]+" = some capitalWord := by
  rfl

/-- The text of the pattern for words in which a run of capitals stays together. -/
theorem parse?_acronymWord :
    Pattern.parse? "[A-Z]+(?![a-z])|[A-Z]?[a-z]+|[0-9]+" = some acronymWord := by
  rfl

theorem ways_range {low high : Char} {test : Char → Bool}
    (h : ∀ c, test c = (decide (low ≤ c) && decide (c ≤ high))) :
    (range low high).ways = Place.step test := by
  funext p
  rw [range, Pattern.ways]
  congr 1
  funext c
  simp [SetItem.has, h]

theorem ways_smallLetter : smallLetter.ways = Place.step Char.isLower :=
  ways_range fun c => by simp [Char.isLower, Char.le_def]

theorem ways_capitalLetter : capitalLetter.ways = Place.step Char.isUpper :=
  ways_range fun c => by simp [Char.isUpper, Char.le_def]

theorem ways_digit : digit.ways = Place.step Char.isDigit :=
  ways_range fun c => by simp [Char.isDigit, Char.le_def]

/-! ### Finding words -/

/-- The pattern finds the word that starts at the place by the rule. -/
def FindsWordAt (q : Pattern) (joins : Joins) (p : Place) : Prop :=
  ∃ w rest, p.after = w ++ rest ∧ IsWord joins rest w ∧ q.first? p = some (p.past w)

/-- At every place the pattern finds the word that starts there by the rule, and nothing else. -/
structure FindsWords (q : Pattern) (joins : Joins) : Prop where
  skips : ∀ {p : Place} {c : Char} {cs : List Char}, p.after = c :: cs → c.isAlphanum = false →
    q.first? p = none
  takes : ∀ {p : Place} {c : Char} {cs : List Char}, p.after = c :: cs → c.isAlphanum = true →
    FindsWordAt q joins p

theorem IsWord.ne_nil {joins : Joins} {w rest : List Char} (h : IsWord joins rest w) : w ≠ [] := by
  rintro rfl
  exact h

/-- A search for words from any place on. -/
theorem FindsWords.findAll_eq {q : Pattern} {joins : Joins} (h : FindsWords q joins) (p : Place) :
    findAll q.textAt? p = words joins p.after := by
  induction hn : p.after.length using Nat.strongRecOn generalizing p with
  | _ n ih =>
    subst hn
    cases hafter : p.after with
    | nil => rw [findAll_of_end hafter, words_nil]
    | cons c cs =>
      by_cases hc : c.isAlphanum = true
      · obtain ⟨w, rest, hword, hw, hfirst⟩ := h.takes hafter hc
        have htext : q.textAt? p = some (w, p.past w) := by
          rw [Pattern.textAt?, hfirst, Option.map_some, Place.upTo_past hword]
        have hrest : (p.past w).after = rest := by simp [hword]
        have hlt : (p.past w).after.length < p.after.length := by
          have hpos : 0 < w.length := List.length_pos_iff.mpr hw.ne_nil
          rw [hrest, hword, List.length_append]
          omega
        rw [findAll_of_eq_some htext hlt, ih _ hlt _ rfl, hrest, ← hafter, hword, words_append hw]
      · rw [Bool.not_eq_true] at hc
        have htext : q.textAt? p = none := by
          rw [Pattern.textAt?, h.skips hafter hc, Option.map_none]
        rw [findAll_of_eq_none hafter htext, ih _ (by simp [hafter]) _ rfl, words, hc,
          if_neg Bool.false_ne_true]

/-- **A pattern that finds the words finds all of them**, one after the other. -/
theorem FindsWords.findTexts_eq {q : Pattern} {joins : Joins} (h : FindsWords q joins)
    (cs : List Char) : q.findTexts cs = words joins cs :=
  h.findAll_eq ⟨0, [], cs⟩

/-! ### Runs of characters -/

/-- A text starts with a run of characters that pass a test, and goes on with something else. -/
theorem exists_run (test : Char → Bool) (cs : List Char) :
    ∃ w rest, cs = w ++ rest ∧ (∀ c ∈ w, test c = true) ∧ ∀ c ∈ rest.head?, test c = false := by
  refine ⟨cs.takeWhile test, cs.dropWhile test, List.takeWhile_append_dropWhile.symm,
    fun c hc => List.mem_takeWhile_imp hc, fun c hc => ?_⟩
  have := List.head?_dropWhile_not test cs
  rwa [Option.mem_def.mp hc] at this

/-- A letter or digit is a small letter, a capital or a digit, and only one of these. -/
theorem isAlphanum_cases {c : Char} (hc : c.isAlphanum = true) :
    (c.isLower = true ∧ c.isUpper = false) ∨ (c.isUpper = true ∧ c.isLower = false) ∨
      (c.isDigit = true ∧ c.isUpper = false ∧ c.isLower = false) := by
  rw [Char.isAlphanum, Char.isAlpha, Bool.or_eq_true, Bool.or_eq_true] at hc
  rcases hc with (hc | hc) | hc
  · exact Or.inr (Or.inl ⟨hc, Bool.eq_false_iff.mpr (Char.not_isLower_of_isUpper hc)⟩)
  · exact Or.inl ⟨hc, Bool.eq_false_iff.mpr (Char.not_isUpper_of_isLower hc)⟩
  · exact Or.inr (Or.inr ⟨hc, not_isAlpha_of_isDigit hc⟩)

/-- What is neither letter nor digit. -/
theorem isAlphanum_eq_false_iff {c : Char} :
    c.isAlphanum = false ↔ (c.isUpper = false ∧ c.isLower = false) ∧ c.isDigit = false := by
  rw [Char.isAlphanum, Char.isAlpha, Bool.or_eq_false_iff, Bool.or_eq_false_iff]

/-! ### Words by the rules -/

theorem capitalJoins_eq_false {c : Char} {rest : List Char}
    (hsmall : c.isAlpha = true → ∀ d ∈ rest.head?, d.isLower = false)
    (hdigit : c.isDigit = true → ∀ d ∈ rest.head?, d.isDigit = false) :
    capitalJoins c rest = false := by
  cases rest with
  | nil => rfl
  | cons d rest =>
    rw [capitalJoins, Bool.or_eq_false_iff, Bool.and_eq_false_imp, Bool.and_eq_false_imp]
    exact ⟨fun hc => hsmall hc d rfl, fun hc => hdigit hc d rfl⟩

/-- A run of digits is a word. -/
theorem isWord_of_digits {c : Char} {w rest : List Char} (hw : ∀ d ∈ c :: w, d.isDigit = true)
    (hrest : ∀ d ∈ rest.head?, d.isDigit = false) : IsWord capitalJoins rest (c :: w) := by
  refine isWord_of_joins (fun d hd => ?_) (fun d hd e he cs => ?_) fun d hd => ?_
  · simp [Char.isAlphanum, hw d hd]
  · simp [capitalJoins, hw d hd, hw e (List.mem_cons_of_mem c he)]
  · have hd := hw d (List.mem_of_getLast? hd)
    refine capitalJoins_eq_false (fun h => ?_) fun _ => hrest
    rw [isAlpha_eq_false_of_isDigit hd] at h
    cases h

/-- A letter and the small letters behind it are a word. -/
theorem isWord_of_letters {c : Char} {w rest : List Char} (hc : c.isAlpha = true)
    (hw : ∀ d ∈ w, d.isLower = true) (hrest : ∀ d ∈ rest.head?, d.isLower = false) :
    IsWord capitalJoins rest (c :: w) := by
  have halpha : ∀ d ∈ c :: w, d.isAlpha = true :=
    List.forall_mem_cons.mpr ⟨hc, fun d hd => by simp [Char.isAlpha, hw d hd]⟩
  refine isWord_of_joins (fun d hd => ?_) (fun d hd e he cs => ?_) fun d hd => ?_
  · simp [Char.isAlphanum, halpha d hd]
  · simp [capitalJoins, halpha d hd, hw e he]
  · have hd := halpha d (List.mem_of_getLast? hd)
    refine capitalJoins_eq_false (fun _ => hrest) fun h => ?_
    rw [isAlpha_eq_false_of_isDigit h] at hd
    cases hd

/-- Only behind a capital the rules differ. -/
theorem acronymJoins_eq_capitalJoins {c : Char} (hc : c.isUpper = false) (cs : List Char) :
    acronymJoins c cs = capitalJoins c cs := by
  cases cs with
  | nil => rfl
  | cons d cs => simp [acronymJoins, capitalJoins, hc]

theorem acronymJoins_of_capitalJoins {c : Char} {cs : List Char} (h : capitalJoins c cs = true) :
    acronymJoins c cs = true := by
  cases cs with
  | nil => cases h
  | cons d cs =>
    rw [capitalJoins] at h
    rw [acronymJoins, h, Bool.true_or]

/-- A word by the first rule is one by the second, if it does not end with a capital. -/
theorem IsWord.acronym {w rest : List Char} (h : IsWord capitalJoins rest w)
    (hlast : ∀ c ∈ w.getLast?, c.isUpper = false) : IsWord acronymJoins rest w := by
  induction w using IsWord.induct with
  | case1 => exact h
  | case2 c => exact ⟨h.1, (acronymJoins_eq_capitalJoins (hlast c rfl) rest).trans h.2⟩
  | case3 c d w ih =>
    refine ⟨h.1, acronymJoins_of_capitalJoins h.2.1, ih h.2.2 ?_⟩
    rwa [List.getLast?_cons_cons] at hlast

/-- A run of capitals is a word, if no small letter and no further capital of the run follows. -/
theorem isWord_of_capitals {c : Char} {w rest : List Char} (hw : ∀ d ∈ c :: w, d.isUpper = true)
    (hsmall : startsSmall rest = false)
    (hend : ∀ d : Char, d.isUpper = true → acronymJoins d rest = false) :
    IsWord acronymJoins rest (c :: w) := by
  induction w generalizing c with
  | nil =>
    have hc := hw c List.mem_cons_self
    exact ⟨by simp [Char.isAlphanum, Char.isAlpha, hc], hend c hc⟩
  | cons d w ih =>
    obtain ⟨hc, hw⟩ := List.forall_mem_cons.mp hw
    have hd := hw d List.mem_cons_self
    have hbehind : startsSmall (w ++ rest) = false := by
      cases w with
      | nil => exact hsmall
      | cons e w =>
        have he : e.isUpper = true := hw e (by simp)
        exact Bool.eq_false_iff.mpr (Char.not_isLower_of_isUpper he)
    refine ⟨by simp [Char.isAlphanum, Char.isAlpha, hc], ?_, ih hw⟩
    simp [acronymJoins, hc, hd, hbehind]

/-! ### First matches -/

section

variable {p : Place} {c : Char} {cs : List Char} (hp : p.after = c :: cs)

include hp

theorem first?_capitalWord : capitalWord.first? p =
    ((Pattern.rep false smallLetter 1 none).first? p).or
      ((if c.isUpper then (Pattern.rep false smallLetter 0 none).first? (p.past [c]) else none).or
        ((Pattern.rep false digit 1 none).first? p)) := by
  simp only [capitalWord, Pattern.first?_alt, Pattern.first?_seq_empty,
    Pattern.first?_seq_of_after ways_capitalLetter _ hp]

theorem first?_acronymWord : acronymWord.first? p =
    ((Pattern.seq (.rep false capitalLetter 1 none) noSmallLetter).first? p).or
      (((if c.isUpper then (Pattern.rep false smallLetter 1 none).first? (p.past [c]) else none).or
        ((Pattern.rep false smallLetter 1 none).first? p)).or
        ((Pattern.rep false digit 1 none).first? p)) := by
  simp only [acronymWord, Pattern.first?_alt, Pattern.first?_optional, Pattern.first?_seq_empty,
    Pattern.first?_seq_of_after ways_capitalLetter _ hp]

end

/-- **The pattern finds the words in which every capital starts a word.** -/
theorem findsWords_capitalWord : FindsWords capitalWord capitalJoins where
  skips := by
    intro p c cs hp hc
    obtain ⟨⟨hupper, hlower⟩, hdigit⟩ := isAlphanum_eq_false_iff.mp hc
    rw [first?_capitalWord hp, Pattern.first?_rep_one_eq_none ways_smallLetter hp hlower, hupper,
      Pattern.first?_rep_one_eq_none ways_digit hp hdigit]
    rfl
  takes := by
    intro p c cs hp hc
    rw [FindsWordAt, first?_capitalWord hp]
    rcases isAlphanum_cases hc with ⟨hlower, -⟩ | ⟨hupper, hlower⟩ | ⟨hdigit, hupper, hlower⟩
    · obtain ⟨w, rest, rfl, hw, hrest⟩ := exists_run Char.isLower cs
      refine ⟨c :: w, rest, hp, isWord_of_letters (by simp [Char.isAlpha, hlower]) hw hrest, ?_⟩
      rw [Pattern.first?_rep_one_run ways_smallLetter hw hrest hlower hp, Option.some_or]
    · obtain ⟨w, rest, rfl, hw, hrest⟩ := exists_run Char.isLower cs
      refine ⟨c :: w, rest, hp, isWord_of_letters (by simp [Char.isAlpha, hupper]) hw hrest, ?_⟩
      have hafter : (p.past [c]).after = w ++ rest := by simp [hp]
      rw [Pattern.first?_rep_one_eq_none ways_smallLetter hp hlower, if_pos hupper,
        Pattern.first?_rep_zero_run ways_smallLetter hw hrest hafter]
      rfl
    · obtain ⟨w, rest, rfl, hw, hrest⟩ := exists_run Char.isDigit cs
      have hall : ∀ d ∈ c :: w, d.isDigit = true := List.forall_mem_cons.mpr ⟨hdigit, hw⟩
      refine ⟨c :: w, rest, hp, isWord_of_digits hall hrest, ?_⟩
      rw [Pattern.first?_rep_one_eq_none ways_smallLetter hp hlower, hupper,
        Pattern.first?_rep_one_run ways_digit hw hrest hdigit hp]
      rfl

/-! ### Capitals that stay together -/

theorem first?_noSmallLetter (p : Place) :
    noSmallLetter.first? p = if startsSmall p.after then none else some p := by
  rw [noSmallLetter, Pattern.first?_seq_empty, Pattern.first?, Pattern.ways,
    Pattern.ways_seq_empty, ways_smallLetter]
  cases hp : p.after with
  | nil => rw [Place.step_of_end hp]; rfl
  | cons c cs =>
    rw [Place.step_of_after hp, startsSmall]
    cases c.isLower <;> rfl

/-- **Capitals in front of something that no small letter starts**: the whole run, or all but its
last capital, or none. -/
theorem firstPair?_capitals {r : Pattern} {f : Place → Place}
    (hr : ∀ e, r.first? e = if startsSmall e.after then none else some (f e))
    {p : Place} {c : Char} {w rest : List Char} (hp : p.after = c :: (w ++ rest))
    (hw : ∀ d ∈ c :: w, d.isUpper = true) (hrest : ∀ d ∈ rest.head?, d.isUpper = false) :
    (Pattern.rep false capitalLetter 1 none).firstPair? r p =
      if startsSmall rest then
        if w = [] then none else some (p.past (c :: w.dropLast), f (p.past (c :: w.dropLast)))
      else some (p.past (c :: w), f (p.past (c :: w))) := by
  obtain ⟨hc, hw⟩ := List.forall_mem_cons.mp hw
  have htried : ∀ v, (r.first? (p.past (c :: v))).map (fun e => (p.past (c :: v), e)) =
      if startsSmall ((w ++ rest).drop v.length) then none
      else some (p.past (c :: v), f (p.past (c :: v))) := by
    intro v
    rw [hr, Place.after_past, hp, List.length_cons, List.drop_succ_cons]
    split <;> rfl
  rw [Pattern.firstPair?, Pattern.ways_rep_one_run ways_capitalLetter hw hrest hc hp,
    List.findSome?_map]
  cases hsmall : startsSmall rest with
  | false =>
    refine (findSome?_inits_of_eq_some ?_).trans (if_neg Bool.false_ne_true).symm
    rw [Function.comp_apply, htried, List.drop_left, hsmall, if_neg Bool.false_ne_true]
  | true =>
    rw [if_pos rfl]
    rcases List.eq_nil_or_concat w with rfl | ⟨v, d, rfl⟩
    · show ([[]] : List (List Char)).findSome? _ = _
      rw [List.findSome?_singleton, Function.comp_apply, htried, List.length_nil, List.drop_zero,
        List.nil_append, hsmall, if_pos rfl, if_pos rfl]
    · -- in front of the last capital no small letter stands
      rw [List.concat_eq_append] at hw htried ⊢
      have hd : d.isLower = false :=
        Bool.eq_false_iff.mpr (Char.not_isLower_of_isUpper (hw d (by simp)))
      rw [findSome?_inits_concat, List.dropLast_concat, if_neg (by simp)]
      · refine findSome?_inits_of_eq_some ?_
        rw [Function.comp_apply, htried, List.append_assoc, List.drop_left, List.singleton_append,
          startsSmall, hd, if_neg Bool.false_ne_true]
      · rw [Function.comp_apply, htried, List.drop_left, hsmall, if_pos rfl]

/-- The first alternative for acronyms. -/
theorem first?_capitals {p : Place} {c : Char} {w rest : List Char}
    (hp : p.after = c :: (w ++ rest)) (hw : ∀ d ∈ c :: w, d.isUpper = true)
    (hrest : ∀ d ∈ rest.head?, d.isUpper = false) :
    (Pattern.seq (.rep false capitalLetter 1 none) noSmallLetter).first? p =
      if startsSmall rest then (if w = [] then none else some (p.past (c :: w.dropLast)))
      else some (p.past (c :: w)) := by
  rw [← Pattern.map_snd_firstPair?, firstPair?_capitals first?_noSmallLetter hp hw hrest]
  split
  · split <;> rfl
  · rfl

/-- A capital at the end of a word: what follows is no small letter, and a capital only if a small
letter follows that. -/
theorem acronymJoins_eq_false_of_isUpper {c : Char} {rest : List Char} (hc : c.isUpper = true)
    (hsmall : startsSmall rest = false)
    (hcapital : ∀ d ∈ rest.head?, d.isUpper = true → startsSmall rest.tail = true) :
    acronymJoins c rest = false := by
  cases rest with
  | nil => rfl
  | cons d rest =>
    have hdigit : c.isDigit = false := by
      rw [Bool.eq_false_iff]
      intro h
      rw [(not_isAlpha_of_isDigit h).1] at hc
      cases hc
    cases hd : d.isUpper <;> simp_all [acronymJoins, startsSmall]

section

variable {p : Place} {c : Char} {cs : List Char}

theorem findsWordAt_of_isLower (hp : p.after = c :: cs) (hlower : c.isLower = true) :
    FindsWordAt acronymWord acronymJoins p := by
  have hupper : c.isUpper = false := Bool.eq_false_iff.mpr (Char.not_isUpper_of_isLower hlower)
  have hcapitals := Pattern.first?_rep_one_eq_none ways_capitalLetter hp hupper
  obtain ⟨w, rest, rfl, hw, hrest⟩ := exists_run Char.isLower cs
  have hall : ∀ d ∈ c :: w, d.isLower = true := List.forall_mem_cons.mpr ⟨hlower, hw⟩
  refine ⟨c :: w, rest, hp, ?_, ?_⟩
  · refine (isWord_of_letters (by simp [Char.isAlpha, hlower]) hw hrest).acronym fun d hd => ?_
    exact Bool.eq_false_iff.mpr (Char.not_isUpper_of_isLower (hall d (List.mem_of_getLast? hd)))
  · rw [first?_acronymWord hp, Pattern.first?_seq_eq_none hcapitals, hupper,
      Pattern.first?_rep_one_run ways_smallLetter hw hrest hlower hp]
    rfl

theorem findsWordAt_of_isDigit (hp : p.after = c :: cs) (hdigit : c.isDigit = true) :
    FindsWordAt acronymWord acronymJoins p := by
  obtain ⟨hupper, hlower⟩ := not_isAlpha_of_isDigit hdigit
  have hcapitals := Pattern.first?_rep_one_eq_none ways_capitalLetter hp hupper
  obtain ⟨w, rest, rfl, hw, hrest⟩ := exists_run Char.isDigit cs
  have hall : ∀ d ∈ c :: w, d.isDigit = true := List.forall_mem_cons.mpr ⟨hdigit, hw⟩
  refine ⟨c :: w, rest, hp, ?_, ?_⟩
  · refine (isWord_of_digits hall hrest).acronym fun d hd => ?_
    exact (not_isAlpha_of_isDigit (hall d (List.mem_of_getLast? hd))).1
  · rw [first?_acronymWord hp, Pattern.first?_seq_eq_none hcapitals, hupper,
      Pattern.first?_rep_one_eq_none ways_smallLetter hp hlower,
      Pattern.first?_rep_one_run ways_digit hw hrest hdigit hp]
    rfl

/-- A capital in front of a small letter starts a word of its own. -/
theorem findsWordAt_of_small (hp : p.after = c :: cs) (hupper : c.isUpper = true)
    (hsmall : startsSmall cs = true) : FindsWordAt acronymWord acronymJoins p := by
  cases cs with
  | nil => cases hsmall
  | cons d cs =>
    have hcapital : ∀ e ∈ [c], e.isUpper = true := by simpa using hupper
    have hd : ∀ e ∈ (d :: cs).head?, e.isUpper = false := by
      intro e he
      obtain rfl : d = e := Option.some.inj he
      exact Bool.eq_false_iff.mpr (Char.not_isUpper_of_isLower hsmall)
    have hcapitals := first?_capitals (w := []) hp hcapital hd
    obtain ⟨w, rest, rfl, hw, hrest⟩ := exists_run Char.isLower cs
    have hall : ∀ e ∈ d :: w, e.isLower = true := List.forall_mem_cons.mpr ⟨hsmall, hw⟩
    have hafter : (p.past [c]).after = d :: (w ++ rest) := by simp [hp]
    refine ⟨c :: d :: w, rest, hp, ?_, ?_⟩
    · refine (isWord_of_letters (by simp [Char.isAlpha, hupper]) hall hrest).acronym fun e he => ?_
      rw [List.getLast?_cons_cons] at he
      exact Bool.eq_false_iff.mpr (Char.not_isUpper_of_isLower (hall e (List.mem_of_getLast? he)))
    · rw [first?_acronymWord hp, hcapitals, if_pos hsmall, if_pos rfl, if_pos hupper,
        Pattern.first?_rep_one_run ways_smallLetter hw hrest hsmall hafter]
      rfl

theorem findsWordAt_of_isUpper (hp : p.after = c :: cs) (hupper : c.isUpper = true) :
    FindsWordAt acronymWord acronymJoins p := by
  obtain ⟨w, rest, rfl, hw, hrest⟩ := exists_run Char.isUpper cs
  have hrun : ∀ d ∈ c :: w, d.isUpper = true := List.forall_mem_cons.mpr ⟨hupper, hw⟩
  have hcapitals := first?_capitals hp hrun hrest
  cases hsmall : startsSmall rest with
  | false =>
    -- the whole run
    refine ⟨c :: w, rest, hp, isWord_of_capitals hrun hsmall fun d hd => ?_, ?_⟩
    · refine acronymJoins_eq_false_of_isUpper hd hsmall fun e he hcapital => ?_
      rw [hrest e he] at hcapital
      cases hcapital
    · rw [first?_acronymWord hp, hcapitals, hsmall, if_neg Bool.false_ne_true, Option.some_or]
  | true =>
    rcases List.eq_nil_or_concat w with rfl | ⟨v, d, rfl⟩
    · exact findsWordAt_of_small hp hupper hsmall
    · -- the run without its last capital, which starts the next word
      rw [List.concat_eq_append] at hp hrun hcapitals
      have hd : startsSmall (d :: rest) = false :=
        Bool.eq_false_iff.mpr (Char.not_isLower_of_isUpper (hrun d (by simp)))
      refine ⟨c :: v, d :: rest, by simp [hp], ?_, ?_⟩
      · have hv : ∀ e ∈ c :: v, e.isUpper = true := fun e he => hrun e (List.mem_append_left [d] he)
        exact isWord_of_capitals hv hd fun e he =>
          acronymJoins_eq_false_of_isUpper he hd fun _ _ _ => hsmall
      · rw [first?_acronymWord hp, hcapitals, hsmall]
        simp

end

/-- **The pattern finds the words in which a run of capitals stays together.** -/
theorem findsWords_acronymWord : FindsWords acronymWord acronymJoins where
  skips := by
    intro p c cs hp hc
    obtain ⟨⟨hupper, hlower⟩, hdigit⟩ := isAlphanum_eq_false_iff.mp hc
    have hcapitals := Pattern.first?_rep_one_eq_none ways_capitalLetter hp hupper
    rw [first?_acronymWord hp, Pattern.first?_seq_eq_none hcapitals, hupper,
      Pattern.first?_rep_one_eq_none ways_smallLetter hp hlower,
      Pattern.first?_rep_one_eq_none ways_digit hp hdigit]
    rfl
  takes := by
    intro p c cs hp hc
    rcases isAlphanum_cases hc with ⟨hlower, -⟩ | ⟨hupper, -⟩ | ⟨hdigit, -⟩
    · exact findsWordAt_of_isLower hp hlower
    · exact findsWordAt_of_isUpper hp hupper
    · exact findsWordAt_of_isDigit hp hdigit

/-! ### Separators -/

/-- The separators of a name become blanks. -/
def spaced (c : Char) : Char := if c = '_' ∨ c = '-' ∨ c = '.' then ' ' else c

theorem spaced_of_isAlphanum {c : Char} (hc : c.isAlphanum = true) : spaced c = c := by
  refine if_neg ?_
  rintro (rfl | rfl | rfl) <;> exact absurd hc (by decide)

/-- A blank is of the kind of a separator: neither a letter nor a digit. -/
theorem kind_spaced (c : Char) :
    (spaced c).isUpper = c.isUpper ∧ (spaced c).isLower = c.isLower ∧
      (spaced c).isDigit = c.isDigit := by
  rw [spaced]
  split
  · next h => rcases h with rfl | rfl | rfl <;> decide
  · exact ⟨rfl, rfl, rfl⟩

@[simp] theorem isUpper_spaced (c : Char) : (spaced c).isUpper = c.isUpper := (kind_spaced c).1

@[simp] theorem isLower_spaced (c : Char) : (spaced c).isLower = c.isLower := (kind_spaced c).2.1

@[simp] theorem isDigit_spaced (c : Char) : (spaced c).isDigit = c.isDigit := (kind_spaced c).2.2

@[simp] theorem isAlphanum_spaced (c : Char) : (spaced c).isAlphanum = c.isAlphanum := by
  simp [Char.isAlphanum, Char.isAlpha]

theorem capitalJoins_spaced (c : Char) (cs : List Char) :
    capitalJoins c (cs.map spaced) = capitalJoins c cs := by
  cases cs <;> simp [capitalJoins]

theorem acronymJoins_spaced (c : Char) (cs : List Char) :
    acronymJoins c (cs.map spaced) = acronymJoins c cs := by
  have hsmall : ∀ ds : List Char, startsSmall (ds.map spaced) = startsSmall ds := by
    rintro (_ | ⟨d, ds⟩) <;> simp [startsSmall]
  cases cs <;> simp [acronymJoins, hsmall]

/-- Blanks in place of separators make no difference to the words, if they make none to the rule. -/
theorem words_map_spaced {joins : Joins} (hj : ∀ c cs, joins c (cs.map spaced) = joins c cs)
    (cs : List Char) : words joins (cs.map spaced) = words joins cs := by
  induction cs with
  | nil => rfl
  | cons c cs ih =>
    rw [List.map_cons, words, words, isAlphanum_spaced, ih, hj]
    by_cases hc : c.isAlphanum = true
    · rw [spaced_of_isAlphanum hc]
    · rw [if_neg hc, if_neg hc]

/-- **The words in which every capital starts a word** are the matches of their pattern. -/
theorem findTexts_capitalWord (cs : List Char) :
    capitalWord.findTexts (cs.map spaced) = capitalWords cs := by
  rw [findsWords_capitalWord.findTexts_eq, words_map_spaced capitalJoins_spaced, capitalWords]

/-- **The words in which a run of capitals stays together** are the matches of their pattern. -/
theorem findTexts_acronymWord (cs : List Char) :
    acronymWord.findTexts (cs.map spaced) = acronymWords cs := by
  rw [findsWords_acronymWord.findTexts_eq, words_map_spaced acronymJoins_spaced, acronymWords]

end Name
end SchemaScript
