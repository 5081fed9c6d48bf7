import SchemaScript.Name.TypeName
import SchemaScript.Proofs.Name.Capitals

/-!
# Type names are stable

Folding acronyms looks at neighbouring letters only, and what it leaves has nothing to
fold.  With the capital form of the first character this makes every type name a name
of itself, and a name made from a path moreover is a path that names itself.

## Main definitions

* `foldFrom` — acronyms folded from left to right, with the letter before in view.
* `IsFormed` — letters and digits, in which a small letter stands behind a letter.

## Main results

* `foldAcronyms_eq` — folding letter by letter.
* `isTypeName_typeName`, `isTypeName_ofDefinition` — type names are type names.
* `isFormed_ofPath`, `isTypeName_ofPath`, `ofPath_ofPath` — names made from paths.
* `ofDefinition_ofDefinition` — the type name of a definition is its own.
-/

namespace SchemaScript
namespace Name

/-! ### Folding letter by letter -/

/-- Folds acronyms, with it known whether the letter before is a capital. -/
def foldFrom (afterCapital : Bool) : List Char → List Char
  | [] => []
  | c :: cs =>
    (if afterCapital && c.isUpper && !startsSmall cs then c.toLower else c) ::
      foldFrom c.isUpper cs

/-- What comes first does not matter before anything but a capital. -/
theorem foldFrom_of_not_isUpper {cs : List Char} (b b' : Bool)
    (h : ∀ c ∈ cs.head?, c.isUpper = false) : foldFrom b cs = foldFrom b' cs := by
  cases cs with
  | nil => rfl
  | cons c cs =>
    have hc : c.isUpper = false := h c rfl
    simp [foldFrom, hc]

/-- A run of capitals behind a capital. -/
theorem foldFrom_run {run rest : List Char} (hrun : ∀ c ∈ run, c.isUpper = true)
    (hrest : ∀ c ∈ rest.head?, c.isUpper = false) :
    foldFrom true (run ++ rest) = foldRun (startsSmall rest) run ++ foldFrom false rest := by
  induction run with
  | nil => exact foldFrom_of_not_isUpper true false hrest
  | cons c run ih =>
    have hc : c.isUpper = true := hrun c List.mem_cons_self
    have ih := ih fun d hd => hrun d (List.mem_cons_of_mem c hd)
    rw [List.cons_append, foldFrom, hc, ih]
    cases run with
    | nil => cases hs : startsSmall rest <;> simp [foldRun, hs]
    | cons d run =>
      have hd : d.isUpper = true := hrun d (by simp)
      have hsmall : d.isLower = false := by
        rw [Bool.eq_false_iff]
        exact Char.not_isLower_of_isUpper hd
      simp [foldRun, startsSmall, hsmall]

/-- **Folding acronyms letter by letter.** -/
theorem foldAcronyms_eq (cs : List Char) : foldAcronyms cs = foldFrom false cs := by
  induction cs using foldAcronyms.induct with
  | case1 => rw [foldAcronyms, foldFrom]
  | case2 c cs hc rest ih =>
    have hrun : ∀ d ∈ cs.takeWhile Char.isUpper, d.isUpper = true :=
      fun d hd => List.mem_takeWhile_imp hd
    have hrest : ∀ d ∈ (cs.dropWhile Char.isUpper).head?, d.isUpper = false := by
      intro d hd
      have := List.head?_dropWhile_not Char.isUpper cs
      rw [Option.mem_def.mp hd] at this
      exact this
    rw [foldAcronyms, if_pos hc, foldFrom, hc]
    -- a run of capitals, and what comes behind it
    conv_rhs => rw [← List.takeWhile_append_dropWhile (p := Char.isUpper) (l := cs)]
    rw [foldFrom_run hrun hrest]
    simpa using ih
  | case3 c cs hc ih =>
    rw [foldAcronyms, if_neg hc, ih, foldFrom]
    simp only [Bool.not_eq_true] at hc
    simp [hc]

/-- Folding leaves as many letters as there were. -/
@[simp] theorem length_foldFrom (b : Bool) (cs : List Char) :
    (foldFrom b cs).length = cs.length := by
  induction cs generalizing b with
  | nil => rfl
  | cons c cs ih => rw [foldFrom, List.length_cons, List.length_cons, ih]

/-- A small letter at the start stays there. -/
theorem startsSmall_foldFrom {b : Bool} {cs : List Char} (h : startsSmall cs = true) :
    startsSmall (foldFrom b cs) = true := by
  cases cs with
  | nil => cases h
  | cons c cs =>
    have hc : c.isUpper = false := by
      rw [Bool.eq_false_iff]
      exact Char.not_isUpper_of_isLower h
    simpa [foldFrom, hc, startsSmall] using h

/-- Folding again changes nothing, even with less known to be a capital before. -/
theorem foldFrom_foldFrom {b b' : Bool} (h : b' = true → b = true) (cs : List Char) :
    foldFrom b' (foldFrom b cs) = foldFrom b cs := by
  induction cs generalizing b b' with
  | nil => rfl
  | cons c cs ih =>
    rw [foldFrom]
    by_cases hc : (b && c.isUpper && !startsSmall cs) = true
    · -- the letter was folded, and no small letter is a capital
      rw [if_pos hc, foldFrom, Char.isUpper_toLower_eq_false]
      rw [ih fun hf => absurd hf Bool.false_ne_true]
      simp
    · rw [if_neg hc, foldFrom, ih id]
      -- a kept letter is kept again: a small letter that follows it is still small
      have hkeep : (b' && c.isUpper && !startsSmall (foldFrom c.isUpper cs)) = false := by
        rw [Bool.eq_false_iff]
        intro hb
        simp only [Bool.and_eq_true, Bool.not_eq_true'] at hb hc
        refine hc ⟨⟨h hb.1.1, hb.1.2⟩, ?_⟩
        rw [Bool.eq_false_iff]
        intro hs
        rw [startsSmall_foldFrom hs] at hb
        exact Bool.false_ne_true hb.2.symm
      rw [hkeep, if_neg Bool.false_ne_true]

/-! ### Type names -/

/-- The first letter is kept. -/
theorem head?_foldFrom (cs : List Char) : (foldFrom false cs).head? = cs.head? := by
  cases cs <;> rfl

theorem capitalFirst_eq_self {cs : List Char} (h : ∀ c ∈ cs.head?, Text.capitals c = [c]) :
    capitalFirst cs = cs := by
  cases cs with
  | nil => rfl
  | cons c cs => rw [capitalFirst, h c rfl, List.singleton_append]

/-- **The type name of a type name is that name.** -/
theorem typeNameChars_typeNameChars (cs : List Char) :
    typeNameChars (typeNameChars cs) = typeNameChars cs := by
  have hfirst : capitalFirst (foldFrom false (capitalFirst cs)) =
      foldFrom false (capitalFirst cs) := by
    refine capitalFirst_eq_self ?_
    intro d hd
    rw [head?_foldFrom] at hd
    cases cs with
    | nil => cases hd
    | cons c cs =>
      rw [capitalFirst, List.head?_append_of_ne_nil _ (Text.capitals_ne_nil c)] at hd
      exact Text.capitals_of_head hd
  rw [typeNameChars, typeNameChars, foldAcronyms_eq, foldAcronyms_eq, hfirst,
    foldFrom_foldFrom id]

theorem isTypeName_typeName (s : String) : IsTypeName (typeName s) := by
  rw [IsTypeName, typeName, typeName, String.toList_ofList, typeNameChars_typeNameChars]

theorem isTypeName_ofDefinition (path : String) : IsTypeName (ofDefinition path) :=
  isTypeName_typeName _

theorem isTypeName_ofPath (path : String) : IsTypeName (ofPath path) := by
  rw [IsTypeName, typeName, ofPath, String.toList_ofList, typeNameChars_typeNameChars]

/-! ### Letters and digits in order -/

/-- Letters and digits, in which a small letter stands behind a letter. -/
def IsFormed (afterLetter : Bool) : List Char → Bool
  | [] => true
  | c :: cs => c.isAlphanum && (!c.isLower || afterLetter) && IsFormed c.isAlpha cs

theorem isFormed_cons {b : Bool} {c : Char} {cs : List Char} :
    IsFormed b (c :: cs) = true ↔
      c.isAlphanum = true ∧ (c.isLower = true → b = true) ∧ IsFormed c.isAlpha cs = true := by
  cases hc : c.isLower <;> simp [IsFormed, hc, and_assoc]

/-- A text that may start anywhere may start behind a letter. -/
theorem IsFormed.mono {b b' : Bool} {cs : List Char} (h : IsFormed b cs = true)
    (hb : b = true → b' = true) : IsFormed b' cs = true := by
  cases cs with
  | nil => rfl
  | cons c cs =>
    rw [isFormed_cons] at h ⊢
    exact ⟨h.1, fun hc => hb (h.2.1 hc), h.2.2⟩

theorem isFormed_append {b : Bool} {cs ds : List Char} (h : IsFormed b cs = true)
    (hd : IsFormed false ds = true) : IsFormed b (cs ++ ds) = true := by
  induction cs generalizing b with
  | nil => exact IsFormed.mono hd fun hf => absurd hf Bool.false_ne_true
  | cons c cs ih =>
    rw [isFormed_cons] at h
    rw [List.cons_append, isFormed_cons]
    exact ⟨h.1, h.2.1, ih h.2.2⟩

theorem isAlphanum_of_isFormed {b : Bool} {cs : List Char} (h : IsFormed b cs = true) :
    ∀ c ∈ cs, c.isAlphanum = true := by
  induction cs generalizing b with
  | nil => exact fun c hc => absurd hc List.not_mem_nil
  | cons c cs ih =>
    rw [isFormed_cons] at h
    exact List.forall_mem_cons.mpr ⟨h.1, ih h.2.2⟩

/-- Folding takes capitals behind capitals only, so letters stay behind letters. -/
theorem isFormed_foldFrom {b b' : Bool} {cs : List Char} (h : IsFormed b' cs = true)
    (hb : b = true → b' = true) : IsFormed b' (foldFrom b cs) = true := by
  induction cs generalizing b b' with
  | nil => rfl
  | cons c cs ih =>
    rw [isFormed_cons] at h
    have hrest : IsFormed c.isAlpha (foldFrom c.isUpper cs) = true :=
      ih h.2.2 fun hu => by simp [Char.isAlpha, hu]
    rw [foldFrom, isFormed_cons]
    by_cases hc : (b && c.isUpper && !startsSmall cs) = true
    · -- a folded letter stands behind a capital, so it stands behind a letter
      rw [if_pos hc]
      simp only [Bool.and_eq_true] at hc
      refine ⟨?_, fun _ => hb hc.1.1, by rwa [Char.isAlpha_toLower_eq_isAlpha]⟩
      have halpha : c.toLower.isAlpha = true := by
        rw [Char.isAlpha_toLower_eq_isAlpha]
        simp [Char.isAlpha, hc.1.2]
      simp [Char.isAlphanum, halpha]
    · rw [if_neg hc]
      exact ⟨h.1, h.2.1, hrest⟩

/-! ### Pascal case letter by letter -/

/-- Letters and digits in pascal case, with it known whether the first character belongs
to the word before it. -/
def pascalFrom (joined : Bool) : List Char → List Char
  | [] => []
  | c :: cs =>
    if c.isAlphanum then
      (if joined then c.toLower else c.toUpper) :: pascalFrom (capitalJoins c cs) cs
    else pascalFrom false cs

/-- A letter or digit that starts a word is made a capital or left alone. -/
theorem isAlphanum_toUpper {c : Char} (h : c.isAlphanum = true) :
    c.toUpper.isAlphanum = true := by
  by_cases hl : c.isLower = true
  · have halpha : c.toUpper.isAlpha = true := by
      rw [Char.isAlpha_toUpper_eq_isAlpha]
      simp [Char.isAlpha, hl]
    simp [Char.isAlphanum, halpha]
  · rwa [Char.toUpper_eq_of_not_isLower hl]

theorem not_isAlpha_of_isDigit {c : Char} (h : c.isDigit = true) :
    c.isUpper = false ∧ c.isLower = false := by
  simp only [Char.isDigit, Bool.and_eq_true, decide_eq_true_eq, ge_iff_le,
    UInt32.le_iff_toNat_le] at h
  have h₂ : c.val.toNat ≤ 57 := h.2
  refine ⟨Bool.eq_false_iff.mpr fun hu => ?_, Bool.eq_false_iff.mpr fun hl => ?_⟩
  · simp only [Char.isUpper, decide_eq_true_eq, ge_iff_le, UInt32.le_iff_toNat_le] at hu
    have h₁ : 65 ≤ c.val.toNat := hu.1
    omega
  · simp only [Char.isLower, Bool.and_eq_true, decide_eq_true_eq, ge_iff_le,
      UInt32.le_iff_toNat_le] at hl
    have h₁ : 97 ≤ c.val.toNat := hl.1
    omega

/-- What belongs to the word before it is a small letter behind a letter, or a digit. -/
theorem of_capitalJoins {c d : Char} {cs : List Char} (h : capitalJoins c (d :: cs) = true) :
    d.isAlphanum = true ∧ d.toLower = d ∧ (d.isLower = true → c.isAlpha = true) := by
  simp only [capitalJoins, Bool.or_eq_true, Bool.and_eq_true] at h
  rcases h with ⟨hc, hd⟩ | ⟨-, hd⟩
  · refine ⟨by simp [Char.isAlphanum, Char.isAlpha, hd], ?_, fun _ => hc⟩
    exact Char.toLower_eq_of_not_isUpper (Char.not_isUpper_of_isLower hd)
  · obtain ⟨hu, hl⟩ := not_isAlpha_of_isDigit hd
    refine ⟨by simp [Char.isAlphanum, hd], Char.toLower_eq_of_not_isUpper (by simp [hu]), ?_⟩
    intro h
    rw [hl] at h
    exact absurd h Bool.false_ne_true

/-- Words behind one that has started: the first of them belongs to it. -/
def behindStart : List (List Char) → List Char
  | [] => []
  | w :: ws => w.map Char.toLower ++ ws.flatMap capitalise

theorem flatMap_capitalise_onFirstWord (c : Char) (ws : List (List Char)) :
    (onFirstWord c ws).flatMap capitalise = c.toUpper :: behindStart ws := by
  cases ws <;> simp [onFirstWord, capitalise, behindStart]

theorem behindStart_onFirstWord (c : Char) (ws : List (List Char)) :
    behindStart (onFirstWord c ws) = c.toLower :: behindStart ws := by
  cases ws <;> simp [onFirstWord, behindStart]

theorem capitalWords_cons (c : Char) (cs : List Char) :
    capitalWords (c :: cs) =
      if c.isAlphanum then
        if capitalJoins c cs then onFirstWord c (capitalWords cs) else [c] :: capitalWords cs
      else capitalWords cs := rfl

/-- Capitalised words letter by letter, from the start of a word and from inside one. -/
theorem flatMap_capitalWords (cs : List Char) :
    (capitalWords cs).flatMap capitalise = pascalFrom false cs ∧
      ((∀ c ∈ cs.head?, c.isAlphanum = true) →
        behindStart (capitalWords cs) = pascalFrom true cs) := by
  induction cs with
  | nil => exact ⟨rfl, fun _ => rfl⟩
  | cons c cs ih =>
    rw [capitalWords_cons, pascalFrom, pascalFrom]
    by_cases hc : c.isAlphanum = true
    · simp only [hc, if_true, Bool.false_eq_true, if_false]
      by_cases hj : capitalJoins c cs = true
      · -- the rest goes on inside the word
        have hcs : ∀ d ∈ cs.head?, d.isAlphanum = true := by
          intro d hd
          cases cs with
          | nil => cases hd
          | cons e cs =>
            cases hd
            exact (of_capitalJoins hj).1
        rw [if_pos hj, hj, flatMap_capitalise_onFirstWord, behindStart_onFirstWord, ih.2 hcs]
        exact ⟨rfl, fun _ => rfl⟩
      · rw [Bool.not_eq_true] at hj
        rw [hj, if_neg Bool.false_ne_true, ← ih.1]
        exact ⟨rfl, fun _ => rfl⟩
    · simp only [hc, if_false, Bool.false_eq_true]
      exact ⟨ih.1, fun h => absurd (h c rfl) hc⟩

/-- **Pascal case letter by letter.** -/
theorem pascalChars_eq (cs : List Char) : pascalChars cs = pascalFrom false cs :=
  (flatMap_capitalWords cs).1

/-- Pascal case leaves letters and digits in order, from the start of a word and behind
any character. -/
theorem isFormed_pascalFrom (cs : List Char) :
    IsFormed false (pascalFrom false cs) = true ∧
      ∀ c : Char, IsFormed c.isAlpha (pascalFrom (capitalJoins c cs) cs) = true := by
  induction cs with
  | nil => exact ⟨rfl, fun _ => rfl⟩
  | cons d cs ih =>
    have hstart : IsFormed false (pascalFrom false (d :: cs)) = true := by
      rw [pascalFrom]
      by_cases hd : d.isAlphanum = true
      · rw [if_pos hd, if_neg Bool.false_ne_true, isFormed_cons,
          Char.isAlpha_toUpper_eq_isAlpha, Char.isLower_toUpper_eq_false]
        exact ⟨isAlphanum_toUpper hd, fun hf => absurd hf Bool.false_ne_true, ih.2 d⟩
      · rw [if_neg hd]
        exact ih.1
    refine ⟨hstart, ?_⟩
    intro c
    by_cases hj : capitalJoins c (d :: cs) = true
    · -- the character goes on with the word: behind a letter, or a digit
      obtain ⟨hd, hl, hc⟩ := of_capitalJoins hj
      rw [hj, pascalFrom, if_pos hd, if_pos rfl, hl, isFormed_cons]
      exact ⟨hd, hc, ih.2 d⟩
    · rw [Bool.not_eq_true] at hj
      rw [hj]
      exact IsFormed.mono hstart fun hf => absurd hf Bool.false_ne_true

/-- Letters and digits in order are in pascal case. -/
theorem pascalFrom_eq_self (cs : List Char) :
    (IsFormed false cs = true → pascalFrom false cs = cs) ∧
      ∀ c : Char, IsFormed c.isAlpha cs = true → pascalFrom (capitalJoins c cs) cs = cs := by
  induction cs with
  | nil => exact ⟨fun _ => rfl, fun _ _ => rfl⟩
  | cons d cs ih =>
    have hstart : d.isAlphanum = true → d.isLower = false → IsFormed d.isAlpha cs = true →
        pascalFrom false (d :: cs) = d :: cs := by
      intro hd hl h
      rw [pascalFrom, if_pos hd, if_neg Bool.false_ne_true, ih.2 d h,
        Char.toUpper_eq_of_not_isLower (by simp [hl])]
    refine ⟨?_, ?_⟩
    · intro h
      rw [isFormed_cons] at h
      exact hstart h.1 (Bool.eq_false_iff.mpr fun hl => Bool.false_ne_true (h.2.1 hl)) h.2.2
    · intro c h
      rw [isFormed_cons] at h
      by_cases hj : capitalJoins c (d :: cs) = true
      · rw [hj, pascalFrom, if_pos h.1, if_pos rfl, (of_capitalJoins hj).2.1, ih.2 d h.2.2]
      · -- a small letter behind a letter would belong to the word
        have hl : d.isLower = false := by
          rw [Bool.eq_false_iff]
          intro hl
          exact hj (by simp [capitalJoins, h.2.1 hl, hl])
        rw [Bool.not_eq_true] at hj
        rw [hj]
        exact hstart h.1 hl h.2.2

/-! ### Names made from paths -/

theorem lt_of_isAlphanum {c : Char} (h : c.isAlphanum = true) : c.val < 128 := by
  rw [UInt32.lt_iff_toNat_lt]
  show c.val.toNat < 128
  simp only [Char.isAlphanum, Char.isAlpha, Char.isUpper, Char.isLower, Char.isDigit,
    Bool.or_eq_true, Bool.and_eq_true, decide_eq_true_eq, ge_iff_le,
    UInt32.le_iff_toNat_le] at h
  rcases h with (⟨-, h⟩ | ⟨-, h⟩) | ⟨-, h⟩
  · exact Nat.lt_of_le_of_lt (show c.val.toNat ≤ 90 from h) (by decide)
  · exact Nat.lt_of_le_of_lt (show c.val.toNat ≤ 122 from h) (by decide)
  · exact Nat.lt_of_le_of_lt (show c.val.toNat ≤ 57 from h) (by decide)

theorem capitalFirst_of_isFormed {cs : List Char} (h : IsFormed false cs = true) :
    capitalFirst cs = cs := by
  refine capitalFirst_eq_self ?_
  intro c hc
  cases cs with
  | nil => cases hc
  | cons d cs =>
    obtain rfl : d = c := Option.some.inj hc
    rw [isFormed_cons] at h
    rw [Text.capitals_of_lt (lt_of_isAlphanum h.1), Char.toUpper_eq_of_not_isLower]
    exact fun hl => Bool.false_ne_true (h.2.1 hl)

theorem isFormed_typeNameChars {cs : List Char} (h : IsFormed false cs = true) :
    IsFormed false (typeNameChars cs) = true := by
  rw [typeNameChars, capitalFirst_of_isFormed h, foldAcronyms_eq]
  exact isFormed_foldFrom h id

theorem isFormed_flatMap {parts : List (List Char)} :
    IsFormed false (parts.flatMap pascalChars) = true := by
  induction parts with
  | nil => rfl
  | cons p parts ih =>
    rw [List.flatMap_cons]
    refine isFormed_append ?_ ih
    rw [pascalChars_eq]
    exact (isFormed_pascalFrom p).1

/-- **A name made from a path is letters and digits in order.** -/
theorem isFormed_ofPath (path : String) : IsFormed false (ofPath path).toList = true := by
  rw [ofPath, String.toList_ofList]
  exact isFormed_typeNameChars isFormed_flatMap

/-- There is no dot in a name made from a path. -/
theorem notMem_ofPath (path : String) : '.' ∉ (ofPath path).toList := by
  intro h
  have := isAlphanum_of_isFormed (isFormed_ofPath path) _ h
  exact absurd this (by decide)

theorem cutAt_of_notMem {sep : Char} {cs : List Char} (h : sep ∉ cs) :
    Text.cutAt sep cs = [cs] := by
  induction cs with
  | nil => rfl
  | cons c cs ih =>
    rw [List.mem_cons, not_or] at h
    rw [Text.cutAt, if_neg (Ne.symm h.1), ih h.2]

/-- **A name made from a path names itself.** -/
theorem ofPath_ofPath (path : String) : ofPath (ofPath path) = ofPath path := by
  have hformed := isFormed_ofPath path
  have hname : typeNameChars (ofPath path).toList = (ofPath path).toList := by
    rw [ofPath, String.toList_ofList, typeNameChars_typeNameChars]
  conv_lhs => rw [ofPath]
  rw [cutAt_of_notMem (notMem_ofPath path), List.flatMap_singleton, pascalChars_eq,
    (pascalFrom_eq_self _).1 hformed, hname, String.ofList_toList]

/-! ### Names of definitions -/

/-- Folding brings no dot, for it changes capitals only. -/
theorem dot_notMem_foldFrom {b : Bool} {cs : List Char} (h : '.' ∉ cs) : '.' ∉ foldFrom b cs := by
  induction cs generalizing b with
  | nil => exact h
  | cons c cs ih =>
    rw [List.mem_cons, not_or] at h
    rw [foldFrom, List.mem_cons, not_or]
    refine ⟨fun hd => ?_, ih h.2⟩
    split at hd
    · next hc =>
      simp only [Bool.and_eq_true] at hc
      have halpha : c.toLower.isAlpha = true := by
        rw [Char.isAlpha_toLower_eq_isAlpha, Char.isAlpha, hc.1.2, Bool.true_or]
      rw [← hd] at halpha
      exact absurd halpha (by decide)
    · exact h.1 hd

theorem dot_notMem_typeNameChars {cs : List Char} (h : '.' ∉ cs) : '.' ∉ typeNameChars cs := by
  rw [typeNameChars, foldAcronyms_eq]
  refine dot_notMem_foldFrom ?_
  cases cs with
  | nil => exact h
  | cons c cs =>
    rw [List.mem_cons, not_or] at h
    rw [capitalFirst, List.mem_append, not_or]
    exact ⟨fun hd => h.1 (Text.eq_dot_of_mem_capitals hd).symm, h.2⟩

theorem notMem_cutAt {sep : Char} {cs part : List Char} (h : part ∈ Text.cutAt sep cs) :
    sep ∉ part := by
  induction cs generalizing part with
  | nil =>
    rw [List.mem_singleton.mp h]
    exact List.not_mem_nil
  | cons c cs ih =>
    rw [Text.cutAt] at h
    split at h
    · rcases List.mem_cons.mp h with rfl | h
      · exact List.not_mem_nil
      · exact ih h
    · next hc =>
      cases hcut : Text.cutAt sep cs with
      | nil =>
        rw [hcut] at h
        rw [List.mem_singleton.mp h, List.mem_singleton]
        exact Ne.symm hc
      | cons p ps =>
        rw [hcut] at h ih
        rcases List.mem_cons.mp h with rfl | h
        · rw [List.mem_cons, not_or]
          exact ⟨Ne.symm hc, ih List.mem_cons_self⟩
        · exact ih (List.mem_cons_of_mem p h)

/-- There is no dot in the type name of a definition. -/
theorem notMem_ofDefinition (path : String) : '.' ∉ (ofDefinition path).toList := by
  rw [ofDefinition, typeName, lastComponent, String.toList_ofList, String.toList_ofList]
  refine dot_notMem_typeNameChars ?_
  cases hcut : (Text.cutAt '.' path.toList).getLast? with
  | none =>
    rw [List.getLastD_eq_getLast?, hcut]
    exact List.not_mem_nil
  | some part =>
    rw [List.getLastD_eq_getLast?, hcut]
    exact notMem_cutAt (List.mem_of_getLast? hcut)

/-- A name without a dot is its last part. -/
theorem ofDefinition_of_notMem {name : String} (h : '.' ∉ name.toList) :
    ofDefinition name = typeName name := by
  rw [ofDefinition, lastComponent, cutAt_of_notMem h, List.getLastD_eq_getLast?,
    List.getLast?_singleton, Option.getD_some, String.ofList_toList]

/-- **The type name of a definition names itself.** -/
theorem ofDefinition_ofDefinition (path : String) :
    ofDefinition (ofDefinition path) = ofDefinition path := by
  rw [ofDefinition_of_notMem (notMem_ofDefinition path)]
  exact isTypeName_ofDefinition path

end Name
end SchemaScript
