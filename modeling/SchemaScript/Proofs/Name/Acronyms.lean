import SchemaScript.Proofs.Name.TypeNames

/-!
# Acronyms letter by letter

Folding goes from run to run of capitals, and gives the last capital of a run back to the word
behind it where a small letter follows.  What becomes of a letter can yet be told from its
neighbours alone, wherever its run starts and ends.

## Main definitions

* `GoesOnAcronym` — the letter at a position goes on with an acronym.

## Main results

* `getElem?_foldAcronyms` — folding by positions.
* `typeName_by_position` — the type name for a text by positions.
-/

namespace SchemaScript
namespace Name

/-- The letter at the position and the one before it are capitals, and what follows is no small
letter: it is another character, or the end. -/
def GoesOnAcronym (cs : List Char) (i : Nat) : Prop :=
  0 < i ∧ cs[i - 1]?.any Char.isUpper ∧ cs[i]?.any Char.isUpper ∧ cs[i + 1]?.all (!·.isLower)

instance (cs : List Char) (i : Nat) : Decidable (GoesOnAcronym cs i) :=
  inferInstanceAs (Decidable (_ ∧ _))

/-- Only the neighbours count: a character further in front makes no difference. -/
theorem goesOnAcronym_cons (b : Char) (cs : List Char) (i : Nat) :
    GoesOnAcronym (b :: cs) (i + 2) ↔ GoesOnAcronym cs (i + 1) := by
  simp [GoesOnAcronym]

/-- Folding by positions, with the character before the text in view. -/
theorem getElem?_foldFrom (b : Char) (cs : List Char) (i : Nat) :
    (foldFrom b.isUpper cs)[i]? =
      cs[i]?.map fun c => if GoesOnAcronym (b :: cs) (i + 1) then c.toLower else c := by
  induction cs generalizing b i with
  | nil => rfl
  | cons c cs ih =>
    rw [foldFrom]
    cases i with
    | zero =>
      have hsmall : cs[0]?.all (!·.isLower) = !startsSmall cs := by cases cs <;> rfl
      simp [GoesOnAcronym, hsmall, and_assoc]
    | succ i => simp only [List.getElem?_cons_succ, ih, goesOnAcronym_cons]

/-- **Folding by positions**: a letter is made small if it goes on with an acronym. -/
theorem getElem?_foldAcronyms (cs : List Char) (i : Nat) :
    (foldAcronyms cs)[i]? =
      cs[i]?.map fun c => if GoesOnAcronym cs i then c.toLower else c := by
  -- a blank in front is no capital
  have hblank : GoesOnAcronym (' ' :: cs) (i + 1) ↔ GoesOnAcronym cs i := by
    cases i with
    | zero => simp [GoesOnAcronym]
    | succ i => exact goesOnAcronym_cons ' ' cs i
  rw [foldAcronyms_eq, show false = ' '.isUpper from rfl, getElem?_foldFrom]
  simp only [hblank]

/-- **The type name for a text by positions.**  It is as long as the text with its first character
in the capital form; a capital behind a capital is made small there, unless a small letter
follows it, and everything else stays. -/
theorem typeName_by_position (s : String) :
    (s = "" → typeName s = "") ∧
    ∀ (c : Char) (cs : List Char), s.toList = c :: cs →
      (typeName s).toList.length = (Text.capitals c ++ cs).length ∧
      ∀ i : Nat, (typeName s).toList[i]? = (Text.capitals c ++ cs)[i]?.map fun d =>
        if GoesOnAcronym (Text.capitals c ++ cs) i then d.toLower else d := by
  constructor
  · rintro rfl
    simp [typeName, typeNameChars, capitalFirst, foldAcronyms]
  · intro c cs hs
    have hchars : (typeName s).toList = foldAcronyms (Text.capitals c ++ cs) := by
      rw [typeName, String.toList_ofList, hs, typeNameChars, capitalFirst]
    rw [hchars]
    refine ⟨?_, getElem?_foldAcronyms _⟩
    rw [foldAcronyms_eq, length_foldFrom]

/-- In a name that starts with a small letter the `A` and the `R` go on with the acronym, and the
second `B` starts a word. -/
theorem typeName_by_position_fooBARBaz :
    "fooBARBaz".toList = 'f' :: "ooBARBaz".toList ∧ typeName "fooBARBaz" = "FooBarBaz" := by
  have hchars : "fooBARBaz".toList = 'f' :: "ooBARBaz".toList := rfl
  obtain ⟨hlength, hposition⟩ := (typeName_by_position "fooBARBaz").2 'f' _ hchars
  have hlength' : (typeName "fooBARBaz").toList.length = "FooBarBaz".toList.length :=
    hlength.trans (by decide +kernel)
  have hall : ∀ i < 9, ((Text.capitals 'f' ++ "ooBARBaz".toList)[i]?.map fun d =>
      if GoesOnAcronym (Text.capitals 'f' ++ "ooBARBaz".toList) i then d.toLower else d) =
        "FooBarBaz".toList[i]? := by decide +kernel
  refine ⟨hchars, String.toList_inj.mp (List.ext_getElem? fun i => ?_)⟩
  by_cases hi : i < 9
  · rw [hposition, hall i hi]
  · have hend : "FooBarBaz".toList.length ≤ i := Nat.not_lt.mp hi
    rw [List.getElem?_eq_none hend, List.getElem?_eq_none (hlength' ▸ hend)]

end Name
end SchemaScript
