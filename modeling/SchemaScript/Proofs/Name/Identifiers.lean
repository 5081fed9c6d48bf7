import SchemaScript.Name.FieldName
import SchemaScript.Proofs.Name.TypeNames

/-!
# Identifiers among names

The two ways to a type name treat the characters that no identifier has differently.  The
type name of a definition keeps all of them but for the capital form of the first one, so it
is an identifier only if the last part of the name was one in that form.  A name made from a
path keeps letters and digits only, so nothing but a digit in front, or nothing at all being
left, can spoil it.

## Main definitions

* `formsIdentifier`, `IsIdentifier` — a letter, an underscore or a dollar sign, and any number
  of these and digits.
* `leadsWithLetter` — the first letter or digit of a text is a letter.

## Main results

* `isIdentifier_ofDefinition_iff` — when the type name of a definition is an identifier.
* `isIdentifier_ofPath_iff` — when a name made from a path is one.
-/

namespace SchemaScript
namespace Name

/-- The characters form an identifier. -/
def formsIdentifier : List Char → Bool
  | [] => false
  | c :: cs => isIdentifierStart c && cs.all isIdentifierChar

/-- The text is an identifier: an ASCII letter, `_` or `$`, and then only ASCII letters,
digits, `_` and `$`. -/
def IsIdentifier (name : String) : Prop := formsIdentifier name.toList = true

instance (name : String) : Decidable (IsIdentifier name) := inferInstanceAs (Decidable (_ = _))

/-- The first letter or digit of the characters is a letter, and there is one. -/
def leadsWithLetter (cs : List Char) : Bool := (cs.find? Char.isAlphanum).any Char.isAlpha

/-! ### Characters -/

theorem isIdentifierChar_of_isAlpha {c : Char} (h : c.isAlpha = true) :
    isIdentifierChar c = true := by
  simp [isIdentifierChar, Char.isAlphanum, h]

theorem isIdentifierChar_of_isAlphanum {c : Char} (h : c.isAlphanum = true) :
    isIdentifierChar c = true := by
  simp [isIdentifierChar, h]

/-- What starts an identifier goes on in one. -/
theorem isIdentifierChar_of_isIdentifierStart {c : Char} (h : isIdentifierStart c = true) :
    isIdentifierChar c = true := by
  simp only [isIdentifierStart, isIdentifierChar, Char.isAlphanum, Bool.or_eq_true] at h ⊢
  tauto

theorem isIdentifierStart_of_isAlphanum {c : Char} (h : c.isAlphanum = true) :
    isIdentifierStart c = c.isAlpha := by
  have hne : ∀ d : Char, d.isAlphanum = false → (c == d) = false := by
    intro d hd
    rw [beq_eq_false_iff_ne]
    rintro rfl
    rw [hd] at h
    cases h
  simp [isIdentifierStart, hne '_' (by decide), hne '$' (by decide)]

theorem isIdentifierChar_of_mem {name : String} (h : IsIdentifier name) {c : Char}
    (hc : c ∈ name.toList) : isIdentifierChar c = true := by
  rw [IsIdentifier] at h
  cases hcs : name.toList with
  | nil =>
    rw [hcs] at hc
    exact absurd hc List.not_mem_nil
  | cons d ds =>
    rw [hcs] at h hc
    rw [formsIdentifier, Bool.and_eq_true, List.all_eq_true] at h
    rcases List.mem_cons.mp hc with rfl | hc
    · exact isIdentifierChar_of_isIdentifierStart h.1
    · exact h.2 c hc

/-! ### Folding acronyms -/

/-- A capital made small is in identifiers as before. -/
theorem isIdentifierChar_toLower {c : Char} (h : c.isUpper = true) :
    isIdentifierChar c.toLower = isIdentifierChar c := by
  have hc : c.isAlpha = true := by simp [Char.isAlpha, h]
  have hlower : c.toLower.isAlpha = true := by rw [Char.isAlpha_toLower_eq_isAlpha, hc]
  rw [isIdentifierChar_of_isAlpha hc, isIdentifierChar_of_isAlpha hlower]

/-- Folding makes capitals small only. -/
theorem all_isIdentifierChar_foldFrom (b : Bool) (cs : List Char) :
    (foldFrom b cs).all isIdentifierChar = cs.all isIdentifierChar := by
  induction cs generalizing b with
  | nil => rfl
  | cons c cs ih =>
    rw [foldFrom, List.all_cons, List.all_cons, ih]
    split
    · next h =>
      simp only [Bool.and_eq_true] at h
      rw [isIdentifierChar_toLower h.1.2]
    · rfl

theorem formsIdentifier_foldFrom (cs : List Char) :
    formsIdentifier (foldFrom false cs) = formsIdentifier cs := by
  cases cs with
  | nil => rfl
  | cons c cs =>
    rw [foldFrom, Bool.false_and, Bool.false_and, if_neg Bool.false_ne_true, formsIdentifier,
      formsIdentifier, all_isIdentifierChar_foldFrom]

theorem formsIdentifier_typeNameChars (cs : List Char) :
    formsIdentifier (typeNameChars cs) = formsIdentifier (capitalFirst cs) := by
  rw [typeNameChars, foldAcronyms_eq, formsIdentifier_foldFrom]

/-! ### Definitions -/

/-- **When the type name of a definition is an identifier**: when the last part of its name
is one with its first character in the capital form. -/
theorem isIdentifier_ofDefinition_iff (path : String) :
    IsIdentifier (ofDefinition path) ↔
      formsIdentifier (capitalFirst (lastComponent path).toList) = true := by
  rw [IsIdentifier, ofDefinition, typeName, String.toList_ofList, formsIdentifier_typeNameChars]

/-! ### Paths -/

/-- Pascal case keeps which characters are letters, and drops all that is no letter and no
digit. -/
theorem map_isAlpha_pascalFrom (b : Bool) (cs : List Char) :
    (pascalFrom b cs).map Char.isAlpha = (cs.filter Char.isAlphanum).map Char.isAlpha := by
  induction cs generalizing b with
  | nil => rfl
  | cons c cs ih =>
    rw [pascalFrom]
    by_cases hc : c.isAlphanum = true
    · rw [if_pos hc, List.map_cons, ih, List.filter_cons_of_pos hc, List.map_cons]
      cases b
      · rw [if_neg Bool.false_ne_true, Char.isAlpha_toUpper_eq_isAlpha]
      · rw [if_pos rfl, Char.isAlpha_toLower_eq_isAlpha]
    · rw [if_neg hc, ih, List.filter_cons_of_neg hc]

/-- The parts between dots hold all letters and digits in order. -/
theorem flatMap_filter_cutAt (cs : List Char) :
    (Text.cutAt '.' cs).flatMap (List.filter Char.isAlphanum) = cs.filter Char.isAlphanum := by
  induction cs with
  | nil => rfl
  | cons c cs ih =>
    rw [Text.cutAt]
    split
    · next hc => rw [hc, List.flatMap_cons, ih]; rfl
    · rw [List.filter_cons, ← ih]
      cases Text.cutAt '.' cs with
      | nil => by_cases hc : c.isAlphanum = true <;> simp [hc]
      | cons p ps => by_cases hc : c.isAlphanum = true <;> simp [hc]

/-- Letters and digits form an identifier if the first of them is a letter. -/
theorem formsIdentifier_of_forall_isAlphanum {cs : List Char}
    (h : ∀ c ∈ cs, c.isAlphanum = true) :
    formsIdentifier cs = (cs.map Char.isAlpha).head?.any id := by
  cases cs with
  | nil => rfl
  | cons c cs =>
    have hrest : cs.all isIdentifierChar = true := List.all_eq_true.mpr fun d hd =>
      isIdentifierChar_of_isAlphanum (h d (List.mem_cons_of_mem c hd))
    rw [formsIdentifier, hrest, Bool.and_true,
      isIdentifierStart_of_isAlphanum (h c List.mem_cons_self)]
    rfl

theorem leadsWithLetter_eq (cs : List Char) :
    leadsWithLetter cs = ((cs.filter Char.isAlphanum).map Char.isAlpha).head?.any id := by
  rw [leadsWithLetter, List.head?_map, List.head?_filter]
  cases cs.find? Char.isAlphanum <;> rfl

/-- **When a name made from a path is an identifier**: when the first letter or digit of the
path is a letter. -/
theorem isIdentifier_ofPath_iff (path : String) :
    IsIdentifier (ofPath path) ↔ leadsWithLetter path.toList = true := by
  have hformed : IsFormed false ((Text.cutAt '.' path.toList).flatMap pascalChars) = true :=
    isFormed_flatMap
  have hmap : ((Text.cutAt '.' path.toList).flatMap pascalChars).map Char.isAlpha =
      (path.toList.filter Char.isAlphanum).map Char.isAlpha := by
    rw [← flatMap_filter_cutAt, List.map_flatMap, List.map_flatMap]
    congr 1
    funext part
    rw [pascalChars_eq, map_isAlpha_pascalFrom]
  rw [IsIdentifier, ofPath, String.toList_ofList, formsIdentifier_typeNameChars,
    capitalFirst_of_isFormed hformed,
    formsIdentifier_of_forall_isAlphanum (isAlphanum_of_isFormed hformed), hmap,
    ← leadsWithLetter_eq]

/-- A digit at the start of a path stays at the start of the name. -/
example : ofPath "1.Foo.kind" = "1FooKind" ∧ ¬ IsIdentifier (ofPath "1.Foo.kind") := by
  decide +kernel

/-- What is put behind a text that leads with a letter does not matter. -/
theorem leadsWithLetter_append {cs : List Char} (h : leadsWithLetter cs = true)
    (ds : List Char) : leadsWithLetter (cs ++ ds) = true := by
  rw [leadsWithLetter] at h ⊢
  rw [List.find?_append]
  cases hfind : cs.find? Char.isAlphanum with
  | none =>
    rw [hfind] at h
    cases h
  | some c =>
    rw [hfind] at h
    exact h

/-- A name made from a path that leads with a letter does so, too. -/
theorem leadsWithLetter_ofPath {path : String} (h : leadsWithLetter path.toList = true) :
    leadsWithLetter (ofPath path).toList = true := by
  have hname := (isIdentifier_ofPath_iff path).mpr h
  have hall := isAlphanum_of_isFormed (isFormed_ofPath path)
  rw [IsIdentifier, formsIdentifier_of_forall_isAlphanum hall] at hname
  rwa [leadsWithLetter_eq, List.filter_eq_self.mpr hall]

end Name
end SchemaScript
