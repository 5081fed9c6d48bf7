/-!
# Words of a name

A name is cut into words of ASCII letters and digits; everything else separates
words and is dropped.  Two rules say where a word ends inside a run of letters:

* *capitalised words*: a word is a capital with the small letters after it, or small
  letters alone, or digits, so that each capital starts a word;
* *acronym words*: a run of capitals is one word, less its last capital if a small
  letter follows, which starts the next word.

## Main definitions

* `words` — the words of a text under a rule.
* `capitalWords`, `acronymWords` — the two rules applied.
* `flatten_words` — no letter or digit is lost.
-/

namespace SchemaScript
namespace Name

/-- The text starts with a small letter. -/
def startsSmall : List Char → Bool
  | [] => false
  | c :: _ => c.isLower

/-! ### Rules -/

/-- Whether a letter or digit and the text after it belong to one word. -/
abbrev Joins := Char → List Char → Bool

/-- Small letters join the letter before them, and digits join digits. -/
def capitalJoins : Joins
  | _, [] => false
  | c, d :: _ => (c.isAlpha && d.isLower) || (c.isDigit && d.isDigit)

/-- In addition, capitals join unless a small letter follows them. -/
def acronymJoins : Joins
  | _, [] => false
  | c, d :: rest =>
    (c.isAlpha && d.isLower) || (c.isDigit && d.isDigit) ||
      (c.isUpper && d.isUpper && !startsSmall rest)

/-! ### Words -/

/-- The character put at the start of the first word. -/
def onFirstWord (c : Char) : List (List Char) → List (List Char)
  | [] => [[c]]
  | w :: ws => (c :: w) :: ws

/-- The words of a text.  A character that joins the text after it is the start of
the first word there. -/
def words (joins : Joins) : List Char → List (List Char)
  | [] => []
  | c :: cs =>
    if c.isAlphanum then
      if joins c cs then onFirstWord c (words joins cs) else [c] :: words joins cs
    else words joins cs

/-- The words in which every capital starts a word. -/
def capitalWords : List Char → List (List Char) := words capitalJoins

/-- The words in which a run of capitals stays together. -/
def acronymWords : List Char → List (List Char) := words acronymJoins

/-! ### Small laws -/

@[simp] theorem words_nil (joins : Joins) : words joins [] = [] := rfl

@[simp] theorem flatten_onFirstWord (c : Char) (ws : List (List Char)) :
    (onFirstWord c ws).flatten = c :: ws.flatten := by
  cases ws <;> rfl

/-- Whatever the rule, the words hold the letters and digits of the text in order. -/
theorem flatten_words (joins : Joins) (cs : List Char) :
    (words joins cs).flatten = cs.filter Char.isAlphanum := by
  induction cs with
  | nil => rfl
  | cons c cs ih =>
    simp only [words, List.filter_cons]
    split
    · -- the letter starts the first word there, or is a word by itself
      split
      · rw [flatten_onFirstWord, ih]
      · rw [List.flatten_cons, List.singleton_append, ih]
    · exact ih

end Name
end SchemaScript
