/-!
# Starts of texts

## Main definitions

* `after?` — what follows a given start of a text.
-/

namespace SchemaScript
namespace Text

/-- The characters after the given start, if the text starts so. -/
def after? : List Char → List Char → Option (List Char)
  | [], cs => some cs
  | w :: ws, c :: cs => if w = c then after? ws cs else none
  | _ :: _, [] => none

theorem after?_append (start cs : List Char) : after? start (start ++ cs) = some cs := by
  induction start with
  | nil => rfl
  | cons w ws ih => simp [after?, ih]

/-- A text that starts so is the start and what follows. -/
theorem eq_append_of_after? {start cs rest : List Char} (h : after? start cs = some rest) :
    cs = start ++ rest := by
  induction start generalizing cs with
  | nil => simpa [after?] using h
  | cons w ws ih =>
    cases cs with
    | nil => simp [after?] at h
    | cons c cs =>
      simp only [after?] at h
      split at h
      · next e => subst e; simp [ih h]
      · simp at h

end Text
end SchemaScript
