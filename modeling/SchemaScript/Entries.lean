/-!
# Lists of named values

The fields of an object and the entries of a table are lists of named values in
which a name stands once.  A name that is put again keeps its place.

## Main definitions

* `Entries.find?` — the value under a name.
* `Entries.put` — the list with a value under a name.
-/

namespace SchemaScript
namespace Entries

universe u

variable {β : Type u}

/-- The value under a name. -/
def find? (name : String) : List (String × β) → Option β
  | [] => none
  | (k, v) :: es => if k = name then some v else find? name es

/-- The entries with a value put under a name: in its place if the name is there, at
the end if not. -/
def put (name : String) (v : β) : List (String × β) → List (String × β)
  | [] => [(name, v)]
  | (k, w) :: es => if k = name then (k, v) :: es else (k, w) :: put name v es

@[simp] theorem find?_nil (name : String) : find? name ([] : List (String × β)) = none := rfl

/-- What was put last under a name is found there, and nothing else changes. -/
theorem find?_put (name k : String) (v : β) (es : List (String × β)) :
    find? k (put name v es) = if name = k then some v else find? k es := by
  induction es with
  | nil => simp [put, find?]
  | cons e es ih =>
    obtain ⟨a, w⟩ := e
    by_cases h : a = name
    · subst h
      simp only [put, if_pos, find?]
      split <;> rfl
    · simp only [put, if_neg h, find?, ih]
      split
      · next h' => rw [if_neg fun e => h (h'.trans e.symm)]
      · rfl

end Entries
end SchemaScript
