/-!
# Parts of texts

## Main definitions

* `cutAt` — the parts of a text between separators.
-/

namespace SchemaScript
namespace Text

/-- The text cut at a separator, on characters; there is at least one part. -/
def cutAt (sep : Char) : List Char → List (List Char)
  | [] => [[]]
  | c :: cs =>
    if c = sep then [] :: cutAt sep cs
    else match cutAt sep cs with
      | [] => [[c]]
      | p :: ps => (c :: p) :: ps

end Text
end SchemaScript
