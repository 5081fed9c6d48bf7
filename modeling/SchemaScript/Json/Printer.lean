import SchemaScript.Json.Literal

/-!
# JSON texts

A value written as a JSON text of printable ASCII characters, without blanks.

## Main definitions

* `Json.compact` — the text of a value.
-/

namespace SchemaScript

/-- The JSON text of a binary number. -/
def Binary64.jsonChars : Binary64 → List Char
  | nan => "NaN".toList
  | infinite negative => if negative then "-Infinity".toList else "Infinity".toList
  | x => x.display

namespace Json

/-- Pieces joined by commas. -/
def separated : List (List Char) → List Char
  | [] => []
  | [p] => p
  | p :: ps => p ++ ',' :: separated ps

mutual

/-- The JSON text of a value, as characters. -/
def compactChars : Json → List Char
  | null => "null".toList
  | bool b => if b then "true".toList else "false".toList
  | int i => i.repr.toList
  | float x => x.jsonChars
  | str s => Text.jsonAscii s.toList
  | arr items => '[' :: separated (compactItems items) ++ [']']
  | obj fs => '\x7b' :: separated (compactFields fs) ++ ['\x7d']

/-- The JSON texts of the items of an array. -/
def compactItems : List Json → List (List Char)
  | [] => []
  | v :: vs => compactChars v :: compactItems vs

/-- The JSON texts of the fields of an object. -/
def compactFields : List (String × Json) → List (List Char)
  | [] => []
  | (k, v) :: fs => (Text.jsonAscii k.toList ++ ':' :: compactChars v) :: compactFields fs

end

/-- The JSON text of a value. -/
def compact (v : Json) : String := String.ofList v.compactChars

end Json
end SchemaScript
