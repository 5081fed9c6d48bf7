import SchemaScript.Decimal.Shortest
import SchemaScript.Json.Basic
import SchemaScript.Text.Quoted

/-!
# Values in messages

A message shows a JSON value as a literal: `None`, `True` and `False` for the
constants, items between brackets, texts in their readable quoted form.

## Main definitions

* `Binary64.display` — the text of a binary number.
* `Json.literal` — the literal of a value.
* `Json.display` — the literal, but a text stands for itself.
-/

namespace SchemaScript

/-- Numbers in messages are written out in full while their point stands between
three places before the digits and sixteen after; exponents have two digits. -/
def messageLayout : Decimal.DecimalLayout := ⟨-3, 16, 2⟩

/-- The text of a binary number: the fewest digits that read back. -/
def Binary64.display : Binary64 → List Char
  | nan => "nan".toList
  | infinite negative => if negative then "-inf".toList else "inf".toList
  | finite negative mantissa exponent =>
    let size :=
      if mantissa = 0 then ['0', '.', '0']
      else
        let (digits, scale) := Decimal.shortest mantissa exponent
        Decimal.layout messageLayout digits scale
    if negative then '-' :: size else size

namespace Json

/-- Pieces joined by a comma and a blank. -/
def commaJoined : List (List Char) → List Char
  | [] => []
  | [p] => p
  | p :: ps => p ++ ',' :: ' ' :: commaJoined ps

mutual

/-- The literal of a value, as characters. -/
def literalChars : Json → List Char
  | null => "None".toList
  | bool b => if b then "True".toList else "False".toList
  | int i => i.repr.toList
  | float x => x.display
  | str s => Text.readable s.toList
  | arr items => '[' :: commaJoined (literalItems items) ++ [']']
  | obj fs => '\x7b' :: commaJoined (literalFields fs) ++ ['\x7d']

/-- The literals of the items of an array. -/
def literalItems : List Json → List (List Char)
  | [] => []
  | v :: vs => literalChars v :: literalItems vs

/-- The literals of the fields of an object. -/
def literalFields : List (String × Json) → List (List Char)
  | [] => []
  | (k, v) :: fs => (Text.readable k.toList ++ ':' :: ' ' :: literalChars v) :: literalFields fs

end

/-- The literal of a value. -/
def literal (v : Json) : String := String.ofList v.literalChars

/-- The text of a value: a string itself, any other value as a literal. -/
def display : Json → String
  | str s => s
  | v => v.literal

end Json
end SchemaScript
