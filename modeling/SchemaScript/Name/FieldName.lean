import SchemaScript.Name.Case
import SchemaScript.Text.Quoted
import SchemaScript.Text.Upper

/-!
# Names of fields

A field is named after its property, with a small first letter and without a leading
dollar sign.  A name that is no identifier is written between quotes.

## Main definitions

* `fieldName` — the name for a property.
* `isPlainKey` — the name can be written as it is.
* `fieldKey` — the name as it is written.
-/

namespace SchemaScript
namespace Name

/-! ### Names -/

/-- The name with a capital first letter made small; a name without letters and
digits of its own stays. -/
def smallFirst (cs : List Char) : List Char :=
  match cs with
  | [] => []
  | c :: _ =>
    if Text.isCapital c then
      match camelChars cs with
      | [] => cs
      | name => name
    else cs

/-- The name of the field for a property, before it is written: with a small first
letter, and without a leading dollar sign. -/
def fieldName (property : String) : String :=
  match smallFirst property.toList with
  | '$' :: cs => String.ofList cs
  | cs => String.ofList cs

/-! ### Written names -/

/-- The character can stand at the start of an identifier. -/
def isIdentifierStart (c : Char) : Bool := c.isAlpha || c == '_' || c == '$'

/-- The character can stand in an identifier. -/
def isIdentifierChar (c : Char) : Bool := c.isAlphanum || c == '_' || c == '$'

/-- The characters go on an identifier, up to the end or to one final line feed. -/
def continuesIdentifier : List Char → Bool
  | [] => true
  | ['\n'] => true
  | c :: cs => isIdentifierChar c && continuesIdentifier cs

/-- The name can be written as it is. -/
def isPlainKey : List Char → Bool
  | [] => false
  | c :: cs => isIdentifierStart c && continuesIdentifier cs

/-- The name of a field as it is written: quoted if it is no identifier. -/
def fieldKey (name : String) : String :=
  if isPlainKey name.toList then name else String.ofList (Text.jsonAscii name.toList)

end Name
end SchemaScript
