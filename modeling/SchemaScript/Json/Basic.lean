import SchemaScript.Decimal.Binary64
import SchemaScript.Entries

/-!
# JSON values

A schema is a JSON value read without checking: any value may stand anywhere, and
the order of an object's fields is kept, for declarations follow it.

## Main definitions

* `Json` — values; whole numbers and binary numbers are told apart.
* `Json.get?` — the value of an object's field.
* `Json.truthy` — whether a value counts as given: empty and zero values do not.
* `Json.height` — the nesting depth of a value.
-/

namespace SchemaScript

/-- A JSON value, with the fields of an object in the order of the text. -/
inductive Json
  | null
  | bool (b : Bool)
  /-- A number written without point and exponent. -/
  | int (i : Int)
  /-- A number written with a point or an exponent. -/
  | float (x : Binary64)
  | str (s : String)
  | arr (items : List Json)
  | obj (fields : List (String × Json))
  deriving Inhabited

namespace Json

/-- The fields of an object; other values have none. -/
def fields : Json → List (String × Json)
  | obj fs => fs
  | _ => []

/-- The value of a field, if the value is an object that has it. -/
def get? (key : String) (v : Json) : Option Json := Entries.find? key v.fields

/-- The value of a field, with `null` for a field that is absent. -/
def get (key : String) (v : Json) : Json := (v.get? key).getD null

/-- The value counts as given: `null`, `false`, zeros and empty values do not. -/
def truthy : Json → Bool
  | null => false
  | bool b => b
  | int i => i != 0
  | float x => !x.isZero
  | str s => s != ""
  | arr items => !items.isEmpty
  | obj fs => !fs.isEmpty

/-- The value is an object. -/
def isObject : Json → Bool
  | obj _ => true
  | _ => false

/-- The value is `null`. -/
def isNull : Json → Bool
  | null => true
  | _ => false

/-- The text of a string value. -/
def str? : Json → Option String
  | str s => some s
  | _ => none

/-- The value is this string. -/
def isStr (v : Json) (s : String) : Bool := v.str? == some s

/-! ### Nesting depth -/

mutual

/-- How deep arrays and objects are nested in the value. -/
def height : Json → Nat
  | null => 0
  | bool _ => 0
  | int _ => 0
  | float _ => 0
  | str _ => 0
  | arr items => heightItems items + 1
  | obj fs => heightFields fs + 1

/-- The greatest nesting depth among the items of an array. -/
def heightItems : List Json → Nat
  | [] => 0
  | v :: vs => max v.height (heightItems vs)

/-- The greatest nesting depth among the fields of an object. -/
def heightFields : List (String × Json) → Nat
  | [] => 0
  | (_, v) :: fs => max v.height (heightFields fs)

end

end Json
end SchemaScript
