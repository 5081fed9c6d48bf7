import SchemaScript.Name.Case

/-!
# Names of enum members

A member is named after its value in capitals, with underscores between the words.
A name that would be empty or start with a digit gets a word of its own in front.

## Main definitions

* `memberName` — the name for a value.
* `freshName` — the first numbered form of a name that is not taken.
-/

namespace SchemaScript
namespace Name

/-- The name of a member for a value, on characters. -/
def memberChars (cs : List Char) : List Char :=
  match (snakeChars cs).map Char.toUpper with
  | [] => "EMPTY".toList
  | c :: name => if c.isDigit then "VALUE_".toList ++ c :: name else c :: name

/-- The name of a member for a value. -/
def memberName (value : String) : String := String.ofList (memberChars value.toList)

/-! ### Numbered names -/

/-- The name with a number behind it. -/
def numbered (base : String) (n : Nat) : String := base ++ "_" ++ n.repr

/-- The first numbered form of the name, from `n` on, that is not among the taken
names.  One of the next `fuel` numbers is free if fewer than `fuel` names are taken. -/
def freshFrom (base : String) (taken : List String) : Nat → Nat → String
  | 0, n => numbered base n
  | fuel + 1, n =>
    if (numbered base n) ∈ taken then freshFrom base taken fuel (n + 1) else numbered base n

/-- The first numbered form of the name that is not taken; numbers start at two. -/
def freshName (base : String) (taken : List String) : String :=
  freshFrom base taken (taken.length + 1) 2

end Name
end SchemaScript
