/-!
# Blanks and line boundaries

## Main definitions

* `isBlank` — white space of any script, the four information separators included.
* `trimEnd` — a text without the blanks at its end.
* `lines` — a text cut at its line boundaries; a carriage return followed by a line
  feed is one boundary, and a boundary at the very end opens no further line.
-/

namespace SchemaScript
namespace Text

/-! ### Blanks -/

/-- The codes of white space from 128 on. -/
def wideBlanks : List Nat :=
  [0x85, 0xa0, 0x1680, 0x2000, 0x2001, 0x2002, 0x2003, 0x2004, 0x2005, 0x2006, 0x2007, 0x2008,
    0x2009, 0x200a, 0x2028, 0x2029, 0x202f, 0x205f, 0x3000]

/-- The character is white space. -/
def isBlank (c : Char) : Bool :=
  let n := c.toNat
  (9 ≤ n && n ≤ 13) || (28 ≤ n && n ≤ 32) || wideBlanks.contains n

/-- The text without the blanks at its end. -/
def trimEnd : List Char → List Char
  | [] => []
  | c :: cs =>
    match trimEnd cs with
    | [] => if isBlank c then [] else [c]
    | rest => c :: rest

/-! ### Lines -/

/-- The codes at which a line ends. -/
def lineEnds : List Nat := [10, 11, 12, 13, 28, 29, 30, 0x85, 0x2028, 0x2029]

/-- The character ends a line. -/
def isLineEnd (c : Char) : Bool := lineEnds.contains c.toNat

/-- The character continues the first line of a list of lines, or starts it. -/
def onFirst (c : Char) : List (List Char) → List (List Char)
  | [] => [[c]]
  | l :: ls => (c :: l) :: ls

/-- The text cut at its line boundaries. -/
def lines : List Char → List (List Char)
  | [] => []
  | '\r' :: '\n' :: cs => [] :: lines cs
  | c :: cs => if isLineEnd c then [] :: lines cs else onFirst c (lines cs)

/-! ### Small laws -/

@[simp] theorem lines_nil : lines [] = [] := rfl

end Text
end SchemaScript
