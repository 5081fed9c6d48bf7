import SchemaScript.Json.Basic
import SchemaScript.Text.Start

/-!
# Reading JSON texts

The reader takes the JSON grammar and, beyond it, the numbers `NaN`, `Infinity` and
`-Infinity`.  A repeated key keeps its first place and takes its last value.  A
number with a point or an exponent is rounded to a binary one.

Each function takes the characters to read and gives what it read together with the
characters left.  Twice the length of the text bounds the depth of the recursion: of
any two nested calls one takes a character.

## Main definitions

* `Json.readString?` — the characters of a string after its opening quote.
* `Json.readNumber?` — a number.
* `Json.parse?` — a whole text.
-/

namespace SchemaScript
namespace Json

/-! ### Blanks and digits -/

/-- The four blanks that JSON knows. -/
def isSpace (c : Char) : Bool := c = ' ' || c = '\t' || c = '\n' || c = '\r'

/-- The text after its leading blanks. -/
def skipSpace : List Char → List Char := List.dropWhile isSpace

/-- The value of a hexadecimal digit. -/
def hexDigit? (c : Char) : Option Nat :=
  if c.isDigit then some (c.toNat - '0'.toNat)
  else if 'a' ≤ c ∧ c ≤ 'f' then some (c.toNat - 'a'.toNat + 10)
  else if 'A' ≤ c ∧ c ≤ 'F' then some (c.toNat - 'A'.toNat + 10)
  else none

/-- Four hexadecimal digits. -/
def hexUnit? : List Char → Option (Nat × List Char)
  | a :: b :: c :: d :: cs => do
    let a ← hexDigit? a
    let b ← hexDigit? b
    let c ← hexDigit? c
    let d ← hexDigit? d
    return (((a * 16 + b) * 16 + c) * 16 + d, cs)
  | _ => none

/-- The number that decimal digits write. -/
def decimalValue (ds : List Char) : Nat :=
  ds.foldl (fun n d => n * 10 + (d.toNat - '0'.toNat)) 0

/-! ### Strings -/

/-- The character that a short escape stands for. -/
def unescape? : Char → Option Char
  | '"' => some '"'
  | '\\' => some '\\'
  | '/' => some '/'
  | 'b' => some '\x08'
  | 'f' => some '\x0c'
  | 'n' => some '\n'
  | 'r' => some '\r'
  | 't' => some '\t'
  | _ => none

/-- The character of a 16-bit unit that stands alone; half a pair is replaced. -/
def unitChar (n : Nat) : Char := if n < 0xd800 ∨ 0xe000 ≤ n then Char.ofNat n else '\ufffd'

/-- The character of a pair of units. -/
def pairChar (high low : Nat) : Char :=
  Char.ofNat (0x10000 + (high - 0xd800) * 0x400 + (low - 0xdc00))

/-- The low unit that the text goes on with, if it does. -/
def lowUnit? : List Char → Option (Nat × List Char)
  | '\\' :: 'u' :: cs => do
    let (low, rest) ← hexUnit? cs
    if 0xdc00 ≤ low ∧ low < 0xe000 then some (low, rest) else none
  | _ => none

/-- The character after `\u`: one unit, or a pair of them. -/
def escapedChar? (cs : List Char) : Option (Char × List Char) := do
  let (unit, rest) ← hexUnit? cs
  if 0xd800 ≤ unit ∧ unit < 0xdc00 then
    match lowUnit? rest with
    | some (low, rest) => some (pairChar unit low, rest)
    | none => some (unitChar unit, rest)
  else some (unitChar unit, rest)

/-- The characters of a string up to its closing quote.  Control characters must be
escaped. -/
def readString? : Nat → List Char → Option (List Char × List Char)
  | 0, _ => none
  | fuel + 1, cs =>
    match cs with
    | [] => none
    | '"' :: rest => some ([], rest)
    | '\\' :: 'u' :: rest => do
      let (c, rest) ← escapedChar? rest
      let (s, rest) ← readString? fuel rest
      return (c :: s, rest)
    | '\\' :: e :: rest => do
      let c ← unescape? e
      let (s, rest) ← readString? fuel rest
      return (c :: s, rest)
    | c :: rest =>
      if c.val < 32 ∨ c = '\\' then none
      else do
        let (s, rest) ← readString? fuel rest
        return (c :: s, rest)

/-! ### Numbers -/

/-- The digits after a point, if a point with digits comes next. -/
def readFraction? : List Char → Option (List Char × List Char)
  | '.' :: cs =>
    match cs.takeWhile Char.isDigit with
    | [] => none
    | ds => some (ds, cs.dropWhile Char.isDigit)
  | _ => none

/-- The sign and the digits of an exponent. -/
def readSigned? (negative : Bool) (cs : List Char) : Option (Int × List Char) :=
  match cs.takeWhile Char.isDigit with
  | [] => none
  | ds =>
    let n : Int := decimalValue ds
    some (if negative then -n else n, cs.dropWhile Char.isDigit)

/-- The exponent, if one comes next. -/
def readExponent? : List Char → Option (Int × List Char)
  | e :: cs =>
    if e = 'e' ∨ e = 'E' then
      match cs with
      | '-' :: cs => readSigned? true cs
      | '+' :: cs => readSigned? false cs
      | cs => readSigned? false cs
    else none
  | [] => none

/-- The whole part of a number: zero, or digits that do not start with it. -/
def readWhole? : List Char → Option (List Char × List Char)
  | '0' :: cs => some (['0'], cs)
  | c :: cs =>
    if c.isDigit then some (c :: cs.takeWhile Char.isDigit, cs.dropWhile Char.isDigit) else none
  | [] => none

/-- A number without its sign. -/
def readUnsigned? (negative : Bool) (cs : List Char) : Option (Json × List Char) := do
  let (whole, rest) ← readWhole? cs
  match readFraction? rest, rest with
  | none, rest =>
    match readExponent? rest with
    | none =>
      let n : Int := decimalValue whole
      return (.int (if negative then -n else n), rest)
    | some (e, rest) => return (.float (.ofDecimal negative (decimalValue whole) e), rest)
  | some (fraction, rest), _ =>
    let digits := decimalValue (whole ++ fraction)
    let places : Int := fraction.length
    match readExponent? rest with
    | none => return (.float (.ofDecimal negative digits (-places)), rest)
    | some (e, rest) => return (.float (.ofDecimal negative digits (e - places)), rest)

/-- A number, the infinities and not-a-number included. -/
def readNumber? (cs : List Char) : Option (Json × List Char) :=
  match cs with
  | '-' :: rest =>
    match Text.after? "Infinity".toList rest with
    | some rest => some (.float (.infinite true), rest)
    | none => readUnsigned? true rest
  | _ =>
    match Text.after? "Infinity".toList cs with
    | some rest => some (.float (.infinite false), rest)
    | none =>
      match Text.after? "NaN".toList cs with
      | some rest => some (.float .nan, rest)
      | none => readUnsigned? false cs

/-! ### Values -/

/-- One of the named constants. -/
def readConstant? (cs : List Char) : Option (Json × List Char) :=
  match Text.after? "null".toList cs with
  | some rest => some (null, rest)
  | none =>
    match Text.after? "true".toList cs with
    | some rest => some (bool true, rest)
    | none => (Text.after? "false".toList cs).map fun rest => (bool false, rest)

mutual

/-- A value, from its first character on. -/
def readValue? : Nat → List Char → Option (Json × List Char)
  | 0, _ => none
  | fuel + 1, cs =>
    match cs with
    | '"' :: rest => (readString? (rest.length + 1) rest).map fun (s, rest) =>
        (str (String.ofList s), rest)
    | '[' :: rest =>
      match skipSpace rest with
      | ']' :: rest => some (arr [], rest)
      | rest => (readItems? fuel rest).map fun (vs, rest) => (arr vs, rest)
    | '\x7b' :: rest =>
      match skipSpace rest with
      | '\x7d' :: rest => some (obj [], rest)
      | rest => (readFields? fuel [] rest).map fun (fs, rest) => (obj fs, rest)
    | cs =>
      match readConstant? cs with
      | some found => some found
      | none => readNumber? cs

/-- The items of an array up to its closing bracket; there is at least one. -/
def readItems? : Nat → List Char → Option (List Json × List Char)
  | 0, _ => none
  | fuel + 1, cs => do
    let (v, rest) ← readValue? fuel cs
    match skipSpace rest with
    | ']' :: rest => return ([v], rest)
    | ',' :: rest =>
      let (vs, rest) ← readItems? fuel (skipSpace rest)
      return (v :: vs, rest)
    | _ => none

/-- The fields of an object up to its closing brace, added to the given ones; there
is at least one. -/
def readFields? : Nat → List (String × Json) → List Char →
    Option (List (String × Json) × List Char)
  | 0, _, _ => none
  | fuel + 1, fs, cs =>
    match cs with
    | '"' :: rest => do
      let (key, rest) ← readString? (rest.length + 1) rest
      match skipSpace rest with
      | ':' :: rest =>
        let (v, rest) ← readValue? fuel (skipSpace rest)
        let fs := Entries.put (String.ofList key) v fs
        match skipSpace rest with
        | '\x7d' :: rest => return (fs, rest)
        | ',' :: rest => readFields? fuel fs (skipSpace rest)
        | _ => none
      | _ => none
    | _ => none

end

/-- The value that a whole text writes, blanks around it allowed. -/
def parseChars? (cs : List Char) : Option Json :=
  match readValue? (2 * cs.length + 2) (skipSpace cs) with
  | some (v, rest) => if (skipSpace rest).isEmpty then some v else none
  | none => none

/-- The value that a whole text writes. -/
def parse? (text : String) : Option Json := parseChars? text.toList

end Json
end SchemaScript
