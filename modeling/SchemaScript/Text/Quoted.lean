import SchemaScript.Text.Printable

/-!
# Quoted texts

Two ways of writing a text between quotes.  Messages use the readable form, with
the quote that needs fewer escapes and with every printable character as it is.
Source code uses the JSON form, either with ASCII characters only or with nothing
escaped that need not be.

## Main definitions

* `Text.hexPadded` — a number in hexadecimal, with leading zeros.
* `Text.readable` — the readable form.
* `Text.jsonString`, `Text.jsonAscii` — the JSON forms.
-/

namespace SchemaScript
namespace Text

/-- A number in hexadecimal with at least `width` digits. -/
def hexPadded (width n : Nat) : List Char :=
  let ds := Nat.toDigits 16 n
  List.replicate (width - ds.length) '0' ++ ds

/-! ### The readable form -/

/-- The quote of the readable form: the single one, unless the text holds it and
holds no double one. -/
def quoteFor (cs : List Char) : Char :=
  if cs.contains '\'' && !cs.contains '"' then '"' else '\''

/-- A character of the readable form. -/
def readableChar (quote c : Char) : List Char :=
  if c = quote ∨ c = '\\' then ['\\', c]
  else if c = '\n' then ['\\', 'n']
  else if c = '\r' then ['\\', 'r']
  else if c = '\t' then ['\\', 't']
  else if isPrintable c then [c]
  else if c.toNat < 0x100 then '\\' :: 'x' :: hexPadded 2 c.toNat
  else if c.toNat < 0x10000 then '\\' :: 'u' :: hexPadded 4 c.toNat
  else '\\' :: 'U' :: hexPadded 8 c.toNat

/-- A text between quotes, for a reader. -/
def readable (cs : List Char) : List Char :=
  let quote := quoteFor cs
  quote :: cs.flatMap (readableChar quote) ++ [quote]

/-! ### The JSON forms -/

/-- The escape of one 16-bit unit. -/
def unitEscape (n : Nat) : List Char := '\\' :: 'u' :: hexPadded 4 n

/-- The escapes of a character: two units above the 16-bit range. -/
def charEscape (c : Char) : List Char :=
  let n := c.toNat
  if n < 0x10000 then unitEscape n
  else unitEscape (0xd800 + (n - 0x10000) / 0x400) ++ unitEscape (0xdc00 + (n - 0x10000) % 0x400)

/-- The short escape of a character that JSON gives one. -/
def shortEscape? (c : Char) : Option Char :=
  if c = '"' then some '"'
  else if c = '\\' then some '\\'
  else if c = '\n' then some 'n'
  else if c = '\r' then some 'r'
  else if c = '\t' then some 't'
  else if c.toNat = 8 then some 'b'
  else if c.toNat = 12 then some 'f'
  else none

/-- A character of a JSON string in which the characters of `plain` need no escape. -/
def jsonChar (plain : Char → Bool) (c : Char) : List Char :=
  match shortEscape? c with
  | some e => ['\\', e]
  | none => if plain c then [c] else charEscape c

/-- A JSON string that escapes only what it must. -/
def jsonString (cs : List Char) : List Char :=
  '"' :: cs.flatMap (jsonChar fun c => 32 ≤ c.val) ++ ['"']

/-- A JSON string of printable ASCII characters. -/
def jsonAscii (cs : List Char) : List Char :=
  '"' :: cs.flatMap (jsonChar fun c => 32 ≤ c.val && c.val ≤ 126) ++ ['"']

end Text
end SchemaScript
