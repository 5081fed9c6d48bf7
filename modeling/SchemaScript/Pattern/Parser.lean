import SchemaScript.Json.Parser
import SchemaScript.Pattern.Basic

/-!
# Reading patterns

The reader takes a pattern apart by recursive descent.  Every function takes the
characters to read and gives what it read and the characters left, or nothing if the
text is no pattern.  The fuel bounds the depth of the recursion; twice the length of
the text is enough, for of any two nested calls one takes a character.

Flags are letters in `(?…)` at the very start, for the whole pattern, or in `(?…:…)`,
for a group.  Not read are what refers to a group, by its number, by its name or in a
condition, and characters that are written by their names.

## Main definitions

* `Flags` — what the flags have switched on.
* `Pattern.width?` — the number of characters that every match has.
* `Pattern.parse?` — the pattern that a text writes.
-/

namespace SchemaScript
namespace Pattern

/-- The flags in force. -/
structure Flags where
  /-- The case of letters does not count. -/
  anyCase : Bool := false
  /-- The line anchors hold at every line. -/
  everyLine : Bool := false
  /-- A point stands for a line feed too. -/
  pointLineFeed : Bool := false
  /-- White space stands for nothing, and a number sign starts a comment. -/
  spacedOut : Bool := false
  /-- Classes and cases are those of ASCII. -/
  asciiOnly : Bool := false

/-- The letters of flags. -/
def isFlag (c : Char) : Bool := ['a', 'i', 'm', 's', 'u', 'x'].contains c

/-- The flags with some letters switched on and others off.  Of `a` and `u` one only can be
switched on, and none off. -/
def Flags.switch? (f : Flags) (on off : List Char) : Option Flags :=
  let now := fun (before : Bool) (c : Char) => (before || on.contains c) && !off.contains c
  if (on.contains 'a' && on.contains 'u') || off.contains 'a' || off.contains 'u' then none
  else some
    { anyCase := now f.anyCase 'i'
      everyLine := now f.everyLine 'm'
      pointLineFeed := now f.pointLineFeed 's'
      spacedOut := now f.spacedOut 'x'
      asciiOnly := if on.contains 'u' then false else now f.asciiOnly 'a' }

/-! ### Escapes -/

/-- The characters of words. -/
def Flags.word (f : Flags) : CharClass := if f.asciiOnly then .asciiWord else .word

/-- The decimal digits. -/
def Flags.digit (f : Flags) : CharClass := if f.asciiOnly then .asciiDigit else .digit

/-- White space. -/
def Flags.blank (f : Flags) : CharClass := if f.asciiOnly then .asciiBlank else .blank

/-- The class that an escape names, and whether it is negated. -/
def classEscape? (f : Flags) : Char → Option SetItem
  | 'w' => some (.named f.word false)
  | 'W' => some (.named f.word true)
  | 'd' => some (.named f.digit false)
  | 'D' => some (.named f.digit true)
  | 's' => some (.named f.blank false)
  | 'S' => some (.named f.blank true)
  | _ => none

/-- The anchor that an escape names. -/
def anchorEscape? (f : Flags) : Char → Option Anchor
  | 'A' => some .textStart
  | 'Z' => some .textEnd
  | 'b' => some (.wordEdge f.word)
  | 'B' => some (.noWordEdge f.word)
  | _ => none

/-- The control character that an escape names. -/
def controlEscape? : Char → Option Char
  | 'a' => some '\x07'
  | 'f' => some '\x0c'
  | 'n' => some '\n'
  | 'r' => some '\r'
  | 't' => some '\t'
  | 'v' => some '\x0b'
  | _ => none

/-- A character written with exactly `n` hexadecimal digits. -/
def hexEscape? (n : Nat) (cs : List Char) : Option (Char × List Char) := do
  let ds ← (cs.take n).mapM Json.hexDigit?
  let code := ds.foldl (fun m d => m * 16 + d) 0
  if ds.length = n ∧ code.isValidChar then some (Char.ofNat code, cs.drop n) else none

/-- The character is an octal digit. -/
def isOctal (c : Char) : Bool := '0' ≤ c && c ≤ '7'

/-- A character written with octal digits, of which there are up to three. -/
def octalEscape? (cs : List Char) : Option (Char × List Char) :=
  let ds := (cs.take 3).takeWhile isOctal
  let code := ds.foldl (fun m d => m * 8 + (d.toNat - '0'.toNat)) 0
  if code ≤ 0o377 then some (Char.ofNat code, cs.drop ds.length) else none

/-- The character that the text after a backslash writes, except by digits.  Letters
without a meaning are refused. -/
def charEscape? : List Char → Option (Char × List Char)
  | [] => none
  | 'x' :: cs => hexEscape? 2 cs
  | 'u' :: cs => hexEscape? 4 cs
  | 'U' :: cs => hexEscape? 8 cs
  | c :: cs =>
    match controlEscape? c with
    | some d => some (d, cs)
    | none => if c.isAlphanum then none else some (c, cs)

/-- The character that the text after a backslash writes outside of sets.  Octal digits
are a character if the first one is zero or if there are three; all other digits are the
number of a group. -/
def singleEscape? (cs : List Char) : Option (Char × List Char) :=
  if cs.head? = some '0' ∨ ((cs.take 3).all isOctal ∧ 3 ≤ cs.length) then octalEscape? cs
  else charEscape? cs

/-! ### Sets -/

/-- One item of a set; `\b` is the backspace there, and there are no groups to count. -/
def readSetItem? (f : Flags) : List Char → Option (SetItem × List Char)
  | [] => none
  | '\\' :: 'b' :: cs => some (.one '\x08', cs)
  | '\\' :: cs =>
    match cs with
    | [] => none
    | e :: rest =>
      match classEscape? f e with
      | some item => some (item, rest)
      | none =>
        (if isOctal e then octalEscape? cs else charEscape? cs).map fun (c, rest) =>
          (.one c, rest)
  | c :: cs => some (.one c, cs)

/-- The range between two items, if both are characters in order. -/
def rangeOf? : SetItem → SetItem → Option SetItem
  | .one low, .one high => if low ≤ high then some (.range low high) else none
  | _, _ => none

/-- The items of a set up to its closing bracket, which is an item itself at the
very start. -/
def readSet? (f : Flags) : Nat → Bool → List Char → Option (List SetItem × List Char)
  | 0, _, _ => none
  | fuel + 1, first, cs =>
    match first, cs with
    | false, ']' :: rest => some ([], rest)
    | _, cs => do
      let (item, rest) ← readSetItem? f cs
      match rest with
      | '-' :: ']' :: rest => return ([item, .one '-'], rest)
      | '-' :: rest =>
        let (last, rest) ← readSetItem? f rest
        let range ← rangeOf? item last
        let (items, rest) ← readSet? f fuel false rest
        return (range :: items, rest)
      | rest =>
        let (items, rest) ← readSet? f fuel false rest
        return (item :: items, rest)

/-- What lies of a range between two letters, in another case. -/
def recased (first last : Char) (recase : Char → Char) (low high : Char) : List SetItem :=
  let low := if low ≤ first then first else low
  let high := if high ≤ last then high else last
  if low ≤ high then [.range (recase low) (recase high)] else []

/-- The items that have the characters of an item in both cases, as far as ASCII goes. -/
def bothCases : SetItem → List SetItem
  | .one c => [.one c.toLower, .one c.toUpper]
  | .range low high =>
    .range low high ::
      (recased 'A' 'Z' Char.toLower low high ++ recased 'a' 'z' Char.toUpper low high)
  | item => [item]

/-- A character of a set, or none of it. -/
def Flags.setOf (f : Flags) (negated : Bool) (items : List SetItem) : Pattern :=
  if f.anyCase && f.asciiOnly then .set negated false (items.flatMap bothCases)
  else .set negated f.anyCase items

/-! ### Repetitions -/

/-- The bounds between braces, after the opening one: `n}`, `n,}`, `,m}` or `n,m}`. -/
def readBounds? (cs : List Char) : Option (Nat × Option Nat × List Char) :=
  let low := cs.takeWhile Char.isDigit
  let least := Json.decimalValue low
  match cs.dropWhile Char.isDigit with
  | '\x7d' :: rest => if low.isEmpty then none else some (least, some least, rest)
  | ',' :: rest =>
    let high := rest.takeWhile Char.isDigit
    match rest.dropWhile Char.isDigit with
    | '\x7d' :: rest =>
      some (least, if high.isEmpty then none else some (Json.decimalValue high), rest)
    | _ => none
  | _ => none

/-- The bounds of the repetition that comes next, if one does.  A brace without
bounds stands for itself. -/
def readRepeat? : List Char → Option (Nat × Option Nat × List Char)
  | '?' :: cs => some (0, some 1, cs)
  | '*' :: cs => some (0, none, cs)
  | '+' :: cs => some (1, none, cs)
  | '\x7b' :: cs => readBounds? cs
  | _ => none

/-- How a repetition is tried. -/
inductive Mode
  | greedy
  | lazy
  /-- As often as possible, of which nothing is given back. -/
  | possessive

/-- The mark behind a repetition. -/
def readMode : List Char → Mode × List Char
  | '?' :: cs => (.lazy, cs)
  | '+' :: cs => (.possessive, cs)
  | cs => (.greedy, cs)

/-- The pattern repeated.  If nothing is given back, then not within one time either. -/
def repeatBy (p : Pattern) (least : Nat) (most : Option Nat) : Mode → Pattern
  | .greedy => .rep false p least most
  | .lazy => .rep true p least most
  | .possessive => .atomic (.rep false (.atomic p) least most)

/-- What the last item of a sequence allows after it. -/
inductive Item
  /-- An anchor: nothing to repeat. -/
  | anchored (p : Pattern)
  /-- A repetition: not to be repeated again. -/
  | repeated (p : Pattern)
  /-- Anything else. -/
  | plain (p : Pattern)

/-- The pattern of an item. -/
def Item.pattern : Item → Pattern
  | anchored p => p
  | repeated p => p
  | plain p => p

/-- The item repeated, if it can be and the bounds are in order. -/
def Item.repeat? (least : Nat) (most : Option Nat) (mode : Mode) : Item → Option Item
  | plain p => if most.all (least ≤ ·) then some (.repeated (repeatBy p least most mode)) else none
  | _ => none

/-! ### Groups -/

/-- The fewest and the most characters of a match; there can be any number if there is no
most. -/
def widths : Pattern → Nat × Option Nat
  | empty | anchor _ | ahead _ _ | behind _ _ _ => (0, some 0)
  | set _ _ _ | any _ => (1, some 1)
  | seq q r => (q.widths.1 + r.widths.1, q.widths.2.bind fun m => r.widths.2.map (m + ·))
  | alt q r =>
    (min q.widths.1 r.widths.1, q.widths.2.bind fun m => r.widths.2.map fun n => max m n)
  | rep _ q least most =>
    (q.widths.1 * least,
      if q.widths.2 = some 0 ∨ most = some 0 then some 0
      else q.widths.2.bind fun m => most.map (m * ·))
  | atomic q => q.widths

/-- The number of characters of every match, if it is the same for all. -/
def width? (p : Pattern) : Option Nat :=
  if p.widths.2 = some p.widths.1 then some p.widths.1 else none

/-- What the text after an opening parenthesis opens. -/
inductive GroupStart
  /-- A group under its own flags, which may have a name. -/
  | group (f : Flags) (name : Option (List Char))
  | atomic
  /-- A condition on the text that follows. -/
  | ahead (negated : Bool)
  /-- A condition on the text so far. -/
  | behind (negated : Bool)

/-- The flags within the group. -/
def GroupStart.flags (outer : Flags) : GroupStart → Flags
  | group f _ => f
  | _ => outer

/-- The names of groups with that of the group, if it has one; no two groups share a name. -/
def GroupStart.enter? (names : List (List Char)) : GroupStart → Option (List (List Char))
  | group _ (some name) => if name ∈ names then none else some (name :: names)
  | _ => some names

/-- The group, once what is within is read.  Looking back takes matches of one width. -/
def GroupStart.close? (p : Pattern) : GroupStart → Option Item
  | group _ _ => some (.plain p)
  | atomic => some (.plain (.atomic p))
  | ahead negated => some (.plain (.ahead negated p))
  | behind negated => p.width?.map fun n => .plain (.behind negated n p)

/-- The flags that a group sets for itself, up to the colon: some are switched on or off,
and none both. -/
def readGroupFlags? (f : Flags) (cs : List Char) : Option (GroupStart × List Char) :=
  let on := cs.takeWhile isFlag
  match cs.dropWhile isFlag with
  | ':' :: rest =>
    if on.isEmpty then none else (f.switch? on []).map fun g => (.group g none, rest)
  | '-' :: rest =>
    let off := rest.takeWhile isFlag
    match rest.dropWhile isFlag with
    | ':' :: rest =>
      if off.isEmpty || off.any on.contains then none
      else (f.switch? on off).map fun g => (.group g none, rest)
    | _ => none
  | _ => none

/-- The name of a group starts with no digit and has word characters only. -/
def isGroupName : List Char → Bool
  | [] => false
  | c :: cs => (Text.isWord c && !Text.isDecimal c) && cs.all Text.isWord

/-- What an opening parenthesis opens. -/
def readOpening? (f : Flags) : List Char → Option (GroupStart × List Char)
  | '?' :: ':' :: cs => some (.group f none, cs)
  | '?' :: '>' :: cs => some (.atomic, cs)
  | '?' :: '=' :: cs => some (.ahead false, cs)
  | '?' :: '!' :: cs => some (.ahead true, cs)
  | '?' :: '<' :: '=' :: cs => some (.behind false, cs)
  | '?' :: '<' :: '!' :: cs => some (.behind true, cs)
  | '?' :: 'P' :: '<' :: cs =>
    let name := cs.takeWhile (· != '>')
    match cs.dropWhile (· != '>') with
    | '>' :: rest => if isGroupName name then some (.group f (some name), rest) else none
    | _ => none
  | '?' :: cs => readGroupFlags? f cs
  | cs => some (.group f none, cs)

/-! ### Comments -/

/-- The text behind a comment in parentheses. -/
def skipComment? : List Char → Option (List Char)
  | [] => none
  | ')' :: cs => some cs
  | '\\' :: _ :: cs => skipComment? cs
  | _ :: cs => skipComment? cs

/-- The characters that stand for nothing where patterns are spaced out. -/
def isSpacing (c : Char) : Bool := [' ', '\t', '\n', '\r', '\x0b', '\x0c'].contains c

/-- The text behind spaces and behind comments up to the ends of their lines, from within a
comment or not. -/
def skipSpaces? : Bool → List Char → Option (List Char)
  | _, [] => some []
  | true, '\n' :: cs => skipSpaces? false cs
  | true, ['\\'] => none
  | true, '\\' :: _ :: cs => skipSpaces? true cs
  | true, _ :: cs => skipSpaces? true cs
  | false, '#' :: cs => skipSpaces? true cs
  | false, c :: cs => if isSpacing c then skipSpaces? false cs else some (c :: cs)

/-- The text behind spaces, if these stand for nothing. -/
def Flags.skip? (f : Flags) (cs : List Char) : Option (List Char) :=
  if f.spacedOut then skipSpaces? false cs else some cs

/-! ### Sequences and alternatives -/

/-- The items of a sequence as one pattern. -/
def ofItems (items : List Item) : Pattern :=
  items.foldr (fun i p => .seq i.pattern p) .empty

/-- The anchors that the flags give to `^` and `$`. -/
def lineAnchors (f : Flags) : Anchor × Anchor :=
  if f.everyLine then (.lineStart, .lineEnd) else (.textStart, .lastLineEnd)

/-- A single character, an escape or a point; other signs stand for themselves. -/
def readSingle? (f : Flags) : List Char → Option (Item × List Char)
  | [] => none
  | '.' :: cs => some (.plain (.any f.pointLineFeed), cs)
  | '^' :: cs => some (.anchored (.anchor (lineAnchors f).1), cs)
  | '$' :: cs => some (.anchored (.anchor (lineAnchors f).2), cs)
  | '\\' :: cs =>
    match cs with
    | [] => none
    | e :: rest =>
      match anchorEscape? f e, classEscape? f e with
      | some a, _ => some (.anchored (.anchor a), rest)
      | none, some item => some (.plain (f.setOf false [item]), rest)
      | none, none => (singleEscape? cs).map fun (c, rest) =>
          (.plain (f.setOf false [.one c]), rest)
  | c :: cs => some (.plain (f.setOf false [.one c]), cs)

mutual

/-- Alternatives up to the end of the text or of the group, with the names of the groups so
far. -/
def readAlt? : Nat → Flags → List (List Char) → List Char →
    Option (Pattern × List (List Char) × List Char)
  | 0, _, _, _ => none
  | fuel + 1, f, names, cs => do
    let (items, names, rest) ← readSeq? fuel f names [] cs
    match rest with
    | '|' :: rest =>
      let (q, names, rest) ← readAlt? fuel f names rest
      return (.alt (ofItems items) q, names, rest)
    | rest => return (ofItems items, names, rest)

/-- A sequence, read so far as the given items, last one first. -/
def readSeq? : Nat → Flags → List (List Char) → List Item → List Char →
    Option (List Item × List (List Char) × List Char)
  | 0, _, _, _, _ => none
  | fuel + 1, f, names, items, cs => do
    match ← f.skip? cs with
    | [] => some (items.reverse, names, [])
    | '|' :: rest => some (items.reverse, names, '|' :: rest)
    | ')' :: rest => some (items.reverse, names, ')' :: rest)
    | '(' :: '?' :: '#' :: rest => readSeq? fuel f names items (← skipComment? rest)
    | '(' :: rest =>
      let (opening, rest) ← readOpening? f rest
      let names ← opening.enter? names
      let (p, names, rest) ← readAlt? fuel (opening.flags f) names rest
      match rest with
      | ')' :: rest => readSeq? fuel f names ((← opening.close? p) :: items) rest
      | _ => none
    | '[' :: rest =>
      let (negated, rest) := match rest with
        | '^' :: rest => (true, rest)
        | rest => (false, rest)
      let (members, rest) ← readSet? f (rest.length + 1) true rest
      readSeq? fuel f names (.plain (f.setOf negated members) :: items) rest
    | cs =>
      match readRepeat? cs with
      | some (least, most, rest) =>
        match items with
        | [] => none
        | last :: items =>
          let (mode, rest) := readMode rest
          let last ← last.repeat? least most mode
          readSeq? fuel f names (last :: items) rest
      | none =>
        if cs.head? ∈ [some '*', some '+', some '?'] then none
        else
          let (item, rest) ← readSingle? f cs
          readSeq? fuel f names (item :: items) rest

end

/-! ### Whole patterns -/

/-- The letters of the flags at the start of a pattern, for all of it, behind those that are
given; several groups of them may follow one another, with comments between them. -/
def readLeadingFlags? : Nat → List Char → List Char → Option (Flags × List Char)
  | 0, on, cs => (({} : Flags).switch? on []).map fun f => (f, cs)
  | fuel + 1, on, cs => do
    let f ← ({} : Flags).switch? on []
    match ← f.skip? cs with
    | '(' :: '?' :: '#' :: rest => readLeadingFlags? fuel on (← skipComment? rest)
    | '(' :: '?' :: rest =>
      let more := rest.takeWhile isFlag
      match rest.dropWhile isFlag with
      | ')' :: left => if more.isEmpty then none else readLeadingFlags? fuel (on ++ more) left
      | _ => some (f, cs)
    | _ => some (f, cs)

/-- The pattern that the characters write. -/
def parseChars? (cs : List Char) : Option Pattern := do
  let (f, rest) ← readLeadingFlags? cs.length [] cs
  match ← readAlt? (2 * rest.length + 2) f [] rest with
  | (p, _, []) => return p
  | _ => none

/-- The pattern that a text writes. -/
def parse? (text : String) : Option Pattern := parseChars? text.toList

end Pattern
end SchemaScript
