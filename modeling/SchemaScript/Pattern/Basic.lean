import SchemaScript.Text.Blank
import SchemaScript.Text.CaseFold
import SchemaScript.Text.Word

/-!
# Patterns

An exclusion pattern is a regular expression.  Only one question is put to it: does
it match somewhere in a text?  So a pattern denotes, at each place of a text, the
set of places where a match that starts there can end; greedy and lazy repetition
denote the same set, and groups need not be remembered.  What is tried first counts
in an atomic group alone, which keeps the first way to match and gives up the others.

## Main definitions

* `Pattern` — the syntax.
* `Place` — a place of a text: its position and the texts before and after it.
* `Pattern.tryWith` — the first way to match and then to go on.
* `Pattern.ends` — the places where a match can end.
* `Pattern.matchesIn` — the pattern matches somewhere in a text.
-/

namespace SchemaScript

/-! ### Syntax -/

/-- A class of characters that an escape names. -/
inductive CharClass
  /-- Letters, numbers and the underscore. -/
  | word
  /-- Decimal digits. -/
  | digit
  /-- White space. -/
  | blank
  | asciiWord
  | asciiDigit
  | asciiBlank
  deriving DecidableEq

/-- What a character set is made of. -/
inductive SetItem
  | one (c : Char)
  | range (low high : Char)
  | named (cls : CharClass) (negated : Bool)
  deriving DecidableEq

/-- A condition on a place that takes no character. -/
inductive Anchor
  /-- The start of the text. -/
  | textStart
  /-- The end of the text. -/
  | textEnd
  /-- The start of a line. -/
  | lineStart
  /-- The end of the text, or before its final line feed. -/
  | lastLineEnd
  /-- The end of a line. -/
  | lineEnd
  /-- Between a character of the class, which are those of words, and another one or an end. -/
  | wordEdge (cls : CharClass)
  /-- Not at a word edge. -/
  | noWordEdge (cls : CharClass)
  deriving DecidableEq

/-- A regular expression. -/
inductive Pattern
  | empty
  /-- A character of the set, or none of it; with `anyCase` the case of letters does
  not count. -/
  | set (negated anyCase : Bool) (items : List SetItem)
  /-- Any character; a line feed only with `lineFeed`. -/
  | any (lineFeed : Bool)
  | anchor (a : Anchor)
  | seq (p q : Pattern)
  | alt (p q : Pattern)
  /-- From `least` to `most` times, without bound if there is no `most`; as often as possible
  at first, or with `lazy` as rarely as possible. -/
  | rep (lazy : Bool) (p : Pattern) (least : Nat) (most : Option Nat)
  /-- The first way to match, and no other one. -/
  | atomic (p : Pattern)
  /-- The text goes on with a match, or with none. -/
  | ahead (negated : Bool) (p : Pattern)
  /-- The text so far ends with a match of `width` characters, or with none. -/
  | behind (negated : Bool) (width : Nat) (p : Pattern)

/-! ### Places -/

/-- A place of a text. -/
structure Place where
  /-- The number of characters before the place. -/
  position : Nat
  /-- The text before the place, its last character first. -/
  before : List Char
  /-- The text after the place. -/
  after : List Char

/-- All places of a text, from a given position on. -/
def Place.onwards (position : Nat) (before : List Char) : List Char → List Place
  | [] => [⟨position, before, []⟩]
  | c :: cs => ⟨position, before, c :: cs⟩ :: onwards (position + 1) (c :: before) cs

/-- The place that lies so many characters back, if there are so many. -/
def Place.back? (n : Nat) (p : Place) : Option Place :=
  if n ≤ p.before.length then
    some ⟨p.position - n, p.before.drop n, (p.before.take n).reverse ++ p.after⟩
  else none

/-- The place is among the given ones.  Places of one text differ by their position. -/
def Place.isIn (p : Place) (ps : List Place) : Bool :=
  ps.any fun q => q.position == p.position

/-- The places of a list that are not among the seen ones, each once. -/
def newPlaces (seen : List Place) : List Place → List Place
  | [] => []
  | p :: ps => if p.isIn seen then newPlaces seen ps else p :: newPlaces (p :: seen) ps

/-! ### Meaning -/

/-- The class has the character. -/
def CharClass.has : CharClass → Char → Bool
  | word, c => Text.isWord c
  | digit, c => Text.isDecimal c
  | blank, c => Text.isBlank c
  | asciiWord, c => c.isAlphanum || c == '_'
  | asciiDigit, c => c.isDigit
  | asciiBlank, c => [' ', '\t', '\n', '\r', '\x0b', '\x0c'].contains c

/-- The characters of a range. -/
def charRange (low high : Char) : List Char :=
  (List.range (high.toNat + 1 - low.toNat)).map fun i => Char.ofNat (low.toNat + i)

/-- The item has the character. -/
def SetItem.has (anyCase : Bool) (c : Char) : SetItem → Bool
  | one d => c == d || (anyCase && Text.sameLetter c d)
  | range low high =>
    (low ≤ c && c ≤ high) || (anyCase && (charRange low high).any (Text.sameLetter c))
  | named cls negated => cls.has c != negated

/-- The condition holds at the place.  A text without characters has word edges of
neither kind. -/
def Anchor.holds (p : Place) : Anchor → Bool
  | textStart => p.before.isEmpty
  | textEnd => p.after.isEmpty
  | lineStart => p.before.isEmpty || p.before.head? == some '\n'
  | lastLineEnd => p.after.isEmpty || p.after == ['\n']
  | lineEnd => p.after.isEmpty || p.after.head? == some '\n'
  | wordEdge cls => p.before.head?.any cls.has != p.after.head?.any cls.has
  | noWordEdge cls =>
    (!p.before.isEmpty || !p.after.isEmpty) &&
      p.before.head?.any cls.has == p.after.head?.any cls.has

/-- The next place, if the character there passes the test. -/
def Place.step (test : Char → Bool) (p : Place) : List Place :=
  match p.after with
  | [] => []
  | c :: cs => if test c then [⟨p.position + 1, c :: p.before, cs⟩] else []

/-! ### Trying -/

/-- Goes on at a place, if there is a way to. -/
abbrev Going := Place → Option Place

/-- Does a step exactly `n` times and goes on. -/
def tryExactly (step : Going → Going) (goOn : Going) : Nat → Going
  | 0, p => goOn p
  | n + 1, p => step (tryExactly step goOn n) p

/-- Does a step at most `n` times and goes on, first after as many steps as possible; a step
that takes no character is the last one. -/
def tryGreedy (step : Going → Going) (goOn : Going) : Nat → Going
  | 0, p => goOn p
  | n + 1, p =>
    step (fun e => if e.position = p.position then goOn e else tryGreedy step goOn n e) p <|> goOn p

/-- Does a step at most `n` times and goes on, first after as few steps as possible; a step
that takes no character is the last one. -/
def tryLazy (step : Going → Going) (goOn : Going) : Nat → Going
  | 0, p => goOn p
  | n + 1, p =>
    goOn p <|> step (fun e => if e.position = p.position then goOn e else tryLazy step goOn n e) p

/-- How often a repetition can be done again at a place: without bound nothing new is reached
after as many steps as characters are left. -/
def Place.more (p : Place) (least : Nat) : Option Nat → Nat
  | some n => min (n - least) (p.after.length + 1)
  | none => p.after.length + 1

/-- Tries all ways to match, one after the other, and goes on behind each until that succeeds.
Of an atomic group and of what is looked for around a place only the first way is tried. -/
def Pattern.tryWith : Pattern → Going → Going
  | empty, goOn, p => goOn p
  | set negated anyCase items, goOn, p =>
    (p.step fun c => items.any (·.has anyCase c) != negated).findSome? goOn
  | any lineFeed, goOn, p => (p.step fun c => lineFeed || c != '\n').findSome? goOn
  | anchor a, goOn, p => if a.holds p then goOn p else none
  | seq q r, goOn, p => q.tryWith (r.tryWith goOn) p
  | alt q r, goOn, p => q.tryWith goOn p <|> r.tryWith goOn p
  | rep lazy q least most, goOn, p =>
    let again := if lazy then tryLazy else tryGreedy
    tryExactly q.tryWith (again q.tryWith goOn (p.more least most)) least p
  | atomic q, goOn, p => (q.tryWith some p).bind goOn
  | ahead negated q, goOn, p => if (q.tryWith some p).isNone == negated then goOn p else none
  | behind negated width q, goOn, p =>
    if ((p.back? width).bind (q.tryWith some)).isNone == negated then goOn p else none

/-! ### Searching in breadth -/

/-- The places reached from a list of places by one step. -/
def stepAll (step : Place → List Place) (ps : List Place) : List Place :=
  newPlaces [] (ps.flatMap step)

/-- The places reached by repeating a step exactly `n` times. -/
def iterate (step : Place → List Place) : Nat → List Place → List Place
  | 0, ps => ps
  | n + 1, ps => iterate step n (stepAll step ps)

/-- The seen places and all that at most `n` steps reach from the latest of them. -/
def closure (step : Place → List Place) : Nat → List Place → List Place → List Place
  | 0, seen, _ => seen
  | n + 1, seen, latest =>
    match newPlaces seen (latest.flatMap step) with
    | [] => seen
    | fresh => closure step n (seen ++ fresh) fresh

namespace Pattern

/-- The places where a match that starts at the given place can end. -/
def ends : Pattern → Place → List Place
  | empty, p => [p]
  | set negated anyCase items, p => p.step fun c => items.any (·.has anyCase c) != negated
  | any lineFeed, p => p.step fun c => lineFeed || c != '\n'
  | anchor a, p => if a.holds p then [p] else []
  | seq q r, p => stepAll r.ends (q.ends p)
  | alt q r, p => newPlaces [] (q.ends p ++ r.ends p)
  | rep _ q least most, p =>
    let first := iterate q.ends least [p]
    closure q.ends (p.more least most) first first
  | atomic q, p => (q.tryWith some p).toList
  | ahead negated q, p => if (q.ends p).isEmpty == negated then [p] else []
  | behind negated width q, p =>
    if ((p.back? width).toList.flatMap q.ends).isEmpty == negated then [p] else []

/-- The pattern matches somewhere in the text. -/
def matchesIn (q : Pattern) (cs : List Char) : Bool :=
  (Place.onwards 0 [] cs).any fun p => !(q.ends p).isEmpty

end Pattern
end SchemaScript
