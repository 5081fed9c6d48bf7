import SchemaScript.Failure
import SchemaScript.Pattern.Parser

/-!
# Exclusions

An exclusion keeps types out by their full names.  It is written as a pattern, and what a
pattern means is up to a compiler; nothing here looks into the text of one.

## Main definitions

* `Exclusion` — a test on names, with the text that it is known by.
* `Compiler` — what patterns mean.
* `Pattern.compile?` — the compiler for the patterns that can be read.
* `Exclusion.ofText` — the test that a pattern writes.
* `Exclusion.ofJson` — the tests that a value lists.
-/

namespace SchemaScript

/-- A compiler of patterns: for a text the test on names that it writes, or nothing if the text
does not compile. -/
abbrev Compiler := String → Option (String → Bool)

/-- The compiler for the patterns that can be read: one hits the names in which it matches
somewhere. -/
def Pattern.compile? : Compiler := fun text =>
  (Pattern.parse? text).map fun p name => p.matchesIn name.toList

/-- A test on names. -/
structure Exclusion where
  /-- The text that the test is known by. -/
  text : String
  hits : String → Bool

namespace Exclusion

variable (compile : Compiler)

/-- The test that a pattern writes. -/
def ofText (text : String) : Except Failure Exclusion :=
  match compile text with
  | some hits => .ok ⟨text, hits⟩
  | none => .error .unreadablePattern

/-- The test that a value writes. -/
def ofItem : Json → Except Failure Exclusion
  | .str text => ofText compile text
  | _ => .error (.illShaped .pattern)

/-- The tests that values write, one after the other. -/
def ofItems : List Json → Except Failure (List Exclusion)
  | [] => .ok []
  | v :: vs => do
    let e ← ofItem compile v
    let es ← ofItems vs
    return e :: es

/-- The tests that a value lists; one that counts as none lists none. -/
def ofJson (v : Json) : Except Failure (List Exclusion) :=
  if v.truthy then do ofItems compile (← v.items) else .ok []

end Exclusion
end SchemaScript
