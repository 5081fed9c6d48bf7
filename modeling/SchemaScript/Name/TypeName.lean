import SchemaScript.Name.Case
import SchemaScript.Text.Parts
import SchemaScript.Text.Upper

/-!
# Type names

A type name starts with a capital and writes acronyms like words: `VPC` becomes
`Vpc`.  An acronym is a run of capitals, less the last one if a small letter
follows, as that one starts the next word.

## Main definitions

* `foldAcronyms` — every acronym with its first letter kept and the others small.
* `typeName` — the type name for a given name: its first character in the capital
  form, then acronyms folded.
* `ofPath` — one type name for a dotted path.
* `lastComponent` — the part of a path after its last dot.
-/

namespace SchemaScript
namespace Name

/-! ### Acronyms -/

/-- The capitals of a run after its first one, folded; the last one is kept if a
small letter follows the run. -/
def foldRun (smallFollows : Bool) : List Char → List Char
  | [] => []
  | [c] => if smallFollows then [c] else [c.toLower]
  | c :: cs => c.toLower :: foldRun smallFollows cs

/-- Every acronym with its first letter kept and the others small. -/
def foldAcronyms : List Char → List Char
  | [] => []
  | c :: cs =>
    if c.isUpper then
      let rest := cs.dropWhile Char.isUpper
      c :: foldRun (startsSmall rest) (cs.takeWhile Char.isUpper) ++ foldAcronyms rest
    else c :: foldAcronyms cs
termination_by cs => cs.length
decreasing_by
  · simpa using Nat.lt_succ_of_le (List.dropWhile_suffix _).length_le
  · simp

/-! ### Names -/

/-- The text with its first character in the capital form. -/
def capitalFirst : List Char → List Char
  | [] => []
  | c :: cs => Text.capitals c ++ cs

/-- The type name for a given name, on characters. -/
def typeNameChars (cs : List Char) : List Char := foldAcronyms (capitalFirst cs)

/-- The type name for a given name. -/
def typeName (s : String) : String := String.ofList (typeNameChars s.toList)

/-- The name is written as a type name. -/
def IsTypeName (s : String) : Prop := typeName s = s

instance (s : String) : Decidable (IsTypeName s) := inferInstanceAs (Decidable (_ = _))

/-! ### Paths -/

/-- One type name for a dotted path: its parts capitalised and put together. -/
def ofPath (path : String) : String :=
  String.ofList (typeNameChars ((Text.cutAt '.' path.toList).flatMap pascalChars))

/-- The part of a path after its last dot. -/
def lastComponent (path : String) : String :=
  String.ofList ((Text.cutAt '.' path.toList).getLastD [])

/-- The type name under which a definition is declared: that of the last part of
its path. -/
def ofDefinition (path : String) : String := typeName (lastComponent path)

end Name
end SchemaScript
