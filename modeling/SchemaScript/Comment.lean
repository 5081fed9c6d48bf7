import SchemaScript.Page
import SchemaScript.Table
import SchemaScript.Text.Blank
import SchemaScript.Text.Start
import SchemaScript.Text.Word

/-!
# Documentation comments

A declaration or a field stands under a comment with its description, a default
value that the description mentions, and its place in the schema.

## Main definitions

* `Comment.escape` — a text that cannot end a comment.
* `Comment.default?` — the default value that a description mentions.
* `Comment.describe` — writes the comment.
-/

namespace SchemaScript
namespace Comment

/-! ### Escapes -/

/-- The characters with the end of a comment made harmless. -/
def escapeChars : List Char → List Char
  | [] => []
  | '*' :: '/' :: cs => '_' :: '/' :: escapeChars cs
  | c :: cs => c :: escapeChars cs

/-- A text that cannot end the comment it stands in. -/
def escape (text : String) : String := String.ofList (escapeChars text.toList)

/-! ### Default values -/

/-- The rest of a line behind a gap of characters that are no word characters.  The
gap is as long as it can be with something left on the line behind it. -/
def behindGap? : List Char → Option (List Char)
  | [] => none
  | c :: cs =>
    if Text.isWord c then none
    else match behindGap? cs with
      | some v => some v
      | none => match cs with
        | [] => none
        | d :: _ => if d = '\n' then none else some (cs.takeWhile (· != '\n'))

/-- The text after `to` or `is`. -/
def afterLink? (cs : List Char) : Option (List Char) :=
  match Text.after? ['t', 'o'] cs with
  | some rest => some rest
  | none => Text.after? ['i', 's'] cs

/-- The value at a place where a text says `Default` or `Defaults`, a gap, `to` or
`is`, a gap, and the value. -/
def defaultAt? (cs : List Char) : Option (List Char) := do
  let rest ← Text.after? "Default".toList cs
  let rest := match rest with
    | 's' :: rest => rest
    | rest => rest
  if rest.head?.all Text.isWord then none
  else behindGap? (← afterLink? (rest.dropWhile fun c => !Text.isWord c))

/-- The first default value that a text mentions, on characters. -/
def findDefault? : List Char → Option (List Char)
  | [] => none
  | c :: cs =>
    match defaultAt? (c :: cs) with
    | some v => some v
    | none => findDefault? cs

/-- The first default value that a description mentions. -/
def default? (description : String) : Option String :=
  (findDefault? description.toList).map String.ofList

/-! ### Writing -/

/-- A line of a comment, without blanks at its end. -/
def commentLine (cs : List Char) : String :=
  String.ofList (Text.trimEnd (' ' :: '*' :: ' ' :: cs))

/-- Writes one line after the other. -/
def writeLines : List String → Writing Unit
  | [] => pure ()
  | l :: ls => do
    Page.line l
    writeLines ls

/-- The lines of an escaped description. -/
def descriptionLines (text : String) : List String :=
  (Text.lines text.toList).map commentLine ++ [" *"]

/-- The line of an annotation. -/
def annotationLine (key : String) (value : Json) : String := " * @" ++ key ++ " " ++ value.display

/-- The annotations with the default value that an escaped description mentions. -/
def withDefault (text : String) (annotations : Table Json) : Table Json :=
  match default? text with
  | some v => annotations.insert "default" (.str v)
  | none => annotations

/-- Writes the description, if there is one, and gives the annotations with what it
mentions. -/
def writeDescription (description : Json) (annotations : Table Json) : Writing (Table Json) :=
  if description.truthy then
    match description with
    | .str text => do
      writeLines (descriptionLines (escape text))
      return withDefault (escape text) annotations
    | _ => throw (.illShaped .text)
  else pure annotations

/-- Writes the comment of a declaration or a field. -/
def describe (fqn : String) (description : Json) (annotations : Table Json) : Writing Unit := do
  Page.line "/**"
  let annotations ← writeDescription description annotations
  let annotations := annotations.insert "schema" (.str (escape fqn))
  writeLines (annotations.entries.map fun e => annotationLine e.1 e.2)
  Page.line " */"

end Comment
end SchemaScript
