import SchemaScript.Settings
import SchemaScript.Workshop.Drain

/-!
# Documents

A schema document becomes one text: a comment that tells how it was generated, and
the declarations of the requested definitions with all that these refer to.

## Main definitions

* `Document.header` — the lines of the comment.
* `Document.requests` — the names to emit.
* `Document.generateWith`, `Document.generate` — the text, and the notes taken on the way, for
  any compiler of patterns and for the usual one.
-/

namespace SchemaScript
namespace Document

/-! ### The comment -/

/-- The version that the comment tells. -/
def version : String := "0.1.0"

/-- The part of the comment that lists the exclusions. -/
def exclusionText (patterns : List Json) : String :=
  "//\n// Types matching these patterns are not generated:\n"
    ++ String.join (patterns.map fun p => "//   " ++ p.display ++ "\n")

/-- The text of the comment, before it is cut into lines. -/
def headerText (commandLine : String) (exclude : Json) : Except Failure String := do
  let head := "// Generated by json_schema_to_ts " ++ version ++ ". DO NOT EDIT.\n// "
    ++ commandLine ++ "\n"
  if exclude.truthy then return head ++ exclusionText (← exclude.items) else return head

/-- The lines of the comment. -/
def header (commandLine : String) (exclude : Json) : Except Failure (List String) := do
  let text ← headerText commandLine exclude
  return (Text.lines text.toList).map String.ofList

/-! ### Emission -/

variable {ε : Type}

/-- Enters the aliases. -/
def enterAliases : List (String × Json) → Resolving ε Unit
  | [] => pure ()
  | (name, target) :: as => do
    Resolver.redefine fun ds => ds.addAlias name target.display
    enterAliases as

/-- The names to emit: those asked for, or all that no exclusion hits. -/
def requests (r : Resolver ε) (emitTypes : Json) : Except Failure (List Json) :=
  if emitTypes.truthy then emitTypes.items
  else .ok ((r.definitions.names.filter fun name => !r.isExcluded name).map .str)

/-- Emits definitions one after the other. -/
def emitAll : List Json → Resolving ε Unit
  | [] => pure ()
  | .str name :: names => do
    Resolver.note (.emitting name (Name.ofDefinition name))
    let _ ← Resolver.emitNamed name
    emitAll names
  | _ :: _ => throw (.illShaped .text)

/-- Enters the aliases and emits what is asked for. -/
def emitRequests (s : Settings) : Resolving ε Unit := do
  match s.aliases with
  | .obj as => enterAliases as
  | _ => throw (.illShaped .object)
  let r ← get
  emitAll (← requests r s.emitTypes)

/-! ### The text -/

/-- Writes the comment, if it is wanted, and an empty line after it. -/
def writeHeader (s : Settings) (commandLine : String) : Writing Unit := do
  if s.generationComment.truthy then
    Comment.writeLines (← header commandLine s.exclude)
    Page.line ""

/-- Emits what is asked for and writes all of it on a new page. -/
def compose (s : Settings) (commandLine : String) : Working Empty String := do
  Workshop.resolving (emitRequests s)
  modify fun w => { w with shared := .blank s.indent.str? }
  Workshop.writing .shared (writeHeader s commandLine)
  Workshop.drain Empty.elim Empty.elim .shared
  return (← get).shared.text

/-- The resolver of a document. -/
def resolver (compile : Compiler) (schema : Json) (s : Settings) :
    Except Failure (Resolver Empty) :=
  if schema.isObject then Resolver.ofJsonWith compile s.exclude (schema.get "definitions")
  else .error (.illShaped .object)

/-- The text for a document, and the notes taken on the way, with a compiler for the patterns
of the settings. -/
def generateWith (compile : Compiler) (schema : Json) (s : Settings) (commandLine : String) :
    Except Failure String × List Note :=
  match resolver compile schema s with
  | .error e => (.error e, [])
  | .ok r =>
    let (result, w) := Stateful.exec (compose s commandLine) (.ofResolver r)
    (result, w.resolver.notes)

/-- The text for a document, and the notes taken on the way. -/
def generate (schema : Json) (s : Settings) (commandLine : String) :
    Except Failure String × List Note :=
  generateWith Pattern.compile? schema s commandLine

end Document
end SchemaScript
