import SchemaScript.CommandLine.Folder
import SchemaScript.CommandLine.Options
import SchemaScript.Document
import SchemaScript.Json.Parser

/-!
# Runs of the command

A run reads a schema and perhaps settings, generates the text and writes it to a
file.  Notes are reported as they come, all of them if asked for, and otherwise the
warnings alone; a failure that concerns the schema or the request is reported behind
them.

## Main definitions

* `Request.written` — the command line as the comment tells it.
* `Fault`, `Outcome` — what can go wrong, and how a run ends.
* `Request.run` — a run.
-/

namespace SchemaScript

/-- Something wrong that is not reported by a message of its own. -/
inductive Fault
  | failure (f : Failure)
  /-- A file holds no JSON text. -/
  | unreadable
  /-- A path leads to a folder where a file is needed. -/
  | isFolder
  /-- A path leads through a file. -/
  | notFolder
  /-- A file is gone, or the folder for it is not there. -/
  | missing

/-- How a run ends. -/
inductive Outcome
  /-- The words were not understood, or a file to read does not exist. -/
  | misuse
  /-- The usage was asked for. -/
  | help
  /-- A failure was reported. -/
  | refused (report : String)
  /-- Something went wrong. -/
  | broken (fault : Fault) (report : String)
  /-- The text was generated, to be written to a path. -/
  | done (path text report : String)

/-! ### Reports -/

/-- The line that reports a note. -/
def Note.reportLine (n : Note) : String :=
  n.level.word ++ ":" ++ n.component ++ ":" ++ n.message ++ "\n"

/-- The report on notes. -/
def reportNotes (verbose : Bool) (notes : List Note) : String :=
  String.join ((notes.filter fun n => verbose || n.level == .warning).map Note.reportLine)

/-- The line that reports a failure. -/
def Failure.reportLine (f : Failure) : String := "Error: " ++ f.message ++ "\n"

namespace Request

/-- The command line as the comment tells it: the files by their names, then the
options in a fixed order. -/
def written (r : Request) : String :=
  let config := match r.config with
    | some path => ["--config", Path.lastName path]
    | none => []
  let verbose := if r.verbose then ["--verbose"] else []
  " ".intercalate
    ([commandName, Path.lastName r.path, Path.lastName r.output] ++ config
      ++ r.exclude.flatMap (["--exclude", ·]) ++ r.types.flatMap (["--type", ·]) ++ verbose)

/-- The value in a file. -/
def readJson : Found → Except Fault Json
  | .file text =>
    match Json.parse? text with
    | some v => .ok v
    | none => .error .unreadable
  | .folder => .error .isFolder
  | .missing => .error .missing

/-- The settings of a run: those of the file, with the options added. -/
def settings (r : Request) (file : Option Found) : Except Fault Settings := do
  let s ← match file with
    | none => pure Settings.usual
    | some found => do
      let v ← readJson found
      (Settings.ofJson v).mapError .failure
  let patterns ← s.exclude.items.mapError .failure
  let s := { s with exclude := .arr (patterns ++ r.exclude.map .str) }
  return if r.types.isEmpty then s else { s with emitTypes := .arr (r.types.map .str) }

/-- The generated text with the notes, once everything is read. -/
def generate (r : Request) (look : String → Found) :
    Except Fault (Except Failure String × List Note) := do
  let schema ← readJson (look r.path)
  let s ← r.settings (r.config.map look)
  return Document.generate schema s r.written

/-- Why nothing can be written to a path, if so, from what the path and its folder
are. -/
def writeFault? : (holder target : Found) → Option Fault
  | _, .folder => some .isFolder
  | .folder, _ => none
  | .file _, _ => some .notFolder
  | .missing, _ => some .missing

/-- What a path leads to is there. -/
def isThere : Found → Bool
  | .missing => false
  | _ => true

/-- The files that a run reads are there. -/
def filesThere (r : Request) (look : String → Found) : Bool :=
  isThere (look r.path) && r.config.all fun path => isThere (look path)

/-- A run, from what paths and the folders they name a file in lead to. -/
def run (r : Request) (look holder : String → Found) : Outcome :=
  if !r.filesThere look then .misuse
  else match r.generate look with
    | .error fault => .broken fault ""
    | .ok (.error f, notes) =>
      let report := reportNotes r.verbose notes
      if f.isReported then .refused (report ++ f.reportLine) else .broken (.failure f) report
    | .ok (.ok text, notes) =>
      let report := reportNotes r.verbose notes
      match writeFault? (holder r.output) (look r.output) with
      | some fault => .broken fault report
      | none => .done r.output text report

end Request

/-- How a run ends that words ask for. -/
def Asked.run (look holder : String → Found) : Asked → Outcome
  | .misuse => .misuse
  | .help => .help
  | .request r => r.run look holder

/-- How a run in a folder ends, and the folder after it. -/
def Folder.run (d : Folder) (words : List String) : Outcome × Folder :=
  match (Asked.ofWords words).run d.look d.holder with
  | .done path text report => (.done path text report, d.write path text)
  | outcome => (outcome, d)

/-- The number that a run ends with. -/
def Outcome.exitCode : Outcome → Nat
  | misuse => 2
  | help => 0
  | refused _ => 1
  | broken _ _ => 1
  | done _ _ _ => 0

end SchemaScript
