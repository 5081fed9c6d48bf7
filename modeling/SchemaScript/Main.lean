import SchemaScript.CommandLine.Run

/-!
# The command

Reads the files that a run needs, runs it, and writes its text and its report.
-/

namespace SchemaScript

/-- What a path leads to.  Something that is there and cannot be read as a text is
taken for a folder. -/
def findOnDisk (path : String) : IO Found := do
  try
    return .file (← IO.FS.readFile path)
  catch
    | .noFileOrDirectory _ _ _ => return .missing
    | _ => return .folder

/-- The path of the folder in which a path names a file. -/
def holderPath (path : String) : String :=
  let parts := Text.cutAt '/' path.toList
  if parts.length ≤ 1 then "."
  else "/".intercalate (parts.dropLast.map String.ofList) ++ "/"

/-- What the usage says. -/
def usage : String := "Usage: json_schema_to_ts [OPTIONS] PATH OUTPUT\n"

/-- What is said of a fault. -/
def Fault.line : Fault → String
  | failure f => "Error: " ++ f.message ++ "\n"
  | unreadable => "Error: a file holds no JSON text\n"
  | isFolder => "Error: a folder stands where a file is needed\n"
  | notFolder => "Error: a path leads through a file\n"
  | missing => "Error: a file or folder is missing\n"

/-- Carries out how a run ends. -/
def finishRun : Outcome → IO Unit
  | .misuse => IO.eprint usage
  | .help => IO.print usage
  | .refused report => IO.eprint report
  | .broken fault report => IO.eprint (report ++ fault.line)
  | .done path text report => do
    IO.FS.writeFile path text
    IO.eprint report

end SchemaScript

open SchemaScript in
def main (words : List String) : IO UInt32 := do
  let asked := Asked.ofWords words
  let outcome ← match asked with
    | .request r => do
      let schema ← findOnDisk r.path
      let config ← findOnDisk (r.config.getD ".")
      let target ← findOnDisk r.output
      let holder ← findOnDisk (holderPath r.output)
      let look := fun path =>
        if path = r.path then schema else if some path = r.config then config else target
      pure (asked.run look fun _ => holder)
    | _ => pure (asked.run (fun _ => .missing) fun _ => .missing)
  finishRun outcome
  return outcome.exitCode.toUInt32
