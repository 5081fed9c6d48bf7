import SchemaScript.Table
import SchemaScript.Text.Parts

/-!
# Files of a folder

The command is run in a folder.  Paths are taken relative to it; one that starts at
the root or leads out of the folder finds nothing.

## Main definitions

* `Path.parts?` — the names along a path.
* `Path.lastName` — the name of the file a path leads to.
* `Folder` — the files of a folder, and what a path finds there.
-/

namespace SchemaScript

namespace Path

/-- The names along a path, last one first, after those of the path so far; `..`
takes one back. -/
def walk? : List String → List String → Option (List String)
  | back, [] => some back
  | back, name :: names =>
    if name = "" ∨ name = "." then walk? back names
    else if name = ".." then
      match back with
      | [] => none
      | _ :: back => walk? back names
    else walk? (name :: back) names

/-- The names along a path, last one first. -/
def parts? (path : String) : Option (List String) :=
  match path.toList with
  | '/' :: _ => none
  | cs => walk? [] ((Text.cutAt '/' cs).map String.ofList)

/-- The name of the file that a path leads to. -/
def lastName (path : String) : String :=
  match parts? path with
  | some (name :: _) => name
  | some [] => ""
  | none => String.ofList ((Text.cutAt '/' path.toList).getLastD [])

end Path

/-- What a path leads to. -/
inductive Found
  | file (text : String)
  | folder
  | missing

/-- Files with their texts, under the names along their paths, last one first. -/
structure Folder where
  files : List (List String × String)

namespace Folder

/-- The folder of the listed files; the later of two with one path stays. -/
def ofList (files : List (String × String)) : Folder :=
  ⟨files.reverse.filterMap fun f => (Path.parts? f.1).map fun ps => (ps, f.2)⟩

/-- What the names along a path lead to. -/
def find (d : Folder) (parts : List String) : Found :=
  match d.files.lookup parts with
  | some text => .file text
  | none =>
    if parts.isEmpty || d.files.any fun f => parts.isSuffixOf f.1 then .folder else .missing

/-- What a path leads to. -/
def look (d : Folder) (path : String) : Found :=
  match Path.parts? path with
  | some parts => d.find parts
  | none => .missing

/-- The folder in which a path names a file. -/
def holder (d : Folder) (path : String) : Found :=
  match Path.parts? path with
  | some parts => d.find (parts.drop 1)
  | none => .missing

/-- The folder with a text written to a path. -/
def write (d : Folder) (path text : String) : Folder :=
  match Path.parts? path with
  | some parts => ⟨(parts, text) :: d.files⟩
  | none => d

end Folder
end SchemaScript
