import SchemaScript.Comment
import SchemaScript.Declaration.Basic
import SchemaScript.Name.TypeName

/-!
# The source code of declarations

## Main definitions

* `Declaration.write` — writes an interface, an enum or a union class.
-/

namespace SchemaScript
namespace Declaration

variable {ε : Type}

/-! ### Interfaces -/

/-- The line of a field. -/
def fieldLine (f : Field) : String :=
  "readonly " ++ f.name ++ (if f.optional then "?" else "") ++ ": " ++ f.type.render ++ ";"

/-- Writes the fields of an interface, an empty line after each. -/
def writeFields : List Field → Writing Unit
  | [] => pure ()
  | f :: fs => do
    Comment.describe f.fqn f.description .empty
    Page.line (fieldLine f)
    Page.line ""
    writeFields fs

/-! ### Enums -/

/-- The comment of a member. -/
def memberComment (m : Member) : String := "/** " ++ Comment.escape m.value ++ " */"

/-- The line of a member. -/
def memberLine (m : Member) : String :=
  m.name ++ " = " ++ String.ofList (Text.jsonString m.value.toList) ++ ","

/-- Writes the members of an enum. -/
def writeMembers : List Member → Writing Unit
  | [] => pure ()
  | m :: ms => do
    Page.line (memberComment m)
    Page.line (memberLine m)
    writeMembers ms

/-! ### Unions -/

/-- The name of the method that makes a union from an option. -/
def factoryName (option : String) : String :=
  "from" ++ String.ofList (Name.capitalFirst option.toList)

/-- Writes a method for each option of a union. -/
def writeOptions (name : String) : List String → Writing Unit
  | [] => pure ()
  | option :: options => do
    if option = "" then throw .namelessOption
    Page.openBlock
      ("public static " ++ factoryName option ++ "(value: " ++ option ++ "): " ++ name)
    Page.line ("return new " ++ name ++ "(value);")
    Page.closeBlock Page.usualFooter
    writeOptions name options

/-- Writes the constructor of a union. -/
def writeConstructor : Writing Unit := do
  Page.openBlock "private constructor(value: any)"
  Page.line "Object.defineProperty(this, 'resolve', \x7b value: () => value \x7d);"
  Page.closeBlock Page.usualFooter

/-! ### Declarations -/

/-- Writes a declaration under its comment: the head, the parts, and the end. -/
def writeBlock (d : Declaration ε) (word : String) (parts : Writing Unit) : Writing Unit := do
  Comment.describe d.fqn d.description .empty
  Page.openBlock ("export " ++ word ++ " " ++ d.name)
  parts
  Page.closeBlock Page.usualFooter

/-- Writes a declaration.  One made by hand is written by its script, and there is
nothing to write for one without. -/
def write (d : Declaration ε) : Writing Unit :=
  match d.body with
  | .struct fields => d.writeBlock "interface" (writeFields fields)
  | .enum members => d.writeBlock "enum" (writeMembers members)
  | .union options => d.writeBlock "class" do
      writeOptions d.name options
      writeConstructor
  | .custom _ => throw (.missingScript d.name)
  | .bare => throw .bareDeclaration

end Declaration
end SchemaScript
