import SchemaScript.Failure

/-!
# Settings

What a document's author can set.  The values are kept as they are given; whoever
uses one looks at its shape.

## Main definitions

* `Settings` — the values.
* `Settings.ofJson`, `Settings.toJson` — settings as an object.
-/

namespace SchemaScript

/-- The settings of a generation. -/
structure Settings where
  /-- Patterns of the names that are not generated. -/
  exclude : Json
  /-- Names that stand for other ones. -/
  aliases : Json
  /-- The definitions to generate; all of them if none is given. -/
  emitTypes : Json
  /-- Whether a comment tells how the text was generated. -/
  generationComment : Json
  /-- What blocks are indented by. -/
  indent : Json

namespace Settings

/-- The settings if nothing is set. -/
def usual : Settings where
  exclude := .arr []
  aliases := .obj []
  emitTypes := .arr []
  generationComment := .bool true
  indent := .str "  "

/-- The settings with one value set; unknown names are passed over. -/
def set (s : Settings) (name : String) (v : Json) : Settings :=
  match name with
  | "exclude" => { s with exclude := v }
  | "aliases" => { s with aliases := v }
  | "emit_types" => { s with emitTypes := v }
  | "add_generation_comment" => { s with generationComment := v }
  | "indent" => { s with indent := v }
  | _ => s

/-- The settings that an object gives; what it does not give is as usual. -/
def ofJson : Json → Except Failure Settings
  | .obj fs => .ok (fs.foldl (fun s f => s.set f.1 f.2) usual)
  | _ => .error (.illShaped .object)

/-- The settings as an object. -/
def toJson (s : Settings) : Json :=
  .obj [("exclude", s.exclude), ("aliases", s.aliases), ("emit_types", s.emitTypes),
    ("add_generation_comment", s.generationComment), ("indent", s.indent)]

end Settings
end SchemaScript
