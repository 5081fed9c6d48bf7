import SchemaScript.TypeExpr

/-!
# Notes

What is worth knowing about the way a result came about.  A note of the second level
tells that the result says less than the schema.

## Main definitions

* `Opening` — a definition in progress, which an event can tell of.
* `Note` — the events.
* `Note.level`, `Note.component`, `Note.message` — how an event is reported.
-/

namespace SchemaScript

/-- How much a note matters. -/
inductive Level
  | debug
  | warning
  deriving DecidableEq

/-- The name of a level. -/
def Level.word : Level → String
  | debug => "DEBUG"
  | warning => "WARNING"

/-- A definition that is being resolved. -/
structure Opening where
  /-- The name under which it is defined. -/
  path : String
  kind : Kind
  deriving DecidableEq

/-- An event. -/
inductive Note
  /-- A requested definition is about to be emitted. -/
  | emitting (name typeName : String)
  /-- A declaration for a place in the schema entered the queue. -/
  | queued (word name fqn : String)
  /-- Declarations were withdrawn from the queue. -/
  | withdrew (names : List String)
  /-- A declaration was written. -/
  | finalized (name : String)
  /-- A schema says nothing about its type. -/
  | untyped (fqn : String)
  /-- A reference leads to an excluded type. -/
  | excludedReference (fqn path : String)
  /-- A reference leads back to a definition without a name of its own.  With it come
  the definitions that are open then, under their type names. -/
  | recursiveReference (ref : String) (opening : List (String × Opening))
  /-- The name of an enum member was taken. -/
  | renamedMember (fqn value base name : String)
  deriving DecidableEq

namespace Note

/-- How much an event matters. -/
def level : Note → Level
  | recursiveReference _ _ => .warning
  | renamedMember _ _ _ _ => .warning
  | _ => .debug

/-- The component that reports an event. -/
def component : Note → String
  | emitting _ _ => "json_schema_to_ts.json_schema_to_ts"
  | queued _ _ _ | withdrew _ | finalized _ => "json_schema_to_ts.scheduler"
  | _ => "json_schema_to_ts.generator"

/-- The text of an event. -/
def message : Note → String
  | emitting name typeName => "emitting " ++ name ++ " as " ++ typeName
  | queued word name _ => "queued " ++ word ++ " " ++ name
  | withdrew names => "withdrew " ++ ", ".intercalate names
  | finalized name => "finalized " ++ name
  | untyped fqn => fqn ++ " has no structure that can be typed, using any"
  | excludedReference fqn path => fqn ++ " references excluded type " ++ path ++ ", using any"
  | recursiveReference ref _ => ref ++ " is recursive without a named declaration, using any"
  | renamedMember fqn value base name =>
    fqn ++ ": enum value " ++ (Json.str value).literal ++ " collides with " ++ base
      ++ ", emitted as " ++ name

end Note
end SchemaScript
