import SchemaScript.Failure
import SchemaScript.Table
import SchemaScript.Text.Start

/-!
# Definitions

The schemas that references lead to, under their names.  A name that is defined again
keeps its place and takes the new schema.

Two equal schemas can be different definitions, so every schema that is defined gets
a stamp of its own.  A schema taken out of the table carries its stamp along, and
defining it under a second name keeps it.

## Main definitions

* `Node` — a schema at hand, with its stamp if it is a definition.
* `Definitions` — the table.
* `Definitions.define`, `Definitions.share`, `Definitions.addAlias` — entering.
* `Definitions.resolve` — the definition that a reference leads to.
-/

namespace SchemaScript

/-- A schema at hand.  One written where it stands has no stamp. -/
structure Node where
  schema : Json
  stamp : Option Nat

/-- A schema that is not a definition. -/
def Node.inline (schema : Json) : Node := ⟨schema, none⟩

/-- A schema in the table. -/
structure Definition where
  schema : Json
  stamp : Nat

/-- The schema as one at hand. -/
def Definition.node (d : Definition) : Node := ⟨d.schema, some d.stamp⟩

/-- Schemas under names. -/
structure Definitions where
  table : Table Definition
  /-- The stamp of the next schema; those in the table are below it. -/
  nextStamp : Nat

namespace Definitions

/-- No definitions. -/
def empty : Definitions := ⟨.empty, 0⟩

/-! ### Entering -/

/-- The definitions with a schema under a name. -/
def define (ds : Definitions) (name : String) (schema : Json) : Definitions :=
  ⟨ds.table.insert name ⟨schema, ds.nextStamp⟩, ds.nextStamp + 1⟩

/-- The definitions with a schema at hand under a name; its stamp stays. -/
def share (ds : Definitions) (name : String) (node : Node) : Definitions :=
  match node.stamp with
  | some stamp => { ds with table := ds.table.insert name ⟨node.schema, stamp⟩ }
  | none => ds.define name node.schema

/-- What a reference to a definition of the same document starts with. -/
def refStart : String := "#/definitions/"

/-- The reference to a name. -/
def refTo (name : String) : String := refStart ++ name

/-- The definitions with a name that stands for another one. -/
def addAlias (ds : Definitions) (name target : String) : Definitions :=
  ds.define name (.obj [("$ref", .str (refTo target))])

/-- The definitions with all fields of an object. -/
def defineAll (ds : Definitions) : List (String × Json) → Definitions
  | [] => ds
  | (name, schema) :: fs => (ds.define name schema).defineAll fs

/-- The definitions that an object lists; a value that counts as none lists none. -/
def ofJson (v : Json) : Except Failure Definitions :=
  if v.truthy then
    match v with
    | .obj fs => .ok (empty.defineAll fs)
    | _ => .error (.illShaped .object)
  else .ok empty

/-! ### Looking up -/

/-- The names in order. -/
def names (ds : Definitions) : List String := ds.table.keys

/-- The schema under a name as one at hand; `null` if the name is not defined. -/
def node (ds : Definitions) (name : String) : Node :=
  match ds.table.find? name with
  | some d => d.node
  | none => .inline .null

/-- The schema under a name; `null` if the name is not defined. -/
def get (ds : Definitions) (name : String) : Json := (ds.node name).schema

/-- The schema at hand is the one defined under the name. -/
def holds (ds : Definitions) (name : String) (node : Node) : Bool :=
  match ds.table.find? name, node.stamp with
  | some d, some stamp => d.stamp == stamp
  | _, _ => false

/-- The name that a reference leads to, if it is a reference to a definition of the
same document. -/
def path? (ref : Json) : Option String :=
  match ref with
  | .str text => (Text.after? refStart.toList text.toList).map String.ofList
  | _ => none

/-- The text without the start of a reference. -/
def withoutStart (text : String) : String := (path? (.str text)).getD text

/-- The definition that a reference leads to. -/
def resolve (ds : Definitions) (ref : Json) : Except Failure Node :=
  match path? ref with
  | none => .error (.invalidReference ref)
  | some path =>
    let node := ds.node path
    if node.schema.isNull then .error (.unresolvedReference (refTo path) path) else .ok node

/-! ### Sizes -/

/-- The greatest nesting depth of a schema in the table. -/
def height (ds : Definitions) : Nat :=
  ds.table.values.foldr (fun d h => max d.schema.height h) 0

end Definitions
end SchemaScript
