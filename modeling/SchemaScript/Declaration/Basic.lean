import SchemaScript.TypeExpr

/-!
# Declarations

A declaration waits under its name until it is written.  It holds all that is
needed to write it.  A declaration made by hand holds a script, of a type `ε` that is
left open here.

## Main definitions

* `Field`, `Member` — the parts of interfaces and enums.
* `Body`, `Declaration` — what is declared, and under which name.
-/

namespace SchemaScript

/-- A field of an interface. -/
structure Field where
  /-- The name as it is written. -/
  name : String
  /-- The name of the property in the schema. -/
  schemaName : String
  type : TypeExpr
  optional : Bool
  /-- The place of the property in the schema. -/
  fqn : String
  description : Json

/-- A member of an enum. -/
structure Member where
  name : String
  value : String
  deriving DecidableEq

/-- What is declared. -/
inductive Body (ε : Type)
  /-- An interface. -/
  | struct (fields : List Field)
  /-- An enum of texts. -/
  | enum (members : List Member)
  /-- A class around a value of one of several primitive types. -/
  | union (options : List String)
  /-- What a script writes. -/
  | custom (script : Option ε)
  /-- Nothing. -/
  | bare

/-- A declaration. -/
structure Declaration (ε : Type) where
  name : String
  /-- The place in the schema. -/
  fqn : String
  /-- The description in the schema, unchecked. -/
  description : Json
  /-- The schema that is declared; a declaration made by hand has none. -/
  origin : Option Json
  body : Body ε

namespace Body

variable {ε : Type}

/-- The name of a kind of declaration. -/
def word : Body ε → String
  | struct _ => "StructDeclaration"
  | enum _ => "EnumDeclaration"
  | union _ => "UnionDeclaration"
  | custom _ => "CustomDeclaration"
  | bare => "Declaration"

/-- The script that writes the declaration, if one does. -/
def script? : Body ε → Option ε
  | custom script => script
  | _ => none

/-- The body with its script replaced. -/
def map {δ : Type} (f : ε → δ) : Body ε → Body δ
  | struct fields => struct fields
  | enum members => enum members
  | union options => union options
  | custom script => custom (script.map f)
  | bare => bare

end Body

/-- The declaration with its script replaced. -/
def Declaration.map {ε δ : Type} (f : ε → δ) (d : Declaration ε) : Declaration δ :=
  ⟨d.name, d.fqn, d.description, d.origin, d.body.map f⟩

end SchemaScript
