import SchemaScript.Failure

/-!
# Kinds of schemas

The kind of a schema says which TypeScript construct it becomes.  A reference and a
union of primitives are told first, then the type, then the shape of the fields.

## Main definitions

* `Kind` — the constructs.
* `unionOptions`, `isPrimitiveUnion`, `isStringEnum`, `isMap` — the tests.
* `classify` — the kind of a schema.
-/

namespace SchemaScript

/-- The construct that a schema becomes. -/
inductive Kind
  | ref
  | union
  | date
  | boolean
  | array
  | any
  | numeric
  | enumString
  | plainString
  | map
  | struct
  /-- Nothing that can be typed. -/
  | fallback
  deriving DecidableEq

namespace Kind

/-- The name of a kind. -/
def word : Kind → String
  | ref => "ref"
  | union => "union"
  | date => "date"
  | boolean => "boolean"
  | array => "array"
  | any => "any"
  | numeric => "numeric"
  | enumString => "enum_string"
  | plainString => "plain_string"
  | map => "map"
  | struct => "struct"
  | fallback => "fallback"

/-- The kinds that are declared under a name of their own. -/
def isNamed : Kind → Bool
  | union | enumString | struct => true
  | _ => false

end Kind

namespace Schema

/-! ### Tests -/

/-- The names of the primitive types. -/
def primitiveTypes : List String := ["string", "number", "integer", "boolean"]

/-- The branches of a union: those of `oneOf` if given, or else of `anyOf`. -/
def unionOptions (schema : Json) : Json :=
  if (schema.get "oneOf").truthy then schema.get "oneOf"
  else if (schema.get "anyOf").truthy then schema.get "anyOf"
  else .arr []

/-- The branch of a union is a primitive type. -/
def isPrimitive (option : Json) : Bool :=
  match option.get "type" with
  | .str t => primitiveTypes.contains t
  | _ => false

/-- The schema is a union, of primitive types only.  The branches must have items; a
text and an object have some, but no primitive types. -/
def isPrimitiveUnion (schema : Json) : Except Failure Bool :=
  match unionOptions schema with
  | .arr options => .ok (!options.isEmpty && options.all isPrimitive)
  | .str _ => .ok false
  | .obj _ => .ok false
  | _ => .error (.illShaped .items)

/-- The schema lists values, and they are texts. -/
def isStringEnum (schema : Json) : Bool :=
  match schema.get "enum" with
  | .arr values => !values.isEmpty && values.all (·.str?.isSome)
  | _ => false

/-- The schema has no properties of its own and describes all others. -/
def isMap (schema : Json) : Bool :=
  (schema.get "properties").isNull && (schema.get "additionalProperties").isObject

/-! ### The kind -/

/-- The kind of a schema that is neither a reference nor a union. -/
def plainKind (schema : Json) : Kind :=
  let type := schema.get "type"
  if type.isStr "string" && (schema.get "format").isStr "date-time" then .date
  else if type.isStr "boolean" then .boolean
  else if type.isStr "array" then .array
  else if type.isStr "any" || type.isStr "null" then .any
  else if type.isStr "number" || type.isStr "integer" then .numeric
  else if type.isStr "string" && isStringEnum schema then .enumString
  else if type.isStr "string" then .plainString
  else if isMap schema then .map
  else if (schema.get "properties").isObject then .struct
  else .fallback

/-- The kind of a schema.  What is no object has nothing that can be typed. -/
def classify (schema : Json) : Except Failure Kind :=
  if !schema.isObject then .ok .fallback
  else if (schema.get? "$ref").isSome then .ok .ref
  else (isPrimitiveUnion schema).map fun union => if union then .union else plainKind schema

end Schema
end SchemaScript
