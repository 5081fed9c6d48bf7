import SchemaScript.Json.Literal

/-!
# Failures

Every way in which an operation can fail, as a cause.  The first causes say what is
wrong with a schema or a request; then come misuses of the writing operations; the
last ones say that a value has not the shape that an operation needs.

## Main definitions

* `Failure` — the causes.
* `Failure.message` — the text that a cause is reported with.
* `Json.items` — the items of a value, if it has any.
-/

namespace SchemaScript

/-- Why a schema is no string enum. -/
inductive EnumFault
  /-- It lists no values. -/
  | noValues
  /-- Its type is not `string`. -/
  | notStrings
  deriving DecidableEq

/-- The text of an enum fault. -/
def EnumFault.reason : EnumFault → String
  | noValues => "definition is not an enum"
  | notStrings => "can only generate string enums"

/-- What an operation needed where something else stood. -/
inductive Need
  /-- An object. -/
  | object
  /-- A text. -/
  | text
  /-- A value with items. -/
  | items
  /-- The text of a pattern. -/
  | pattern
  /-- A text to indent with. -/
  | indentation
  deriving DecidableEq

/-- The cause of a failure. -/
inductive Failure
  /-- No definition has the name. -/
  | unknownType (typeName : String)
  /-- The name is not written as a type name. -/
  | nameNotNormalized (typeName expected : String)
  /-- The name matches an exclusion pattern. -/
  | typeExcluded (fqn pattern : String)
  /-- The reference is not one to a definition of the same document. -/
  | invalidReference (ref : Json)
  /-- Nothing is defined under the name referred to. -/
  | unresolvedReference (ref lookup : String)
  /-- The items of an array are not described by one schema. -/
  | unsupportedArray (typeName : String) (items : Json)
  /-- The schema is no string enum. -/
  | invalidEnum (typeName : String) (fault : EnumFault)
  /-- A value of an enum is no string. -/
  | nonStringEnumValue (typeName : String) (value : Json)
  /-- A block is closed that was not opened. -/
  | unmatchedClose
  /-- A declaration to be written by hand has no script. -/
  | missingScript (name : String)
  /-- The declaration has nothing to write. -/
  | bareDeclaration
  /-- A value has not the shape needed. -/
  | illShaped (need : Need)
  /-- The text of a pattern cannot be read. -/
  | unreadablePattern
  /-- A union has an option without a name. -/
  | namelessOption
  /-- A table lacks the name to be taken out. -/
  | nameGone (name : String)
  /-- Scripts run one another too deeply. -/
  | nestedTooDeeply
  /-- The work set aside for an operation is used up. -/
  | outOfFuel

namespace Failure

/-- The reason given for a value of an enum that is no string. -/
def nonStringReason (value : Json) : String :=
  "can only generate enums for string values, got " ++ value.literal

/-- The text of an enum failure. -/
def enumMessage (typeName reason : String) : String :=
  typeName ++ " is not a valid enum: " ++ reason

/-- The text that a failure is reported with.  Ill-shaped values are reported by
their kind alone. -/
def message : Failure → String
  | unknownType typeName => "unable to find schema definition for " ++ typeName
  | nameNotNormalized typeName expected =>
    typeName ++ " must be normalized before calling emit_type (expected " ++ expected ++ ")"
  | typeExcluded fqn pattern =>
    "Type " ++ fqn ++ " cannot be added since it matches the exclusion pattern "
      ++ (Json.str pattern).literal
  | invalidReference ref => "invalid $ref " ++ ref.literal ++ ", expecting a local reference"
  | unresolvedReference _ lookup => "unable to find a definition for the $ref \"" ++ lookup ++ "\""
  | unsupportedArray typeName items =>
    "unsupported array type for " ++ typeName ++ ": items=" ++ items.literal
  | invalidEnum typeName fault => enumMessage typeName fault.reason
  | nonStringEnumValue typeName value => enumMessage typeName (nonStringReason value)
  | unmatchedClose => "close_block() called without a matching open_block()"
  | missingScript name => "custom type " ++ name ++ " has no emitter"
  | bareDeclaration => "Unsupported declaration: Declaration"
  | _ => ""

/-- The failure is one of the reported ones: it concerns the schema or the request,
not the shape of a value or the use of an operation. -/
def isReported : Failure → Bool
  | unknownType _ | nameNotNormalized _ _ | typeExcluded _ _ | invalidReference _
  | unresolvedReference _ _ | unsupportedArray _ _ | invalidEnum _ _
  | nonStringEnumValue _ _ => true
  | _ => false

end Failure

/-- The items of a value: those of an array, the characters of a text, the keys of an
object. -/
def Json.items : Json → Except Failure (List Json)
  | arr vs => .ok vs
  | str s => .ok (s.toList.map fun c => str (String.singleton c))
  | obj fs => .ok (fs.map fun f => str f.1)
  | _ => .error (.illShaped .items)

end SchemaScript
