import SchemaScript.Name.FieldName
import SchemaScript.Name.MemberName
import SchemaScript.Resolver.Basic
import SchemaScript.Text.Start

/-!
# Emission

Emitting a schema under a type name gives the type expression for it.  Scalars,
arrays and maps are expressions by themselves; interfaces, enums and unions are
queued under the type name, which is their expression.  A reference is emitted as
the definition that it leads to.

The schemas that a schema leads to are emitted by a call handed down, so that each
step is a plain function; `emitWith` ties the knot with fuel.  A chain of nested
emissions is finite: every reference followed opens or declares a name that was
neither open, nor declared, nor resolved before, and between two references the
schemas shrink or a new name is declared.  `fuelFor` counts such a chain out.

## Main definitions

* `Emitting` — an emission by name, schema and place.
* `emitRef`, `emitArray`, `emitMap`, `emitUnion`, `emitEnum`, `emitStruct` — the kinds.
* `emitStep` — one emission, given the emissions it leads to.
* `Resolver.emit` — the emission of a schema.
-/

namespace SchemaScript
namespace Resolver

variable {ε : Type}

/-- An emission: the type name, the schema, and its place among the definitions. -/
abbrev Emitting (ε : Type) := String → Node → String → Resolving ε TypeExpr

/-! ### References -/

/-- The definition of the name is open, and it has no declaration of its own at which
a reference back to it could end. -/
def isOpenUnnamed (r : Resolver ε) (name : String) : Bool :=
  (r.opening.find? name).any fun o => !o.kind.isNamed

/-- Emits a reference: as `any` if it leads to an excluded type or back into an open
definition without a declaration, and otherwise as what it leads to. -/
def emitRef (emit : Emitting ε) (schema : Json) (fqn : String) : Resolving ε TypeExpr := do
  let ref := schema.get "$ref"
  match Definitions.path? ref with
  | none => throw (.invalidReference ref)
  | some path =>
    let text := Definitions.refTo path
    let name := Name.ofDefinition path
    let r ← get
    if r.isExcluded text || r.isExcluded path then
      note (.excludedReference fqn path)
      return .any
    else match r.resolved.find? name with
      | some t => return t
      | none =>
        if r.isOpenUnnamed name then
          note (.recursiveReference text r.opening.entries)
          return .any
        else if r.queue.isKnown name then return .named name
        else
          let node ← r.definitions.resolve ref
          emit name node text

/-! ### Arrays and maps -/

/-- Emits a schema inside another one, under the name that a seed gives. -/
def emitInner (emit : Emitting ε) (seed : String) (schema : Json) (fqn : String) :
    Resolving ε TypeExpr :=
  emit (Name.ofPath seed) (.inline schema) fqn

/-- Emits an array, whose items one schema must describe. -/
def emitArray (emit : Emitting ε) (typeName : String) (schema : Json) (fqn : String) :
    Resolving ε TypeExpr := do
  let items := schema.get "items"
  if items.isObject then return .array (← emitInner emit typeName items fqn)
  else throw (.unsupportedArray typeName items)

/-- Emits a map. -/
def emitMap (emit : Emitting ε) (typeName : String) (schema : Json) (fqn : String) :
    Resolving ε TypeExpr := do
  return .map (← emitInner emit typeName (schema.get "additionalProperties") fqn)

/-! ### Unions -/

/-- The primitive type of a branch; whole numbers are numbers. -/
def optionType (option : Json) : Option String :=
  match option.get "type" with
  | .str "integer" => some "number"
  | .str t => some t
  | _ => none

/-- The values of a list, each at its first place only. -/
def distinct (seen : List String) : List String → List String
  | [] => []
  | s :: ss => if s ∈ seen then distinct seen ss else s :: distinct (s :: seen) ss

/-- The distinct types of the branches. -/
def optionTypes (schema : Json) : List String :=
  match Schema.unionOptions schema with
  | .arr options => distinct [] (options.filterMap optionType)
  | _ => []

/-- Declares a union, unless its name is known. -/
def emitUnion (typeName : String) (schema : Json) (fqn : String) : Resolving ε TypeExpr := do
  let r ← get
  if !r.queue.isKnown typeName then
    let _ ← enqueue
      ⟨typeName, fqn, schema.get "description", some schema, .union (optionTypes schema)⟩ false
  return .named typeName

/-! ### Enums -/

/-- The members for the values of an enum.  A value that was seen is passed over, and
a name that was used is numbered. -/
def members (typeName fqn : String) (used seen : List String) :
    List Json → Resolving ε (List Member)
  | [] => return []
  | .str value :: values =>
    if value ∈ seen then members typeName fqn used seen values
    else do
      let base := Name.memberName value
      let name := if base ∈ used then Name.freshName base used else base
      if base ∈ used then note (.renamedMember fqn value base name)
      let ms ← members typeName fqn (name :: used) (value :: seen) values
      return ⟨name, value⟩ :: ms
  | value :: _ => throw (.nonStringEnumValue typeName value)

/-- The values of an enum: there must be some, and the type must be `string`. -/
def enumValues (typeName : String) (schema : Json) : Except Failure (List Json) :=
  match schema with
  | .obj _ =>
    match schema.get "enum" with
    | .arr (v :: vs) =>
      if (schema.get "type").isStr "string" then .ok (v :: vs)
      else .error (.invalidEnum typeName .notStrings)
    | _ => .error (.invalidEnum typeName .noValues)
  | _ => .error (.illShaped .object)

/-- Declares an enum, unless its name is known. -/
def emitEnum (typeName : String) (schema : Json) (fqn : String) : Resolving ε TypeExpr := do
  let r ← get
  if !r.queue.isKnown typeName then
    let values ← enumValues typeName schema
    let ms ← members typeName fqn [] [] values
    let _ ← enqueue ⟨typeName, fqn, schema.get "description", some schema, .enum ms⟩ false
  return .named typeName

/-! ### Interfaces -/

/-- What the names of extensions start with; they have no fields. -/
def extensionStart : List Char := ['x', '-']

/-- The property is an extension. -/
def isExtension (property : String) : Bool :=
  (Text.after? extensionStart property.toList).isSome

/-- The schema requires the property. -/
def requires (schema : Json) (property : String) : Bool :=
  match schema.get "required" with
  | .arr names => names.any (·.isStr property)
  | _ => false

/-- The field for a property. -/
def field (emit : Emitting ε) (structFqn : String) (struct : Json) (property : String)
    (schema : Json) : Resolving ε Field := do
  let name := Name.fieldName property
  let fqn := structFqn ++ "." ++ name
  let type ← emitInner emit fqn schema fqn
  return {
    name := Name.fieldKey name
    schemaName := property
    type
    optional := !requires struct property
    fqn := structFqn ++ "#" ++ property
    description := schema.get "description" }

/-- The fields for the properties, extensions left out. -/
def fields (emit : Emitting ε) (structFqn : String) (struct : Json) :
    List (String × Json) → Resolving ε (List Field)
  | [] => return []
  | (property, schema) :: ps =>
    if isExtension property then fields emit structFqn struct ps
    else do
      let f ← field emit structFqn struct property schema
      let fs ← fields emit structFqn struct ps
      return f :: fs

/-- Completes the declaration that waits under its name. -/
def complete (d : Declaration ε) : Resolving ε Unit :=
  modify fun r => { r with queue := { r.queue with waiting := r.queue.waiting.insert d.name d } }

/-- Undoes what came after a state: declarations and resolved definitions are
forgotten down to the numbers there were. -/
def undoSince (before : Resolver ε) : Resolving ε Unit := do
  let _ ← withdraw before.queue.checkpoint
  modify fun r => { r with resolved := r.resolved.take before.resolved.size }

/-- Declares an interface, unless its name is known.  It is queued before its fields
are resolved, so that references back to it end; if a field fails, all that was queued
since is withdrawn, for it may refer to the interface. -/
def emitStruct (emit : Emitting ε) (typeName : String) (schema : Json) (fqn : String) :
    Resolving ε TypeExpr := do
  let before ← get
  if !before.queue.isKnown typeName then
    let head : Declaration ε :=
      ⟨typeName, fqn, schema.get "description", some schema, .struct []⟩
    let _ ← enqueue head false
    let fs ← tryCatch (fields emit fqn schema (schema.get "properties").fields) fun e => do
      undoSince before
      throw e
    complete { head with body := .struct fs }
  return .named typeName

/-! ### One emission -/

/-- Emits a schema of a kind that is no scalar. -/
def emitKind (emit : Emitting ε) (kind : Kind) (typeName : String) (schema : Json) (fqn : String) :
    Resolving ε TypeExpr :=
  match kind with
  | .ref => emitRef emit schema fqn
  | .union => emitUnion typeName schema fqn
  | .array => emitArray emit typeName schema fqn
  | .enumString => emitEnum typeName schema fqn
  | .map => emitMap emit typeName schema fqn
  | .struct => emitStruct emit typeName schema fqn
  | _ => return .any

/-- The schema to emit: in the place of `null`, the one defined under the type name. -/
def nodeFor (r : Resolver ε) (typeName : String) (node : Node) : Except Failure Node :=
  if node.schema.isNull then
    let found := r.definitions.node typeName
    if found.schema.isNull then .error (.unknownType typeName) else .ok found
  else .ok node

/-- The kind of a schema, if it can be emitted under the name at the place: the name
must be a type name, and no exclusion may hit the place. -/
def admission (r : Resolver ε) (typeName : String) (node : Node) (fqn : String) :
    Except Failure Kind :=
  if ¬ Name.IsTypeName typeName then
    .error (.nameNotNormalized typeName (Name.typeName typeName))
  else match r.exclusionOf fqn with
    | some e => .error (.typeExcluded fqn e.text)
    | none => Schema.classify node.schema

/-- The schema is the definition of the place, emitted under the name of that
definition. -/
def isDefinition (r : Resolver ε) (typeName : String) (node : Node) (fqn : String) : Bool :=
  r.definitions.holds fqn node && Name.ofDefinition fqn == typeName

/-- Marks a definition as open. -/
def openDefinition (typeName : String) (o : Opening) : Resolving ε Unit :=
  modify fun r => { r with opening := r.opening.insert typeName o }

/-- Takes the mark off; it must be there. -/
def closeDefinition (typeName : String) : Resolving ε Unit := do
  let r ← get
  if r.opening.contains typeName then set { r with opening := r.opening.erase typeName }
  else throw (.nameGone typeName)

/-- Emits a definition: once, for then its expression is known. -/
def emitDefinition (emit : Emitting ε) (kind : Kind) (typeName : String) (schema : Json)
    (fqn : String) : Resolving ε TypeExpr := do
  let r ← get
  match r.resolved.find? typeName with
  | some t => return t
  | none =>
    openDefinition typeName ⟨fqn, kind⟩
    let t ← tryCatch (emitKind emit kind typeName schema fqn) fun e => do
      closeDefinition typeName
      throw e
    closeDefinition typeName
    modify fun r => { r with resolved := r.resolved.insert typeName t }
    return t

/-- One emission, given the emissions it leads to. -/
def emitStep (emit : Emitting ε) : Emitting ε := fun typeName node fqn => do
  let r ← get
  let node ← r.nodeFor typeName node
  let fqn := Definitions.withoutStart fqn
  let kind ← r.admission typeName node fqn
  match kind.scalar? with
  | some s =>
    if kind = .fallback then note (.untyped fqn)
    return .scalar s
  | none =>
    if r.isDefinition typeName node fqn then emitDefinition emit kind typeName node.schema fqn
    else emitKind emit kind typeName node.schema fqn

/-- Emission with nested emissions down to a depth. -/
def emitWith : Nat → Emitting ε
  | 0 => fun _ _ _ => throw .outOfFuel
  | n + 1 => emitStep (emitWith n)

@[simp] theorem emitWith_zero (typeName : String) (node : Node) (fqn : String) :
    (emitWith 0 : Emitting ε) typeName node fqn = throw .outOfFuel := rfl

@[simp] theorem emitWith_succ (n : Nat) : (emitWith (n + 1) : Emitting ε) = emitStep (emitWith n) :=
  rfl

/-- The depth that nested emissions stay below.  A chain of them follows at most one
reference and one look-up by name for each definition, and one look-up before each
reference; between two of these it descends into one schema. -/
def fuelFor (r : Resolver ε) (node : Node) : Nat :=
  (3 * r.definitions.table.size + 4) * (max r.definitions.height node.schema.height + 2)

/-- Emits a schema under a type name; its place is the name unless another is given. -/
def emit (typeName : String) (node : Node) (fqn : Option String) : Resolving ε TypeExpr := do
  let r ← get
  emitWith (r.fuelFor node) typeName node (fqn.getD typeName)

/-- Emits what is defined under a name, as the definition that it is. -/
def emitNamed (name : String) : Resolving ε TypeExpr := do
  let r ← get
  emit (Name.ofDefinition name) (r.definitions.node name) (some name)

end Resolver
end SchemaScript
