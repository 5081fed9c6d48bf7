import SchemaScript.Proofs.Definitions
import SchemaScript.Resolver.Emission

/-!
# Sites

A site is a schema at its place, with the type name under which it is emitted.  From the
site of a definition an emission goes down to the items of arrays, the values of maps and
the properties of interfaces; in the place of `null` it goes on with what is defined under
the type name.  A reference ends the way down: behind it stands the site of another
definition.

## Main definitions

* `Site` — a schema, its type name and its place.
* `Site.Within` — the sites on the ways down from a site.
* `Definitions.Leads` — a reference within the one definition to the other.
* `Definitions.Stands` — the sites within definitions.
-/

namespace SchemaScript

/-- A schema at its place, and the type name that it is emitted under. -/
@[ext]
structure Site where
  typeName : String
  node : Node
  place : String

namespace Site

/-- The schema. -/
def schema (s : Site) : Json := s.node.schema

/-! ### Ways down -/

/-- A schema written inside another one, under the type name that a seed gives. -/
def inner (seed : String) (schema : Json) (place : String) : Site :=
  ⟨Name.ofPath seed, .inline schema, Definitions.withoutStart place⟩

/-- The items of an array. -/
def items (s : Site) : Site := inner s.typeName (s.schema.get "items") s.place

/-- The values of a map. -/
def values (s : Site) : Site := inner s.typeName (s.schema.get "additionalProperties") s.place

/-- The place of a property. -/
def propertyPlace (s : Site) (property : String) : String :=
  s.place ++ "." ++ Name.fieldName property

/-- A property of an interface. -/
def property (s : Site) (p : String × Json) : Site :=
  inner (s.propertyPlace p.1) p.2 (s.propertyPlace p.1)

section

variable (ds : Definitions)

/-- What is defined under the type name, in the place of the schema. -/
def lookUp (s : Site) : Site := { s with node := ds.node s.typeName }

/-- A definition, at a place. -/
def definition (path place : String) : Site := ⟨Name.ofDefinition path, ds.node path, place⟩

/-- The schema is the definition of the place, under the name of that definition. -/
def isDefinition (s : Site) : Bool :=
  ds.holds s.place s.node && Name.ofDefinition s.place == s.typeName

/-- The sites on the ways down from a site, itself included. -/
inductive Within (root : Site) : Site → Prop
  | self : Within root root
  | lookUp {s : Site} (h : Within root s) (hs : s.schema.isNull = true) :
    Within root (s.lookUp ds)
  | items {s : Site} (h : Within root s) (hs : Schema.classify s.schema = .ok .array) :
    Within root s.items
  | values {s : Site} (h : Within root s) (hs : Schema.classify s.schema = .ok .map) :
    Within root s.values
  | property {s : Site} {p : String × Json} (h : Within root s)
    (hs : Schema.classify s.schema = .ok .struct) (hp : p ∈ (s.schema.get "properties").fields)
    (hx : Resolver.isExtension p.1 = false) : Within root (s.property p)

/-- The schema is a reference to the path. -/
def RefersTo (s : Site) (path : String) : Prop :=
  Schema.classify s.schema = .ok .ref ∧ Definitions.path? (s.schema.get "$ref") = some path

end
end Site

namespace Definitions

variable (ds : Definitions)

/-- Within the definition of the one name stands a reference to the other. -/
def Leads (path path' : String) : Prop :=
  ∃ s, Site.Within ds (.definition ds path path) s ∧ s.RefersTo path'

/-- The site stands within a definition.  A definition is emitted at its own name, from
which the start of a reference is taken off if it has one, unless it is referred to. -/
def Stands (s : Site) : Prop :=
  ∃ path place, path ∈ ds.names ∧ (place = path ∨ place = withoutStart path) ∧
    Site.Within ds (.definition ds path place) s

/-- If the schema at hand is held under a name, it is what stands under it. -/
def Presents (node : Node) : Prop := ∀ name, ds.holds name node = true → node = ds.node name

variable {ds}

/-! ### Names -/

theorem mem_names_of_holds {name : String} {node : Node} (h : ds.holds name node = true) :
    name ∈ ds.names := by
  unfold holds at h
  cases hf : ds.table.find? name with
  | none =>
    rw [hf] at h
    cases h
  | some d =>
    rw [names, ← Table.contains_iff_mem_keys, Table.contains, hf]
    rfl

theorem presents_inline (schema : Json) : ds.Presents (.inline schema) := by
  intro name h
  rw [holds_inline] at h
  cases h

theorem presents_node (hd : ds.Distinct) (name : String) : ds.Presents (ds.node name) := by
  intro other h
  rw [eq_of_holds_node hd h]

theorem eq_definition {s : Site} (hn : ds.Presents s.node) (h : s.isDefinition ds = true) :
    s = .definition ds s.place s.place := by
  rw [Site.isDefinition, Bool.and_eq_true, beq_iff_eq] at h
  exact Site.ext h.2.symm (hn s.place h.1) rfl

/-- A definition that a reference leads to is the definition of its place. -/
theorem isDefinition_definition {path : String} (h : (ds.node path).schema.isNull = false) :
    (Site.definition ds path path).isDefinition ds = true := by
  rw [Site.isDefinition, Bool.and_eq_true]
  exact ⟨holds_node h, beq_self_eq_true _⟩

/-! ### Sites within definitions -/

theorem stands_definition {name : String} (h : name ∈ ds.names) :
    ds.Stands (.definition ds name name) :=
  ⟨name, name, h, Or.inl rfl, .self⟩

namespace Stands

variable {s : Site}

theorem lookUp (h : ds.Stands s) (hs : s.schema.isNull = true) : ds.Stands (s.lookUp ds) := by
  obtain ⟨path, place, hm, hp, hw⟩ := h
  exact ⟨path, place, hm, hp, hw.lookUp hs⟩

theorem items (h : ds.Stands s) (hs : Schema.classify s.schema = .ok .array) :
    ds.Stands s.items := by
  obtain ⟨path, place, hm, hp, hw⟩ := h
  exact ⟨path, place, hm, hp, hw.items hs⟩

theorem values (h : ds.Stands s) (hs : Schema.classify s.schema = .ok .map) :
    ds.Stands s.values := by
  obtain ⟨path, place, hm, hp, hw⟩ := h
  exact ⟨path, place, hm, hp, hw.values hs⟩

theorem property {p : String × Json} (h : ds.Stands s)
    (hs : Schema.classify s.schema = .ok .struct) (hmem : p ∈ (s.schema.get "properties").fields)
    (hx : Resolver.isExtension p.1 = false) : ds.Stands (s.property p) := by
  obtain ⟨path, place, hm, hp, hw⟩ := h
  exact ⟨path, place, hm, hp, hw.property hs hmem hx⟩

end Stands

end Definitions
end SchemaScript
