import SchemaScript.Proofs.Definitions
import SchemaScript.Resolver.Emission

/-!
# Schemas inside schemas

An emission goes from a schema down to the items of an array, the values of a map and the
properties of an interface that are no extensions.  What is asked of every schema on the
way is asked of the schemas of all definitions.

## Main definitions

* `Schema.Inside` — the schemas on the ways down from a schema.
* `Schema.Everywhere` — what holds of all of them.
* `Definitions.Each` — what holds of the schema under every name.

## Main results

* `Definitions.each_define`, `each_share`, `each_addAlias`, `each_defineAll` — what
  entering keeps.
-/

namespace SchemaScript

namespace Schema

/-- The properties of an interface that get a field. -/
def properties (schema : Json) : List (String × Json) :=
  (schema.get "properties").fields.filter fun p => !Resolver.isExtension p.1

/-- The schemas on the ways down from a schema, itself included. -/
inductive Inside (root : Json) : Json → Prop
  | self : Inside root root
  | items {v : Json} (h : Inside root v) (hk : classify v = .ok .array) :
    Inside root (v.get "items")
  | values {v : Json} (h : Inside root v) (hk : classify v = .ok .map) :
    Inside root (v.get "additionalProperties")
  | property {v : Json} {p : String × Json} (h : Inside root v) (hk : classify v = .ok .struct)
    (hp : p ∈ properties v) : Inside root p.2

theorem mem_properties {schema : Json} {p : String × Json} :
    p ∈ properties schema ↔
      p ∈ (schema.get "properties").fields ∧ Resolver.isExtension p.1 = false := by
  rw [properties, List.mem_filter, Bool.not_eq_true']

/-- How a kind is told. -/
theorem of_classify {schema : Json} {kind : Kind} (h : classify schema = .ok kind) :
    kind = .fallback ∧ schema.isObject = false ∨
      kind = .ref ∧ (schema.get? "$ref").isSome = true ∨
      kind = .union ∧ isPrimitiveUnion schema = .ok true ∨
      plainKind schema = kind ∧ schema.isObject = true := by
  unfold classify at h
  split at h
  · next ho =>
    cases h
    exact Or.inl ⟨rfl, by simpa using ho⟩
  · next ho =>
    split at h
    · next href =>
      cases h
      exact Or.inr (Or.inl ⟨rfl, href⟩)
    · cases hu : isPrimitiveUnion schema with
      | error e =>
        rw [hu] at h
        cases h
      | ok b =>
        rw [hu] at h
        cases b with
        | true =>
          cases h
          exact Or.inr (Or.inr (Or.inl ⟨rfl, rfl⟩))
        | false => exact Or.inr (Or.inr (Or.inr ⟨Except.ok.inj h, by simpa using ho⟩))

/-- What is no scalar is no `null`. -/
theorem not_isNull_of_classify {schema : Json} {kind : Kind} (h : classify schema = .ok kind)
    (hs : kind.scalar? = none) : schema.isNull = false := by
  cases schema with
  | null =>
    cases h
    cases hs
  | _ => rfl

/-- References and unions are told before the plain kinds. -/
theorem plainKind_ne (schema : Json) : plainKind schema ≠ .ref ∧ plainKind schema ≠ .union := by
  unfold plainKind
  dsimp only
  split_ifs <;> exact ⟨by decide, by decide⟩

/-- The branches of a union are primitive types. -/
theorem isPrimitiveUnion_of_classify {schema : Json} (h : classify schema = .ok .union) :
    isPrimitiveUnion schema = .ok true := by
  rcases of_classify h with ⟨hk, -⟩ | ⟨hk, -⟩ | ⟨-, hu⟩ | ⟨hk, -⟩
  · cases hk
  · cases hk
  · exact hu
  · exact absurd hk (plainKind_ne schema).2

/-- A way down goes on from where another one ends. -/
theorem Inside.trans {u v w : Json} (h : Inside u v) (h' : Inside v w) : Inside u w := by
  induction h' with
  | self => exact h
  | items _ hk ih => exact ih.items hk
  | values _ hk ih => exact ih.values hk
  | property _ hk hp ih => exact ih.property hk hp

/-- The predicate holds of every schema on the ways down. -/
def Everywhere (Q : Json → Prop) (root : Json) : Prop := ∀ v, Inside root v → Q v

/-- The first step of a way down. -/
theorem Inside.first {root v : Json} (h : Inside root v) :
    v = root ∨ (classify root = .ok .array ∧ Inside (root.get "items") v) ∨
      (classify root = .ok .map ∧ Inside (root.get "additionalProperties") v) ∨
      classify root = .ok .struct ∧ ∃ p ∈ properties root, Inside p.2 v := by
  induction h with
  | self => exact Or.inl rfl
  | items _ hk ih =>
    rcases ih with rfl | ⟨hr, h⟩ | ⟨hr, h⟩ | ⟨hr, p, hp, h⟩
    · exact Or.inr (Or.inl ⟨hk, .self⟩)
    · exact Or.inr (Or.inl ⟨hr, h.items hk⟩)
    · exact Or.inr (Or.inr (Or.inl ⟨hr, h.items hk⟩))
    · exact Or.inr (Or.inr (Or.inr ⟨hr, p, hp, h.items hk⟩))
  | values _ hk ih =>
    rcases ih with rfl | ⟨hr, h⟩ | ⟨hr, h⟩ | ⟨hr, p, hp, h⟩
    · exact Or.inr (Or.inr (Or.inl ⟨hk, .self⟩))
    · exact Or.inr (Or.inl ⟨hr, h.values hk⟩)
    · exact Or.inr (Or.inr (Or.inl ⟨hr, h.values hk⟩))
    · exact Or.inr (Or.inr (Or.inr ⟨hr, p, hp, h.values hk⟩))
  | property _ hk hq ih =>
    rcases ih with rfl | ⟨hr, h⟩ | ⟨hr, h⟩ | ⟨hr, p, hp, h⟩
    · exact Or.inr (Or.inr (Or.inr ⟨hk, _, hq, .self⟩))
    · exact Or.inr (Or.inl ⟨hr, h.property hk hq⟩)
    · exact Or.inr (Or.inr (Or.inl ⟨hr, h.property hk hq⟩))
    · exact Or.inr (Or.inr (Or.inr ⟨hr, p, hp, h.property hk hq⟩))

namespace Everywhere

variable {Q : Json → Prop} {root : Json}

theorem here (h : Everywhere Q root) : Q root := h root .self

theorem inside (h : Everywhere Q root) {v : Json} (hv : Inside root v) : Everywhere Q v :=
  fun w hw => h w (hv.trans hw)

theorem items (h : Everywhere Q root) (hk : classify root = .ok .array) :
    Everywhere Q (root.get "items") :=
  h.inside (.items .self hk)

theorem values (h : Everywhere Q root) (hk : classify root = .ok .map) :
    Everywhere Q (root.get "additionalProperties") :=
  h.inside (.values .self hk)

theorem property (h : Everywhere Q root) (hk : classify root = .ok .struct) {p : String × Json}
    (hp : p ∈ properties root) : Everywhere Q p.2 :=
  h.inside (.property .self hk hp)

/-- What holds of a schema and everywhere in its parts holds everywhere in it. -/
theorem of_parts (h : Q root)
    (items : classify root = .ok .array → Everywhere Q (root.get "items"))
    (values : classify root = .ok .map → Everywhere Q (root.get "additionalProperties"))
    (property : classify root = .ok .struct → ∀ p ∈ properties root, Everywhere Q p.2) :
    Everywhere Q root := by
  intro v hv
  rcases hv.first with rfl | ⟨hk, hv⟩ | ⟨hk, hv⟩ | ⟨hk, p, hp, hv⟩
  · exact h
  · exact items hk v hv
  · exact values hk v hv
  · exact property hk p hp v hv

/-- From most kinds no way leads down. -/
theorem leaf (kind : Kind) (hk : classify root = .ok kind)
    (hleaf : kind ≠ .array ∧ kind ≠ .map ∧ kind ≠ .struct) (h : Q root) :
    Everywhere Q root := by
  refine of_parts h (fun hk' => ?_) (fun hk' => ?_) fun hk' => ?_ <;>
    rw [hk, Except.ok.injEq] at hk'
  · exact absurd hk' hleaf.1
  · exact absurd hk' hleaf.2.1
  · exact absurd hk' hleaf.2.2

theorem null (h : Q .null) : Everywhere Q .null :=
  leaf .fallback rfl (by decide) h

/-- Of a reference nothing but itself is inside. -/
theorem reference {text : String} (h : Q (.obj [("$ref", .str text)])) :
    Everywhere Q (.obj [("$ref", .str text)]) :=
  leaf .ref rfl (by decide) h

end Everywhere
end Schema

/-! ### Definitions -/

namespace Definitions

/-- The predicate holds of the schema under every name, `null` where none is defined. -/
def Each (P : Json → Prop) (ds : Definitions) : Prop := ∀ path, P (ds.get path)

variable {P : Json → Prop} {ds : Definitions}

/-- What stands under a name after one is entered. -/
theorem get_insert (ds : Definitions) (name : String) (d : Definition) (next : Nat)
    (path : String) :
    (Definitions.mk (ds.table.insert name d) next).get path =
      if name = path then d.schema else ds.get path := by
  rw [get, node, Table.find?_insert]
  by_cases h : name = path
  · rw [if_pos h, if_pos h]
    rfl
  · rw [if_neg h, if_neg h, get, node]

theorem get_define (ds : Definitions) (name : String) (schema : Json) (path : String) :
    (ds.define name schema).get path = if name = path then schema else ds.get path :=
  get_insert ds name ⟨schema, ds.nextStamp⟩ _ path

theorem get_share (ds : Definitions) (name : String) (node : Node) (path : String) :
    (ds.share name node).get path = if name = path then node.schema else ds.get path := by
  unfold share
  split
  · next stamp _ => exact get_insert ds name ⟨node.schema, stamp⟩ _ path
  · exact get_define ds name node.schema path

theorem each_empty (h : P .null) : empty.Each P := fun _ => h

theorem each_define (h : ds.Each P) (name : String) {schema : Json} (hs : P schema) :
    (ds.define name schema).Each P := by
  intro path
  rw [get_define]
  split
  · exact hs
  · exact h path

theorem each_share (h : ds.Each P) (name : String) {node : Node} (hs : P node.schema) :
    (ds.share name node).Each P := by
  intro path
  rw [get_share]
  split
  · exact hs
  · exact h path

/-- An alias is entered as a reference. -/
theorem each_addAlias (h : ds.Each P) (href : ∀ text, P (.obj [("$ref", .str text)]))
    (name target : String) : (ds.addAlias name target).Each P :=
  each_define h name (href _)

theorem each_defineAll (h : ds.Each P) {fs : List (String × Json)}
    (hfs : ∀ name v, (name, v) ∈ fs → P v) : (ds.defineAll fs).Each P := by
  induction fs generalizing ds with
  | nil => exact h
  | cons f fs ih =>
    refine ih (each_define h f.1 (hfs f.1 f.2 List.mem_cons_self)) fun name v hv => ?_
    exact hfs name v (List.mem_cons_of_mem f hv)

end Definitions
end SchemaScript
