import SchemaScript.Proofs.Emission.Building
import SchemaScript.Proofs.References

/-!
# The expression of a schema

If references form no cycle and no type name is shared, then the expression of a schema does
not depend on the state in which it is emitted: a schema that is declared comes to its type
name, an array to the array of the expression of its items, and a reference to the expression
of the definition that it leads to.  What depends on the state is whether the names in the
expression are known.

## Main definitions

* `Site.Inside` — the sites inside a site.
* `Site.Answers` — the expression of a schema, with the names in it known.

## Main results

* `Site.Answers.unique` — a schema has one expression, whichever names are known.
* `Site.Declared.unique` — and a site one declaration.
-/

namespace SchemaScript
namespace Site

/-! ### Sites inside a site -/

/-- The sites on the ways down from a site, itself included. -/
inductive Inside (root : Site) : Site → Prop
  | self : Inside root root
  | items {s : Site} (h : Inside root s) (hk : Schema.classify s.schema = .ok .array) :
    Inside root s.items
  | values {s : Site} (h : Inside root s) (hk : Schema.classify s.schema = .ok .map) :
    Inside root s.values
  | property {s : Site} {p : String × Json} (h : Inside root s)
    (hk : Schema.classify s.schema = .ok .struct) (hp : p ∈ Schema.properties s.schema) :
    Inside root (s.property p)

/-- The schemas of the sites inside a site are inside its schema. -/
theorem Inside.schema {root s : Site} (h : Inside root s) :
    Schema.Inside root.schema s.schema := by
  induction h with
  | self => exact .self
  | items _ hk ih => exact ih.items hk
  | values _ hk ih => exact ih.values hk
  | property _ hk hp ih => exact ih.property hk hp

/-- Every schema inside the schema of a site stands at a site inside it. -/
theorem exists_inside (root : Site) {v : Json} (h : Schema.Inside root.schema v) :
    ∃ s, Inside root s ∧ s.schema = v := by
  induction h with
  | self => exact ⟨root, .self, rfl⟩
  | items _ hk ih =>
    obtain ⟨s, hs, rfl⟩ := ih
    exact ⟨s.items, hs.items hk, rfl⟩
  | values _ hk ih =>
    obtain ⟨s, hs, rfl⟩ := ih
    exact ⟨s.values, hs.values hk, rfl⟩
  | property _ hk hp ih =>
    obtain ⟨s, hs, rfl⟩ := ih
    exact ⟨s.property _, hs.property hk hp, rfl⟩

/-- Sites among which all ways down stay are all that is inside. -/
theorem Inside.mem_of_closed {root : Site} {l : List Site} (hroot : root ∈ l)
    (items : ∀ s ∈ l, Schema.classify s.schema = .ok .array → s.items ∈ l)
    (values : ∀ s ∈ l, Schema.classify s.schema = .ok .map → s.values ∈ l)
    (property : ∀ s ∈ l, Schema.classify s.schema = .ok .struct →
      ∀ p ∈ Schema.properties s.schema, s.property p ∈ l) {s : Site} (h : Inside root s) :
    s ∈ l := by
  induction h with
  | self => exact hroot
  | items _ hk ih => exact items _ ih hk
  | values _ hk ih => exact values _ ih hk
  | property _ hk hp ih => exact property _ ih hk _ hp

/-- The schema is written where it stands. -/
def IsInline (s : Site) : Prop := s.node.stamp = none

theorem IsInline.holds_eq_false {s : Site} (h : s.IsInline) (ds : Definitions) (name : String) :
    ds.holds name s.node = false := by
  unfold Definitions.holds
  rw [show s.node.stamp = none from h]
  cases ds.table.find? name <;> rfl

/-- The schema is of a kind that is declared under its type name. -/
def IsNamed (s : Site) : Prop :=
  ∃ kind, Schema.classify s.schema = .ok kind ∧ kind.isNamed = true

/-- What is inside a site is the site itself or written inside it. -/
theorem Inside.eq_or_isInline {root s : Site} (h : Inside root s) : s = root ∨ s.IsInline := by
  cases h with
  | self => exact Or.inl rfl
  | items _ _ => exact Or.inr rfl
  | values _ _ => exact Or.inr rfl
  | property _ _ _ => exact Or.inr rfl

/-! ### Expressions -/

/-- The schema of the site comes to the expression, and the names in it are known. -/
inductive Answers {ε : Type} (es : List Exclusion) (ds : Definitions) (q : Queue ε) :
    Site → TypeExpr → Prop
  | scalar {s : Site} {kind : Kind} {scalar : Scalar} (hk : Schema.classify s.schema = .ok kind)
    (hs : kind.scalar? = some scalar) : Answers es ds q s (.scalar scalar)
  | named {s : Site} (hs : s.IsNamed) (hq : q.isKnown s.typeName = true) :
    Answers es ds q s (.named s.typeName)
  | array {s : Site} {t : TypeExpr} (hk : Schema.classify s.schema = .ok .array)
    (h : Answers es ds q s.items t) : Answers es ds q s (.array t)
  | map {s : Site} {t : TypeExpr} (hk : Schema.classify s.schema = .ok .map)
    (h : Answers es ds q s.values t) : Answers es ds q s (.map t)
  | stopped {s : Site} {path : String} (href : s.RefersTo path)
    (hx : Exclusion.stops es path = true) : Answers es ds q s .any
  | reference {s : Site} {path : String} {t : TypeExpr} (href : s.RefersTo path)
    (hx : Exclusion.stops es path = false) (h : Answers es ds q (.definition ds path path) t) :
    Answers es ds q s t

namespace Answers

variable {ε : Type} {es : List Exclusion} {ds : Definitions} {q q' : Queue ε} {s : Site}
  {t t' : TypeExpr}

/-! #### What the kind says about the expression -/

/-- How a schema of a kind comes to its expression. -/
def IsOfKind (es : List Exclusion) (ds : Definitions) (q : Queue ε) (s : Site) (t : TypeExpr) :
    Kind → Prop
  | .array => ∃ u, t = .array u ∧ Answers es ds q s.items u
  | .map => ∃ u, t = .map u ∧ Answers es ds q s.values u
  | .union | .enumString | .struct => t = .named s.typeName ∧ q.isKnown s.typeName = true
  | .ref => ∃ path, s.RefersTo path ∧ (Exclusion.stops es path = true ∧ t = .any ∨
      Exclusion.stops es path = false ∧ Answers es ds q (.definition ds path path) t)
  | kind => kind.scalar?.map .scalar = some t

theorem isOfKind (h : Answers es ds q s t) {kind : Kind}
    (hk : Schema.classify s.schema = .ok kind) : IsOfKind es ds q s t kind := by
  cases h with
  | scalar hk' hs =>
    cases hk.symm.trans hk'
    -- the kinds that are no scalars are none of these
    cases kind <;> cases hs <;> rfl
  | named hn hq =>
    obtain ⟨kind', hk', hn⟩ := hn
    cases hk.symm.trans hk'
    cases kind <;> cases hn <;> exact ⟨rfl, hq⟩
  | array hk' h | map hk' h =>
    cases hk.symm.trans hk'
    exact ⟨_, rfl, h⟩
  | stopped href hx =>
    cases hk.symm.trans href.1
    exact ⟨_, href, Or.inl ⟨hx, rfl⟩⟩
  | reference href hx h =>
    cases hk.symm.trans href.1
    exact ⟨_, href, Or.inr ⟨hx, h⟩⟩

theorem of_scalar (h : Answers es ds q s t) {kind : Kind} {scalar : Scalar}
    (hk : Schema.classify s.schema = .ok kind) (hs : kind.scalar? = some scalar) :
    t = .scalar scalar := by
  have hshape := h.isOfKind hk
  cases kind <;> cases hs <;> cases hshape <;> rfl

theorem of_isNamed (h : Answers es ds q s t) (hs : s.IsNamed) :
    t = .named s.typeName ∧ q.isKnown s.typeName = true := by
  obtain ⟨kind, hk, hn⟩ := hs
  have hshape := h.isOfKind hk
  cases kind <;> cases hn <;> exact hshape

theorem of_array (h : Answers es ds q s t) (hk : Schema.classify s.schema = .ok .array) :
    ∃ u, t = .array u ∧ Answers es ds q s.items u :=
  h.isOfKind hk

theorem of_map (h : Answers es ds q s t) (hk : Schema.classify s.schema = .ok .map) :
    ∃ u, t = .map u ∧ Answers es ds q s.values u :=
  h.isOfKind hk

theorem of_reference (h : Answers es ds q s t) {path : String} (href : s.RefersTo path) :
    (Exclusion.stops es path = true ∧ t = .any) ∨
      (Exclusion.stops es path = false ∧ Answers es ds q (.definition ds path path) t) := by
  obtain ⟨path', href', h'⟩ := h.isOfKind href.1
  cases href.2.symm.trans href'.2
  exact h'

/-! #### Comparing states -/

/-- **A schema has one expression**, whichever names are known. -/
theorem unique (h : Answers es ds q s t) (h' : Answers es ds q' s t') : t = t' := by
  induction h generalizing t' with
  | scalar hk hs => exact (h'.of_scalar hk hs).symm
  | named hn _ => exact (h'.of_isNamed hn).1.symm
  | array hk _ ih =>
    obtain ⟨u, rfl, hu⟩ := h'.of_array hk
    rw [ih hu]
  | map hk _ ih =>
    obtain ⟨u, rfl, hu⟩ := h'.of_map hk
    rw [ih hu]
  | stopped href hx =>
    rcases h'.of_reference href with ⟨-, rfl⟩ | ⟨hx', -⟩
    · rfl
    · exact absurd (hx.symm.trans hx') Bool.true_eq_false.mp
  | reference href hx _ ih =>
    rcases h'.of_reference href with ⟨hx', -⟩ | ⟨-, hu⟩
    · exact absurd (hx'.symm.trans hx) Bool.true_eq_false.mp
    · exact ih hu

/-- One function gives the expressions of all schemas, whichever names are known. -/
theorem exists_type (ε : Type) (es : List Exclusion) (ds : Definitions) :
    ∃ type : Site → TypeExpr, ∀ s (q : Queue ε) t, Answers es ds q s t → t = type s := by
  have hone : ∀ s, ∃ t, ∀ (q : Queue ε) u, Answers es ds q s u → u = t := by
    intro s
    by_cases h : ∃ (q : Queue ε) (t : TypeExpr), Answers es ds q s t
    · obtain ⟨q, t, ht⟩ := h
      exact ⟨t, fun _ _ hu => hu.unique ht⟩
    · exact ⟨.any, fun q t ht => absurd ⟨q, t, ht⟩ h⟩
  exact Classical.skolem.mp hone

/-- Only which names are known matters. -/
theorem mono (h : Answers es ds q s t)
    (hq : ∀ name, q.isKnown name = true → q'.isKnown name = true) : Answers es ds q' s t := by
  induction h with
  | scalar hk hs => exact .scalar hk hs
  | named hn hk => exact .named hn (hq _ hk)
  | array hk _ ih => exact .array hk ih
  | map hk _ ih => exact .map hk ih
  | stopped href hx => exact .stopped href hx
  | reference href hx _ ih => exact .reference href hx ih

end Answers

/-! ### Declarations -/

variable {ε : Type} {s : Site} {T T' : Site → TypeExpr → Prop}

theorem HasMembers.unique {ms ms' : List Member} (h : s.HasMembers ε ms)
    (h' : s.HasMembers ε ms') : ms = ms' := by
  obtain ⟨values, hv, hms⟩ := h
  obtain ⟨values', hv', hms'⟩ := h'
  cases hv.symm.trans hv'
  -- making members does not depend on the state, so any state will do
  exact Except.ok.inj ((hms (.fresh [] .empty)).symm.trans (hms' _))

theorem HasFields.mono {ps : List (String × Json)} {fs : List Field} (h : s.HasFields T ps fs)
    (hT : ∀ p t, T p t → T' p t) : s.HasFields T' ps fs :=
  h.imp fun _ _ ⟨t, hf, ht⟩ => ⟨t, hf, hT _ t ht⟩

theorem HasFields.unique {ps : List (String × Json)} {fs fs' : List Field}
    (h : s.HasFields T ps fs) (h' : s.HasFields T' ps fs')
    (hT : ∀ p t t', T p t → T' p t' → t = t') : fs = fs' := by
  induction h generalizing fs' with
  | nil =>
    cases h'
    rfl
  | cons hf _ ih =>
    cases h' with
    | cons hf' h' =>
      obtain ⟨t, rfl, ht⟩ := hf
      obtain ⟨t', rfl, ht'⟩ := hf'
      rw [hT _ t t' ht ht', ih h']

/-- There is a field for every property. -/
theorem HasFields.exists_type {ps : List (String × Json)} {fs : List Field}
    (h : s.HasFields T ps fs) {p : String × Json} (hp : p ∈ ps) : ∃ t, T (s.property p) t := by
  induction h with
  | nil => exact absurd hp List.not_mem_nil
  | cons hf _ ih =>
    rcases List.mem_cons.mp hp with rfl | hp
    · obtain ⟨t, -, ht⟩ := hf
      exact ⟨t, ht⟩
    · exact ih hp

namespace Declared

variable {d d' : Declaration ε}

theorem mono (h : s.Declared T d) (hT : ∀ p t, T p t → T' p t) : s.Declared T' d := by
  cases h with
  | union hk => exact .union hk
  | enum hk hms => exact .enum hk hms
  | struct hk hfs => exact .struct hk (hfs.mono hT)

/-- **A site has one declaration** if its properties have one expression each. -/
theorem unique (h : s.Declared T d) (h' : s.Declared T' d')
    (hT : ∀ p t t', T p t → T' p t' → t = t') : d = d' := by
  cases h with
  | union hk =>
    cases h' with
    | union _ => rfl
    | enum hk' _ | struct hk' _ => cases hk.symm.trans hk'
  | enum hk hms =>
    cases h' with
    | enum _ hms' => rw [hms.unique hms']
    | union hk' | struct hk' _ => cases hk.symm.trans hk'
  | struct hk hfs =>
    cases h' with
    | struct _ hfs' => rw [hfs.unique hfs' hT]
    | union hk' | enum hk' _ => cases hk.symm.trans hk'

/-- The declaration of an interface has a field for every property. -/
theorem exists_type (h : s.Declared T d) (hk : Schema.classify s.schema = .ok .struct)
    {p : String × Json} (hp : p ∈ Schema.properties s.schema) : ∃ t, T (s.property p) t := by
  cases h with
  | struct _ hfs => exact hfs.exists_type hp
  | union hk' | enum hk' _ => cases hk.symm.trans hk'

end Declared
end Site
end SchemaScript
