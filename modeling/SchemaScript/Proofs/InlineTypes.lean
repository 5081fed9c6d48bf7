import SchemaScript.Proofs.Emission.Answers
import SchemaScript.Proofs.Emission.Origins

/-!
# Types written inside interfaces

A property whose schema is an interface, an enum or a union gets a type name made from its
place, and the field has that name as its type.  Making the name loses all but letters and
digits, and an emission under a name that is known is answered by the name alone.  So the
declaration that waits under the name is one for the schema of the property only if no other
schema that the emission meets goes by the same name.

## Main definitions

* `Definitions.Meets` — the sites that an emission can meet.
* `Definitions.IsUnrivalled` — no other site that is met is declared under the type name.
* `Field.IsDeclaredFor` — the type of a field, and what waits under its name.

## Main results

* `isDeclaredFor_emit` — what the fields for such properties refer to.
* `inline_types_merge` — two properties of one type name share a declaration.
-/

namespace SchemaScript

open Stateful

/-! ### Sites that are met -/

namespace Definitions

variable (ds : Definitions)

/-- The sites on the ways down from the root, and from definitions that references lead to. -/
inductive Meets (root : Site) : Site → Prop
  | within {s : Site} (h : Site.Within ds root s) : Meets root s
  | behind {s t : Site} {path : String} (h : Meets root s) (hs : s.RefersTo path)
    (hm : path ∈ ds.names) (ht : Site.Within ds (.definition ds path path) t) : Meets root t

/-- What is met and declared under the type name of the site has its schema and place. -/
def IsUnrivalled (root s : Site) : Prop :=
  ∀ t, ds.Meets root t → t.IsNamed → t.typeName = s.typeName →
    t.schema = s.schema ∧ t.place = s.place

variable {ds}

/-- A way down that goes on from every site goes on from those that are met. -/
theorem Meets.step {root s t : Site} (h : ds.Meets root s)
    (hstep : ∀ {root'}, Site.Within ds root' s → Site.Within ds root' t) : ds.Meets root t := by
  cases h with
  | within h => exact .within (hstep h)
  | behind h hs hm ht => exact .behind h hs hm (hstep ht)

theorem isRoute_meets (ds : Definitions) (root : Site) :
    Resolver.IsRoute ds (fun _ => ds.Meets root) (fun _ => ds.Meets root) where
  askedLookUp := fun h hs => h.step fun hw => hw.lookUp hs
  stay := fun h _ => h
  enter := fun h _ _ _ _ => h
  lookUp := fun h hs => h.step fun hw => hw.lookUp hs
  items := fun h hs => h.step fun hw => hw.items hs
  values := fun h hs => h.step fun hw => hw.values hs
  property := fun h hs hp hx => h.step fun hw => hw.property hs hp hx
  follow := fun h hs hm _ => .behind h hs hm .self

end Definitions

namespace Resolver

variable {ε : Type}

/-! ### Expressions of named schemas -/

/-- A schema that is declared comes to its type name. -/
def IsNamedFor (s : Site) (t : TypeExpr) : Prop := s.IsNamed → t = .named s.typeName

theorem eq_named_of_emitKind {emit : Emitting ε} {kind : Kind} (hk : kind.isNamed = true)
    {typeName fqn : String} {schema : Json} {r : Resolver ε} {t : TypeExpr}
    (h : (exec (emitKind emit kind typeName schema fqn) r).1 = .ok t) : t = .named typeName := by
  cases kind with
  | union =>
    rw [emitKind, exec_emitUnion] at h
    cases h
    rfl
  | enumString =>
    obtain ⟨ms, ns, -, hexec⟩ := exec_emitEnum (ε := ε) typeName schema fqn
    rw [emitKind, hexec] at h
    split at h
    · cases h
      rfl
    · cases ms with
      | error e => cases h
      | ok ms =>
        cases h
        rfl
  | struct =>
    rw [emitKind, exec_emitStruct] at h
    split at h
    · cases h
      rfl
    · rcases hx : exec (fields emit fqn schema (schema.get "properties").fields)
        (r.declared ⟨typeName, fqn, schema.get "description", some schema, .struct []⟩)
        with ⟨e | fs, r'⟩ <;> rw [hx] at h <;> cases h
      rfl
  | _ => cases hk

/-- A schema written inside another one is no definition, so it is emitted by its kind. -/
theorem relates_emitStep (emit : Emitting ε) : Relates IsNamedFor (emitStep emit) := by
  intro seed schema place r r' t h ⟨kind, hc, hk⟩
  have hnull : schema.isNull = false := isNull_of_isNamed hc hk
  have hnode : r.nodeFor (Name.ofPath seed) (.inline schema) = .ok (.inline schema) :=
    nodeFor_of_not_isNull r hnull _
  have hdef := not_isDefinition_inline hnull hnode (Definitions.withoutStart place)
  rw [exec_emitStep, hnode] at h
  dsimp only at h
  cases ha : r.admission (Name.ofPath seed) (.inline schema) (Definitions.withoutStart place) with
  | error e =>
    rw [ha] at h
    cases h
  | ok kind' =>
    have hc' : Schema.classify schema = .ok kind' := classify_of_admission ha
    obtain rfl : kind = kind' := Except.ok.inj (hc.symm.trans hc')
    rw [ha] at h
    dsimp only at h
    rw [scalar?_of_isNamed hk] at h
    simp only [hdef, Bool.false_eq_true, if_false] at h
    exact eq_named_of_emitKind hk (congrArg Prod.fst h)

theorem relates_emitWith (n : Nat) : Relates IsNamedFor (emitWith n : Emitting ε) := by
  cases n with
  | zero => exact fun _ _ _ _ _ _ h => nomatch h
  | succ n => exact relates_emitStep (emitWith n)

end Resolver

/-! ### Fields and declarations -/

/-- The type of the field is the type name of the site.  A declaration for a site that is met
waits under this name, and it is the one for the site if no other one goes by its name. -/
structure Field.IsDeclaredFor {ε : Type} (f : Field) (ds : Definitions) (root s : Site)
    (q : Queue ε) : Prop where
  type : f.type = .named s.typeName
  declared : ∃ d ∈ q.declarations, d.name = s.typeName ∧ ∃ t, ds.Meets root t ∧ t.IsNamed ∧
    t.typeName = s.typeName ∧ d.origin = some t.schema ∧ d.fqn = t.place
  own : ds.IsUnrivalled root s → ∃ d ∈ q.declarations, d.name = s.typeName ∧
    d.origin = some s.schema ∧ d.fqn = s.place

namespace Resolver

variable {ε : Type}

/-- Nothing is written yet, and all that waits and is remembered comes from sites met. -/
structure IsFoundation (ds : Definitions) (root : Site) (r : Resolver ε) : Prop where
  unwritten : r.queue.written = []
  declares : ∀ e ∈ r.queue.waiting.entries, ∃ s, ds.Meets root s ∧ Declares s e
  builds : ∀ e ∈ r.queue.waiting.entries, Builds IsNamedFor (fun _ => True) e
  closed : r.IsClosed

/-- From a fresh resolver on, every emission lays a foundation. -/
theorem isFoundation_emit (es : List Exclusion) {ds : Definitions} (hd : ds.Distinct)
    (typeName : String) (node : Node) (fqn : Option String) :
    IsFoundation ds ⟨typeName, node, Definitions.withoutStart (fqn.getD typeName)⟩
      (exec (emit typeName node fqn) (fresh es ds : Resolver ε)).2 where
  unwritten := (grows_emit typeName node fqn _).written
  declares := by
    let root : Site := ⟨typeName, node, Definitions.withoutStart (fqn.getD typeName)⟩
    have hfounded : Founded ds (fun _ => ds.Meets root) (fresh es ds)
        (exec (emit typeName node fqn) (fresh es ds : Resolver ε)).2 :=
      founded_emit (Definitions.isRoute_meets ds root) hd rfl rfl (Or.inl (.within .self))
    obtain ⟨ds', hds', hfrom⟩ := hfounded.waiting
    intro e he
    rw [hds'] at he
    obtain ⟨-, s, hs, hdeclares⟩ := hfrom e he
    exact ⟨s, hs, hdeclares⟩
  builds := by
    have hall : ∀ v, Schema.Everywhere (fun _ => True) v := fun _ _ _ => trivial
    have hadds : Adds (Builds IsNamedFor fun _ => True) (fresh es ds)
        (exec (emit typeName node fqn) (fresh es ds : Resolver ε)).2 :=
      adds_emit relates_emitWith (fun path => hall (ds.get path)) typeName (hall node.schema) fqn
    exact hadds.forall_mem (fun _ he => absurd he List.not_mem_nil) fun _ h => h
  closed := (sound_emit typeName node fqn (isClosed_fresh es ds)).1

namespace IsFoundation

variable {ds : Definitions} {root : Site} {r : Resolver ε}

/-- A declaration for a site that is met waits under every known name. -/
theorem exists_declaration (h : IsFoundation ds root r) {name : String}
    (hname : r.queue.isKnown name = true) :
    ∃ d ∈ r.queue.declarations, d.name = name ∧ ∃ t, ds.Meets root t ∧ t.IsNamed ∧
      t.typeName = name ∧ d.origin = some t.schema ∧ d.fqn = t.place := by
  rw [Queue.isKnown, Queue.isWritten, h.unwritten, List.contains_nil, Bool.or_false,
    Queue.isWaiting, Table.contains_iff_mem_keys, Table.keys, List.mem_map] at hname
  obtain ⟨e, he, rfl⟩ := hname
  obtain ⟨t, hmeets, hdeclares⟩ := h.declares e he
  exact ⟨e.2, List.mem_map_of_mem he, hdeclares.name.trans hdeclares.key.symm, t, hmeets,
    hdeclares.kind, hdeclares.key.symm, hdeclares.origin, hdeclares.fqn⟩

/-- A field that a site of its own is declared for. -/
theorem isDeclaredFor (h : IsFoundation ds root r) {s : Site} {f : Field}
    (htype : f.type = .named s.typeName) (hknows : r.Knows f.type) :
    f.IsDeclaredFor ds root s r.queue := by
  rw [htype, knows_named] at hknows
  obtain ⟨d, hd, hname, t, hmeets, hnamed, htypeName, horigin, hfqn⟩ :=
    h.exists_declaration hknows
  refine ⟨htype, ⟨d, hd, hname, t, hmeets, hnamed, htypeName, horigin, hfqn⟩, fun hown => ?_⟩
  obtain ⟨hschema, hplace⟩ := hown t hmeets hnamed htypeName
  exact ⟨d, hd, hname, hschema ▸ horigin, hplace ▸ hfqn⟩

/-- The fields of a waiting interface. -/
theorem forall₂_fields (h : IsFoundation ds root r) {d : Declaration ε}
    (hd : d ∈ r.queue.declarations) {fs : List Field} (hfs : d.body = .struct fs) :
    ∃ s, ds.Meets root s ∧ d.name = s.typeName ∧ d.fqn = s.place ∧ d.origin = some s.schema ∧
      List.Forall₂ (fun p f => f.schemaName = p.1 ∧
        ((s.property p).IsNamed → f.IsDeclaredFor ds root (s.property p) r.queue))
        (Schema.properties s.schema) fs := by
  obtain ⟨e, he, rfl⟩ := List.mem_map.mp hd
  obtain ⟨s, hmeets, hdeclares⟩ := h.declares e he
  refine ⟨s, hmeets, hdeclares.name, hdeclares.fqn, hdeclares.origin, ?_⟩
  have hknows : ∀ f ∈ fs, r.Knows f.type := by
    intro f hf
    refine h.closed.fields e he f ?_
    rw [hfs]
    exact hf
  obtain ⟨s', -, -, hbuilt⟩ := h.builds e he
  have hplace := hdeclares.fqn
  have horigin := hdeclares.origin
  cases hb : e.2 with
  | mk name fqn description origin body =>
    rw [hb] at hbuilt hfs hplace horigin
    cases hbuilt with
    | union hk => cases hfs
    | enum hk hms => cases hfs
    | struct hk hfields =>
      cases hfs
      dsimp only at hplace horigin
      rw [Option.some.injEq] at horigin
      rw [← horigin]
      -- the two sites have one place, so they have the same properties
      have hproperty : ∀ p, s'.property p = s.property p := by
        intro p
        rw [Site.property, Site.property, Site.propertyPlace, Site.propertyPlace, hplace]
      have hboth := (List.forall₂_and_left _ _).mpr ⟨hknows, hfields.flip⟩
      refine hboth.flip.imp fun p f hpf => ?_
      obtain ⟨hf, t, rfl, hnamed⟩ := hpf
      refine ⟨rfl, fun hp => h.isDeclaredFor ?_ hf⟩
      rw [hproperty p] at hnamed
      exact hnamed hp

end IsFoundation

/-- **What the fields for named properties refer to.**  After an emission from a fresh
resolver, the field for a property whose schema is declared has the type name of the property
as its type.  What waits under that name is declared for the property, unless another schema
that the emission meets is declared under the same name. -/
theorem isDeclaredFor_emit (es : List Exclusion) (fs : List (String × Json)) (typeName : String)
    (node : Node) (fqn : Option String) :
    let ds := Definitions.empty.defineAll fs
    let root : Site := ⟨typeName, node, Definitions.withoutStart (fqn.getD typeName)⟩
    let r : Resolver ε := (exec (emit typeName node fqn) (fresh es ds)).2
    ∀ d ∈ r.queue.declarations, ∀ fields, d.body = .struct fields →
      ∃ s, ds.Meets root s ∧ d.name = s.typeName ∧ d.fqn = s.place ∧ d.origin = some s.schema ∧
        List.Forall₂ (fun p f => f.schemaName = p.1 ∧
          ((s.property p).IsNamed → f.IsDeclaredFor ds root (s.property p) r.queue))
          (Schema.properties s.schema) fields := by
  intro ds root r d hd fields hfields
  have hdistinct : ds.Distinct :=
    (Definitions.isStamped_defineAll Definitions.isStamped_empty fs).distinct
  exact (isFoundation_emit es hdistinct typeName node fqn).forall₂_fields hd hfields

/-- The schema of a property that is an interface, and an interface with it. -/
def box : String × Json := ("box", .obj [("properties", .obj [])])

/-- The site of the interface with the box. -/
def boxedSite : Site := ⟨"S", .inline (.obj [("properties", .obj [box])]), "S"⟩

/-- The emission meets the interface and the box only. -/
theorem meets_boxedSite {t : Site} (h : Definitions.empty.Meets boxedSite t) :
    t = boxedSite ∨ t = boxedSite.property box := by
  induction h with
  | within h =>
    induction h with
    | self => exact Or.inl rfl
    | lookUp _ hs ih => rcases ih with rfl | rfl <;> cases hs
    | items _ hs ih => rcases ih with rfl | rfl <;> cases hs
    | values _ hs ih => rcases ih with rfl | rfl <;> cases hs
    | property _ _ hp _ ih =>
      rcases ih with rfl | rfl
      · exact Or.inr (congrArg boxedSite.property (List.mem_singleton.mp hp))
      · exact absurd hp List.not_mem_nil
  | behind _ _ hm _ _ => exact absurd hm List.not_mem_nil

/-- The resolver that has emitted the interface. -/
def afterBoxed : Resolver Empty :=
  (exec (emit "S" boxedSite.node none) (fresh [] (Definitions.empty.defineAll []))).2

/-- The field for the box refers to the declaration for it. -/
theorem isDeclaredFor_emit_boxedSite :
    ∃ d ∈ afterBoxed.queue.declarations, ∃ f, d.body = .struct [f] ∧ f.schemaName = "box" ∧
      f.type = .named "SBox" ∧ ∃ c ∈ afterBoxed.queue.declarations, c.name = "SBox" ∧
        c.origin = some box.2 := by
  have hdeclarations : afterBoxed.queue.declarations.map (fun d => (d.name, d.body.word)) =
      [("S", "StructDeclaration"), ("SBox", "StructDeclaration")] := by decide +kernel
  have htypeName : (boxedSite.property box).typeName = "SBox" := by decide +kernel
  have hfirst : ("S", "StructDeclaration") ∈
      afterBoxed.queue.declarations.map fun d => (d.name, d.body.word) := by
    rw [hdeclarations]
    exact List.mem_cons_self
  obtain ⟨d, hd, hword⟩ := List.mem_map.mp hfirst
  obtain ⟨hname, hbody⟩ := Prod.mk.inj hword
  obtain ⟨fields, hfields⟩ : ∃ fields, d.body = .struct fields := by
    cases hb : d.body with
    | struct fields => exact ⟨fields, rfl⟩
    | _ =>
      rw [hb] at hbody
      simp [Body.word] at hbody
  obtain ⟨s, hmeets, hs, -, -, hall⟩ :=
    isDeclaredFor_emit [] [] "S" boxedSite.node none d hd fields hfields
  -- the declaration is that of the interface, for the box has another name
  obtain rfl : s = boxedSite := by
    refine (meets_boxedSite hmeets).resolve_right fun hbox => ?_
    rw [hbox, htypeName, hname] at hs
    exact absurd hs (by decide)
  cases hall with
  | cons hf hrest =>
    cases hrest
    obtain ⟨hschemaName, hdeclared⟩ := hf
    have hunrivalled : Definitions.empty.IsUnrivalled boxedSite (boxedSite.property box) := by
      intro t ht _ htypes
      rcases meets_boxedSite ht with rfl | rfl
      · rw [htypeName] at htypes
        exact absurd htypes (by decide)
      · exact ⟨rfl, rfl⟩
    have hfor := hdeclared ⟨.struct, rfl, rfl⟩
    obtain ⟨c, hc, hcname, horigin, -⟩ := hfor.own hunrivalled
    exact ⟨d, hd, _, hfields, hschemaName, htypeName ▸ hfor.type, c, hc, htypeName ▸ hcname,
      horigin⟩

/-- Two properties whose names differ in what is lost only. -/
def dashed : String × Json :=
  ("foo-bar", .obj [("properties", .obj [("x", .obj [("type", .str "string")])])])

@[inherit_doc dashed]
def underscored : String × Json :=
  ("foo_bar", .obj [("properties", .obj [("y", .obj [("type", .str "number")])])])

/-- The names of the properties of a declared schema. -/
def propertiesOf (origin : Option Json) : Option (List String) :=
  origin.map fun v => (v.get "properties").fields.map (·.1)

/-- The outcome of emitting an interface with both. -/
def merging : Except Failure TypeExpr × Resolver Empty :=
  exec (emit "S" (.inline (.obj [("properties", .obj [dashed, underscored])])) none)
    (fresh [] .empty)

/-- **Types written inside interfaces are merged**: the second of two properties is an
interface, but its field has the name of the declaration for the first, and nothing is
declared for its schema. -/
theorem inline_types_merge :
    merging.1 = .ok (.named "S") ∧ merging.2.queue.names = ["S", "SFooBar"] ∧
      Schema.classify underscored.2 = .ok .struct ∧ isExtension underscored.1 = false ∧
        (merging.2.queue.declarations.flatMap fun d => d.body.fields.map fun f =>
          (d.name, f.schemaName, f.type)) = [("S", "foo-bar", .named "SFooBar"),
            ("S", "foo_bar", .named "SFooBar"), ("SFooBar", "x", .scalar .string)] ∧
          ∀ d ∈ merging.2.queue.declarations, d.origin ≠ some underscored.2 := by
  have hnames : merging.2.queue.declarations.map (fun d => propertiesOf d.origin) =
      [some ["foo-bar", "foo_bar"], some ["x"]] := by decide +kernel
  refine ⟨eq_ok_of_toOption (by decide +kernel), by decide +kernel, rfl, by decide +kernel,
    by decide +kernel, fun d hd horigin => ?_⟩
  -- no declared schema has the property of the schema
  have hmem := List.mem_map_of_mem (f := fun d => propertiesOf d.origin) hd
  rw [hnames, horigin] at hmem
  exact absurd hmem (by decide +kernel)

end Resolver
end SchemaScript
