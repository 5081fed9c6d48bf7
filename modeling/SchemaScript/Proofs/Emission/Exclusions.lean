import SchemaScript.Proofs.Emission.Atomicity
import SchemaScript.Proofs.Emission.Faults
import SchemaScript.Proofs.Emission.Settling
import SchemaScript.Proofs.Emission.Sites
import SchemaScript.Proofs.Schemas

/-!
# What exclusions stop

Exclusions are asked in two ways.  A reference to an excluded definition comes to `any`, and
nothing is emitted for it.  But an emission whose own place is excluded fails, whether a
definition stands there or not: the path of a property is tested like the name of a
definition, before its schema is looked at.

So if only definitions are asked for that are not excluded, an exclusion that stops an
emission hits the path of a property, or what is left of a name that starts like a
reference.

## Main definitions

* `Definitions.IsPath` — the paths at which emissions come to schemas.
* `Resolver.Blames` — if something is excluded, then it stands at such a path.

## Main results

* `exec_emitRef_of_hits` — a reference to an excluded definition.
* `exec_field_of_hits` — a property at an excluded path.
* `blames_emitWith` — which exclusions stop an emission.
-/

namespace SchemaScript

/-- Something is excluded. -/
def Failure.isExclusion : Failure → Bool
  | typeExcluded _ _ => true
  | _ => false

/-! ### Paths -/

namespace Definitions

/-- The paths at which emissions come to schemas, if they start at definitions that no
exclusion hits. -/
inductive IsPath (ds : Definitions) (es : List Exclusion) : String → Prop
  /-- The name of a definition that no exclusion hits. -/
  | definition {name : String} (h : name ∈ ds.names) (hx : ∀ e ∈ es, e.hits name = false) :
    IsPath ds es name
  /-- The path of a property of an interface within the definitions. -/
  | property {s : Site} {p : String × Json} (h : ds.Stands s)
    (hs : Schema.classify s.schema = .ok .struct) (hp : p ∈ Schema.properties s.schema) :
    IsPath ds es (s.propertyPlace p.1)
  /-- At every schema on the way the start of a reference is taken off. -/
  | withoutStart {path : String} (h : IsPath ds es path) : IsPath ds es (withoutStart path)

variable {ds : Definitions} {es : List Exclusion}

/-- If no name of a definition starts like a reference, no place within definitions does. -/
theorem Stands.withoutStart_place (hnames : ∀ name ∈ ds.names, withoutStart name = name)
    {s : Site} (h : ds.Stands s) : withoutStart s.place = s.place := by
  obtain ⟨path, place, hmem, hplace, hwithin⟩ := h
  have hpath := hnames path hmem
  obtain rfl : place = path := hplace.elim id fun h => h.trans hpath
  induction hwithin with
  | self => exact hpath
  | lookUp _ _ ih => exact ih
  | items _ _ ih | values _ _ ih =>
    show withoutStart (withoutStart _) = withoutStart _
    rw [ih, ih]
  | @property s p _ _ _ _ ih =>
    have hproperty : withoutStart (s.propertyPlace p.1) = s.propertyPlace p.1 :=
      withoutStart_append_dot ih (Name.fieldName p.1)
    show withoutStart (withoutStart _) = withoutStart _
    rw [hproperty, hproperty]

theorem IsPath.withoutStart_eq (hnames : ∀ name ∈ ds.names, Definitions.withoutStart name = name)
    {path : String} (h : ds.IsPath es path) : Definitions.withoutStart path = path := by
  induction h with
  | definition hmem _ => exact hnames _ hmem
  | property hs _ _ => exact withoutStart_append_dot (hs.withoutStart_place hnames) _
  | withoutStart _ ih => rw [ih, ih]

/-- Then what an exclusion hits is the path of a property. -/
theorem IsPath.exists_property (hnames : ∀ name ∈ ds.names, Definitions.withoutStart name = name)
    {path : String} (h : ds.IsPath es path) {e : Exclusion} (he : e ∈ es)
    (hhit : e.hits path = true) :
    ∃ s p, ds.Stands s ∧ Schema.classify s.schema = .ok .struct ∧
      p ∈ Schema.properties s.schema ∧ path = s.propertyPlace p.1 := by
  induction h with
  | definition _ hx =>
    rw [hx e he] at hhit
    cases hhit
  | @property s p hs hk hp => exact ⟨s, p, hs, hk, hp, rfl⟩
  | withoutStart h ih =>
    rw [h.withoutStart_eq hnames] at hhit ⊢
    exact ih hhit

end Definitions

/-- A fault of a schema excludes nothing. -/
theorem Failure.not_isExclusion_of_isFault {e : Failure} (h : e.isFault = true) :
    e.isExclusion = false := by
  cases e with
  | typeExcluded _ _ => cases h
  | _ => rfl

namespace Resolver

open Stateful

variable {ε : Type}

/-! ### Excluded definitions and excluded properties -/

/-- **A reference to an excluded definition comes to `any`**, and nothing but a note is left of
it. -/
theorem exec_emitRef_of_hits (emit : Emitting ε) {schema : Json} (fqn : String) {r : Resolver ε}
    {path : String} (hp : Definitions.path? (schema.get "$ref") = some path) {e : Exclusion}
    (he : e ∈ r.exclusions)
    (hhit : e.hits path = true ∨ e.hits (Definitions.refTo path) = true) :
    exec (emitRef emit schema fqn) r = (.ok .any, r.noted [.excludedReference fqn path]) := by
  have hexcluded : ∀ {name}, e.hits name = true → r.isExcluded name = true := by
    intro name hname
    rw [isExcluded, exclusionOf, List.find?_isSome]
    exact ⟨e, he, hname⟩
  refine exec_emitRef_answered emit ?_
  rw [read, hp]
  rcases hhit with hhit | hhit <;> simp [hexcluded hhit]

/-- **A property at an excluded path fails**, whatever its schema is: even a reference to an
excluded definition. -/
theorem exec_field_of_hits (n : Nat) {structFqn property : String} (struct : Json) {schema : Json}
    (hnull : schema.isNull = false) {r : Resolver ε} {path : String}
    (hpath : path = Definitions.withoutStart (structFqn ++ "." ++ Name.fieldName property))
    {e : Exclusion} (he : r.exclusions.find? (·.hits path) = some e) :
    exec (field (emitWith (n + 1)) structFqn struct property schema) r =
      (.error (.typeExcluded path e.text), r) := by
  have hadmission : r.admission (Name.ofPath (structFqn ++ "." ++ Name.fieldName property))
      (.inline schema) path = .error (.typeExcluded path e.text) := by
    rw [admission, if_neg (not_not.mpr (Name.isTypeName_ofPath _)), exclusionOf, he]
  rw [exec_field, emitInner, emitWith_succ, exec_emitStep,
    nodeFor_of_not_isNull (n := .inline schema) r hnull]
  dsimp only
  rw [← hpath, hadmission]
  rfl

/-! ### Blame -/

/-- If something is excluded, it stands at one of the paths, and the text is that of the
first exclusion that hits it there. -/
def Blames (ds : Definitions) (es : List Exclusion) {α : Type} (o : Except Failure α) : Prop :=
  ∀ path text, o = .error (.typeExcluded path text) →
    ds.IsPath es path ∧ ∃ e, es.find? (·.hits path) = some e ∧ e.text = text

section

variable {ds : Definitions} {es : List Exclusion}

theorem blames_ok {α : Type} (a : α) : Blames ds es (.ok a) :=
  fun _ _ h => nomatch h

theorem blames_of_not_isExclusion {α : Type} {o : Except Failure α}
    (h : ∀ e, o = .error e → e.isExclusion = false) : Blames ds es o :=
  fun _ _ ho => nomatch h _ ho

theorem blames_of_isFault {α : Type} {o : Except Failure α}
    (h : ∀ e, o = .error e → e.isFault = true) : Blames ds es o :=
  blames_of_not_isExclusion fun e ho => Failure.not_isExclusion_of_isFault (h e ho)

/-- A failure is handed on. -/
theorem Blames.error {α β : Type} {e : Failure} (h : Blames ds es (.error e : Except Failure α)) :
    Blames ds es (.error e : Except Failure β) := by
  rintro path text ⟨⟩
  exact h path text rfl

theorem Blames.map {α β : Type} {o : Except Failure α} (h : Blames ds es o) (f : α → β) :
    Blames ds es (o.map f) := by
  cases o with
  | error e => exact h.error
  | ok a => exact blames_ok _

/-- Only the test for the place finds something excluded. -/
theorem blames_admission {r : Resolver ε} (hes : r.exclusions = es) (typeName : String)
    (node : Node) {fqn : String} (hfqn : ds.IsPath es fqn) :
    Blames ds es (r.admission typeName node fqn) := by
  unfold admission
  split
  · exact blames_of_not_isExclusion fun _ h => by cases h; rfl
  · split
    · next e he =>
      rintro path text ⟨⟩
      rw [exclusionOf, hes] at he
      exact ⟨hfqn, e, he, rfl⟩
    · exact blames_of_isFault fun _ h => Schema.isFault_of_classify h

/-- Where the path of a reference is followed, no exclusion hits it. -/
theorem not_hits_of_followed {r : Resolver ε} (hes : r.exclusions = es) {schema : Json}
    {fqn name place path : String} {node : Node} (h : r.read schema fqn = .followed name node place)
    (hp : Definitions.path? (schema.get "$ref") = some path) : ∀ e ∈ es, e.hits path = false := by
  intro e hmem
  unfold read at h
  rw [hp] at h
  dsimp only at h
  split at h
  · cases h
  · next hx =>
    rw [Bool.or_eq_true, not_or] at hx
    have hnone := hx.2
    rw [isExcluded, exclusionOf, hes, Bool.not_eq_true, Option.isSome_eq_false_iff,
      Option.isNone_iff_eq_none, List.find?_eq_none] at hnone
    simpa using hnone e hmem

/-- Asked for a site within the definitions at one of the paths, the emission blames an
exclusion for what is excluded. -/
def AlwaysBlames (ds : Definitions) (es : List Exclusion) (emit : Emitting ε) : Prop :=
  ∀ typeName node fqn (r : Resolver ε), r.definitions = ds → r.exclusions = es →
    ds.Stands ⟨typeName, node, Definitions.withoutStart fqn⟩ →
      ds.IsPath es (Definitions.withoutStart fqn) →
        Blames ds es (exec (emit typeName node fqn) r).1

variable {emit : Emitting ε} (he : AlwaysBlames ds es emit) {s : Site} (hs : ds.Stands s)
  (hpath : ds.IsPath es s.place) {r : Resolver ε} (hds : r.definitions = ds)
  (hes : r.exclusions = es)

include he hds hes

/-- A reference that is followed leads to a definition that no exclusion hits. -/
theorem blames_emitRef (schema : Json) (fqn : String) :
    Blames ds es (exec (emitRef emit schema fqn) r).1 := by
  rw [exec_emitRef]
  cases hread : r.read schema fqn with
  | failed e =>
    refine blames_of_isFault fun e' h => ?_
    cases h
    rcases eq_of_failed hread with ⟨_, rfl⟩ | ⟨_, _, rfl⟩ <;> rfl
  | answered t ns => exact blames_ok t
  | followed name node place =>
    obtain ⟨-, path, rfl, rfl, hresolve, hp⟩ := of_followed hread
    obtain ⟨rfl, hnull⟩ := Definitions.resolve_eq_ok hp hresolve
    have hfree := not_hits_of_followed hes hread hp
    rw [hds] at hnull ⊢
    have hmem := Definitions.mem_names_of_holds (Definitions.holds_node hnull)
    refine he _ _ _ r hds hes ?_ ?_ <;> rw [Definitions.withoutStart_refTo]
    · exact Definitions.stands_definition hmem
    · exact .definition hmem hfree

include hs hpath

theorem blames_emitArray (hk : Schema.classify s.schema = .ok .array) :
    Blames ds es (exec (emitArray emit s.typeName s.schema s.place) r).1 := by
  rw [exec_emitArray]
  split
  · refine Blames.map ?_ _
    exact he _ _ _ r hds hes (hs.items hk) hpath.withoutStart
  · exact blames_of_not_isExclusion fun _ h => by cases h; rfl

theorem blames_emitMap (hk : Schema.classify s.schema = .ok .map) :
    Blames ds es (exec (emitMap emit s.typeName s.schema s.place) r).1 := by
  rw [exec_emitMap]
  refine Blames.map ?_ _
  exact he _ _ _ r hds hes (hs.values hk) hpath.withoutStart

omit hpath in
/-- Field after field: the path of each property is one of the paths. -/
theorem blames_fields (hgrow : AlwaysGrows emit) (hk : Schema.classify s.schema = .ok .struct)
    {ps : List (String × Json)} (hps : ∀ p ∈ ps, p ∈ (s.schema.get "properties").fields) :
    Blames ds es (exec (fields emit s.place s.schema ps) r).1 := by
  induction ps generalizing r with
  | nil => exact blames_ok _
  | cons p ps ih =>
    have hrest : ∀ q ∈ ps, q ∈ (s.schema.get "properties").fields :=
      fun q hq => hps q (List.mem_cons_of_mem p hq)
    rw [exec_fields_cons]
    split
    · exact ih hds hes hrest
    · next hx =>
      rw [Bool.not_eq_true] at hx
      have hp := hps p List.mem_cons_self
      have hpath : ds.IsPath es (s.propertyPlace p.1) :=
        .property hs hk (Schema.mem_properties.mpr ⟨hp, hx⟩)
      have hfirst := he (Name.ofPath (s.propertyPlace p.1)) (.inline p.2) (s.propertyPlace p.1) r
        hds hes (hs.property hk hp hx) hpath.withoutStart
      have hg := hgrow (Name.ofPath (s.propertyPlace p.1)) (.inline p.2) (s.propertyPlace p.1) r
      rw [exec_field, emitInner]
      rw [Site.propertyPlace] at hfirst hg
      rcases hexec : exec (emit (Name.ofPath (s.place ++ "." ++ Name.fieldName p.1)) (.inline p.2)
        (s.place ++ "." ++ Name.fieldName p.1)) r with ⟨e | t, r'⟩ <;> rw [hexec] at hfirst hg
      · exact Blames.error hfirst
      · exact (ih (r := r') (hg.definitions.trans hds) (hg.exclusions.trans hes) hrest).map _

omit hpath in
theorem blames_emitStruct (hgrow : AlwaysGrows emit)
    (hk : Schema.classify s.schema = .ok .struct) :
    Blames ds es (exec (emitStruct emit s.typeName s.schema s.place) r).1 := by
  rw [exec_emitStruct]
  split
  · exact blames_ok _
  · let head : Declaration ε :=
      ⟨s.typeName, s.place, s.schema.get "description", some s.schema, .struct []⟩
    have hfields := blames_fields he hs (r := r.declared head) hds hes hgrow hk fun _ hp => hp
    rcases hexec : exec (fields emit s.place s.schema (s.schema.get "properties").fields)
      (r.declared head) with ⟨e | fs, r'⟩ <;> rw [hexec] at hfields
    · exact Blames.error hfields
    · exact blames_ok _

theorem blames_emitKind (hgrow : AlwaysGrows emit) {kind : Kind}
    (hk : Schema.classify s.schema = .ok kind) :
    Blames ds es (exec (emitKind emit kind s.typeName s.schema s.place) r).1 := by
  cases kind with
  | ref => exact blames_emitRef he hds hes s.schema s.place
  | union =>
    rw [emitKind, exec_emitUnion]
    exact blames_ok _
  | array => exact blames_emitArray he hs hpath hds hes hk
  | enumString => exact blames_of_isFault fun _ h => isFault_of_emitEnum h
  | map => exact blames_emitMap he hs hpath hds hes hk
  | struct => exact blames_emitStruct he hs hds hes hgrow hk
  | _ => exact blames_ok _

theorem blames_emitDefinition (hgrow : AlwaysGrows emit) {kind : Kind}
    (hk : Schema.classify s.schema = .ok kind) :
    Blames ds es (exec (emitDefinition emit kind s.typeName s.schema s.place) r).1 := by
  rw [exec_emitDefinition]
  cases r.resolved.find? s.typeName with
  | some t => exact blames_ok t
  | none =>
    have hin := blames_emitKind he hs hpath (r := r.opened s.typeName ⟨s.place, kind⟩) hds hes
      hgrow hk
    rcases hexec : exec (emitKind emit kind s.typeName s.schema s.place)
      (r.opened s.typeName ⟨s.place, kind⟩) with ⟨o, r'⟩
    rw [hexec] at hin
    dsimp only at hin ⊢
    split
    · cases o with
      | ok t => exact blames_ok t
      | error e => exact Blames.error hin
    · exact blames_of_not_isExclusion fun _ h => by cases h; rfl

end

/-! ### Emission -/

section

variable {ds : Definitions} {es : List Exclusion}

theorem alwaysBlames_emitStep {emit : Emitting ε} (he : AlwaysBlames ds es emit)
    (hgrow : AlwaysGrows emit) : AlwaysBlames ds es (emitStep emit) := by
  intro typeName node fqn r hds hes hs hpath
  rw [exec_emitStep]
  cases hn : r.nodeFor typeName node with
  | error e =>
    refine blames_of_isFault fun e' h => ?_
    cases h
    exact isFault_of_nodeFor hn
  | ok n =>
    -- what is looked up in the place of `null` stands there, too
    have hs' : ds.Stands ⟨typeName, n, Definitions.withoutStart fqn⟩ := by
      rcases of_nodeFor hn with rfl | ⟨hnull, rfl⟩
      · exact hs
      · rw [hds]
        exact hs.lookUp hnull
    have hadmission := blames_admission hes typeName n hpath
    dsimp only
    cases ha : r.admission typeName n (Definitions.withoutStart fqn) with
    | error e =>
      rw [ha] at hadmission
      exact Blames.error hadmission
    | ok kind =>
      have hk := classify_of_admission ha
      dsimp only
      split
      · exact blames_ok _
      · split
        · exact blames_emitDefinition he hs' hpath hds hes hgrow hk
        · exact blames_emitKind he hs' hpath hds hes hgrow hk

/-- **What is excluded on the way stands at one of the paths**, down to any depth. -/
theorem blames_emitWith (n : Nat) : AlwaysBlames ds es (emitWith n : Emitting ε) := by
  induction n with
  | zero =>
    intro _ _ _ _ _ _ _ _
    exact blames_of_not_isExclusion fun _ h => by cases h; rfl
  | succ n ih => exact alwaysBlames_emitStep ih (grows_emitWith n)

end

end Resolver
end SchemaScript
