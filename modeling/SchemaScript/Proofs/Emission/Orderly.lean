import Mathlib.Logic.Relation
import SchemaScript.Proofs.Emission.Answers
import SchemaScript.Proofs.Emission.Closure

/-!
# Emission without shared names

If references form no cycle and type names are not shared, then an emission that succeeds
gives the expression that the schema comes to anywhere, and what it adds is the declarations
of sites inside definitions, each with the fields that its properties come to.

What was done before is met in three ways: as the expression of a definition, as a known name,
and as an open definition.  The first is the expression that an emission would give.  The
others are met only by a schema of the same type name, which is the same schema, or by a
reference back into an open definition, of which there is none.

## Main definitions

* `Definitions.IsTidy` — references form no cycle, and type names are not shared.
* `Resolver.Orderly` — what holds of the state between and within emissions.
* `Resolver.Asked`, `Resolver.Answered` — what an emission is asked for, and what it does.

## Main results

* `answered_emitWith` — asked in an orderly state, an emission that succeeds answers.
-/

namespace SchemaScript

namespace Definitions

/-! ### Definitions without shared names -/

/-- Inside the definition an interface, an enum or a union is written out. -/
structure HasInline (ds : Definitions) (path : String) (s : Site) : Prop where
  defined : path ∈ ds.names
  inside : Site.Inside (.definition ds path path) s
  inline : s.IsInline
  named : s.IsNamed

/-- References lead to definitions and form no cycle, and no type name is shared, but for
that of an array or a map, which an interface, enum or union in it can have. -/
structure IsTidy (ds : Definitions) : Prop where
  /-- No name is written like a reference. -/
  start : ∀ path ∈ ds.names, path? (.str path) = none
  refers : ∀ path ∈ ds.names, ∀ path', ds.Refers path path' → path' ∈ ds.names
  acyclic : ∀ path, ¬ Relation.TransGen ds.Refers path path
  distinct : ∀ path ∈ ds.names, ∀ path' ∈ ds.names,
    Name.ofDefinition path = Name.ofDefinition path' → path = path'
  inline : ∀ path path' s s', ds.HasInline path s → ds.HasInline path' s' →
    s.typeName = s'.typeName → s = s'
  inlineDefinition : ∀ path s, ds.HasInline path s → ∀ path' ∈ ds.names,
    s.typeName = Name.ofDefinition path' → path' = path ∧
      (Schema.classify (ds.get path) = .ok .array ∨ Schema.classify (ds.get path) = .ok .map)
  properties : ∀ path ∈ ds.names, ∀ s, Site.Inside (.definition ds path path) s →
    Schema.classify s.schema = .ok .struct → ∀ p ∈ Schema.properties s.schema,
      p.2.isNull = false

namespace IsTidy

variable {ds : Definitions} (hds : ds.IsTidy) {path path' : String} {s s' : Site}
  (hp : path ∈ ds.names) (hp' : path' ∈ ds.names)

include hds hp

theorem withoutStart_eq : withoutStart path = path := by
  rw [withoutStart, hds.start path hp, Option.getD_none]

include hp'

/-- Only schemas of a definition have its type name. -/
theorem eq_path (hs : Site.Inside (.definition ds path path) s) (hn : s.IsNamed)
    (htype : s.typeName = Name.ofDefinition path') : path' = path := by
  rcases hs.eq_or_isInline with rfl | hi
  · exact (hds.distinct path hp path' hp' htype).symm
  · exact (hds.inlineDefinition path s ⟨hp, hs, hi, hn⟩ path' hp' htype).1

omit hp' in
/-- What has the type name of a definition that is declared is the definition. -/
theorem eq_definition (hs : Site.Inside (.definition ds path path) s) (hn : s.IsNamed)
    (hp' : path' ∈ ds.names) (hn' : (Site.definition ds path' path').IsNamed)
    (htype : s.typeName = Name.ofDefinition path') : s = .definition ds path' path' := by
  rcases hs.eq_or_isInline with rfl | hi
  · rw [hds.distinct path hp path' hp' htype]
  · obtain ⟨rfl, hkind⟩ := hds.inlineDefinition path s ⟨hp, hs, hi, hn⟩ path' hp' htype
    obtain ⟨kind, hk, hnamed⟩ := hn'
    -- an array or a map is not declared
    rcases hkind with hkind | hkind <;> cases hkind.symm.trans hk <;> cases hnamed

/-- **What is declared has its type name for itself.** -/
theorem eq_of_typeName (hs : Site.Inside (.definition ds path path) s) (hn : s.IsNamed)
    (hs' : Site.Inside (.definition ds path' path') s') (hn' : s'.IsNamed)
    (htype : s.typeName = s'.typeName) : s = s' := by
  rcases hs'.eq_or_isInline with rfl | hi'
  · exact hds.eq_definition hp hs hn hp' hn' htype
  · rcases hs.eq_or_isInline with rfl | hi
    · exact (hds.eq_definition hp' hs' hn' hp hn htype.symm).symm
    · exact hds.inline path path' s s' ⟨hp, hs, hi, hn⟩ ⟨hp', hs', hi', hn'⟩ htype

omit hp' in
/-- What is `null` cannot be requested, for its type name is that of no other definition. -/
theorem isNull_lookUp (hnull : (ds.node path).schema.isNull = true) :
    (ds.node (Name.ofDefinition path)).schema.isNull = true := by
  by_contra h
  rw [Bool.not_eq_true] at h
  have hmem := mem_names_of_holds (holds_node h)
  have heq := hds.distinct _ hmem path hp (Name.ofDefinition_ofDefinition path)
  rw [heq] at h
  rw [h] at hnull
  cases hnull

end IsTidy
end Definitions

namespace Resolver

open Stateful

variable {ε : Type}

/-! ### Orderly states -/

/-- The definition is being resolved, or it is resolved. -/
def HasBegun (r : Resolver ε) (path : String) : Prop :=
  r.opening.contains (Name.ofDefinition path) = true ∨
    r.resolved.contains (Name.ofDefinition path) = true

section

variable (es : List Exclusion) (ds : Definitions) (names : List String)

/-- The waiting declaration is that of a site inside a definition that has begun.  It is
built in full, unless the site is pending. -/
structure Stems (pending : List Site) (r : Resolver ε) (name : String) (d : Declaration ε)
    (path : String) (s : Site) : Prop where
  reached : Definitions.Reaches es ds names path
  inside : Site.Inside (.definition ds path path) s
  named : s.IsNamed
  typeName : s.typeName = name
  begun : r.HasBegun path
  declared : s ∈ pending ∨ s.Declared (Site.Answers es ds r.queue) d

/-- Declarations wait for sites inside reached definitions, and what is remembered are the
expressions of these.  The fields of some interfaces are pending. -/
structure Orderly (pending : List Site) (r : Resolver ε) : Prop where
  exclusions : r.exclusions = es
  definitions : r.definitions = ds
  written : r.queue.written = []
  nodup : r.queue.names.Nodup
  waiting : ∀ name d, r.queue.waiting.find? name = some d →
    ∃ path s, Stems es ds names pending r name d path s
  resolved : ∀ name t, r.resolved.find? name = some t → ∃ path,
    Definitions.Reaches es ds names path ∧ Name.ofDefinition path = name ∧
      Site.Answers es ds r.queue (.definition ds path path) t

/-- The open definitions are related to the path. -/
def OpenLead (R : String → String → Prop) (o : Table Opening) (path : String) : Prop :=
  ∀ name p, o.find? name = some p →
    p.path ∈ ds.names ∧ Name.ofDefinition p.path = name ∧ R p.path path

/-- The site is inside a reached definition that is open, and all open definitions lead
there. -/
structure IsAt (o : Table Opening) (path : String) (s : Site) : Prop where
  reached : Definitions.Reaches es ds names path
  inside : Site.Inside (.definition ds path path) s
  opened : o.contains (Name.ofDefinition path) = true
  lead : OpenLead ds (Relation.ReflTransGen ds.Refers) o path

/-- What an emission is asked for: a reached definition that all open definitions lead to, or
a schema written inside the definition at hand. -/
inductive Asked (o : Table Opening) : Site → Prop
  | definition {path : String} (h : Definitions.Reaches es ds names path)
    (hlead : OpenLead ds (Relation.TransGen ds.Refers) o path) :
    Asked o (.definition ds path path)
  | inside {path : String} {s : Site} (h : IsAt es ds names o path s) (hi : s.IsInline)
    (hnull : s.schema.isNull = false) : Asked o s

/-- What an emission does: it gives the expression of the site and leaves an orderly state. -/
structure Answered (pending : List Site) (r : Resolver ε) (s : Site) (t : TypeExpr)
    (r' : Resolver ε) : Prop where
  orderly : Orderly es ds names pending r'
  opening : r'.opening = r.opening
  answers : s.Answers es ds r'.queue t

end

variable {es : List Exclusion} {ds : Definitions} {names : List String} {pending : List Site}
  {r r' : Resolver ε} {path : String} {s : Site}

theorem orderly_fresh (es : List Exclusion) (ds : Definitions) (names : List String) :
    Orderly es ds names [] (fresh es ds : Resolver ε) where
  exclusions := rfl
  definitions := rfl
  written := rfl
  nodup := List.nodup_nil
  waiting := fun _ _ h => nomatch h
  resolved := fun _ _ h => nomatch h

/-- What has begun has begun later, and known names stay known. -/
theorem Stems.mono {name : String} {d : Declaration ε}
    (h : Stems es ds names pending r name d path s)
    (hbegun : r.HasBegun path → r'.HasBegun path)
    (hk : ∀ name, r.queue.isKnown name = true → r'.queue.isKnown name = true) :
    Stems es ds names pending r' name d path s :=
  { h with
    begun := hbegun h.begun
    declared := h.declared.imp_right fun hd => hd.mono fun _ _ ht => ht.mono hk }

namespace Orderly

theorem noted (h : Orderly es ds names pending r) (ns : List Note) :
    Orderly es ds names pending (r.noted ns) where
  __ := h
  waiting := fun name d hd => by
    obtain ⟨path, s, hs⟩ := h.waiting name d hd
    exact ⟨path, s, hs.mono id fun _ => id⟩

theorem opened (h : Orderly es ds names pending r) (typeName : String) (o : Opening) :
    Orderly es ds names pending (r.opened typeName o) where
  __ := h
  waiting := fun name d hd => by
    obtain ⟨path, s, hs⟩ := h.waiting name d hd
    refine ⟨path, s, hs.mono (fun hb => hb.imp_left fun ho => ?_) fun _ => id⟩
    rw [Resolver.opened, Table.contains_insert, ho, Bool.or_true]

/-- Where no declaration is written, a known name waits. -/
theorem exists_of_isKnown (h : Orderly es ds names pending r) {name : String}
    (hk : r.queue.isKnown name = true) : ∃ d, r.queue.waiting.find? name = some d := by
  rw [Queue.isKnown, Queue.isWritten, h.written, List.contains_nil, Bool.or_false,
    Queue.isWaiting, Table.contains, Option.isSome_iff_exists] at hk
  exact hk

/-- A declaration for a site at hand enters, or it is completed.  Pending sites of other type
names stay pending. -/
theorem completed {pending' : List Site} (h : Orderly es ds names pending r)
    (hs : IsAt es ds names r.opening path s) (hn : s.IsNamed) {d : Declaration ε}
    (hname : d.name = s.typeName)
    (hd : s ∈ pending' ∨ s.Declared (Site.Answers es ds (r.completed d).queue) d)
    (hpending : ∀ u ∈ pending, u ∈ pending' ∨ u.typeName = s.typeName) :
    Orderly es ds names pending' (r.completed d) where
  exclusions := h.exclusions
  definitions := h.definitions
  written := h.written
  nodup := Table.nodup_keys_insert d.name d h.nodup
  waiting := fun name d' hd' => by
    rw [Resolver.completed, Table.find?_insert] at hd'
    split at hd'
    · next heq =>
      cases hd'
      exact ⟨path, s, hs.reached, hs.inside, hn, hname.symm.trans heq, Or.inl hs.opened, hd⟩
    · next hne =>
      obtain ⟨path', u, hu⟩ := h.waiting name d' hd'
      have hu' : Stems es ds names pending (r.completed d) name d' path' u :=
        hu.mono id fun _ => isKnown_insert
      refine ⟨path', u, { hu' with declared := hu'.declared.imp_left fun hp => ?_ }⟩
      refine (hpending u hp).resolve_right fun htype => hne ?_
      rw [hname, ← htype, hu.typeName]
  resolved := fun name t ht => by
    obtain ⟨path', hpath', htype, hans⟩ := h.resolved name t ht
    exact ⟨path', hpath', htype, hans.mono fun _ => isKnown_insert⟩

theorem declared {pending' : List Site} (h : Orderly es ds names pending r)
    (hs : IsAt es ds names r.opening path s) (hn : s.IsNamed) {d : Declaration ε}
    (hname : d.name = s.typeName)
    (hd : s ∈ pending' ∨ s.Declared (Site.Answers es ds (r.declared d).queue) d)
    (hpending : ∀ u ∈ pending, u ∈ pending' ∨ u.typeName = s.typeName) :
    Orderly es ds names pending' (r.declared d) :=
  (h.completed hs hn hname hd hpending).noted [.queued d.body.word d.name d.fqn]

/-- The expression of a definition that was open is remembered. -/
theorem remembered {t : TypeExpr} (h : Orderly es ds names pending r)
    (hpath : Definitions.Reaches es ds names path)
    (ht : Site.Answers es ds r.queue (.definition ds path path) t) :
    Orderly es ds names pending
      ((r.closed (Name.ofDefinition path)).remembered (Name.ofDefinition path) t) where
  exclusions := h.exclusions
  definitions := h.definitions
  written := h.written
  nodup := h.nodup
  waiting := fun name d hd => by
    obtain ⟨path', u, hu⟩ := h.waiting name d hd
    refine ⟨path', u, hu.mono (fun hbegun => ?_) fun _ => id⟩
    rw [HasBegun, Resolver.remembered, Resolver.closed, Table.contains_insert,
      Table.contains_erase]
    rcases hbegun with ho | hr
    · -- what was open is open or just closed
      by_cases heq : Name.ofDefinition path = Name.ofDefinition path'
      · exact Or.inr (by rw [decide_eq_true heq, Bool.true_or])
      · exact Or.inl (by rw [ho, decide_eq_false (Ne.symm heq)]; rfl)
    · exact Or.inr (by rw [show r.resolved.contains _ = true from hr, Bool.or_true])
  resolved := fun name u hu => by
    rw [Resolver.remembered, Table.find?_insert] at hu
    split at hu
    · next heq =>
      cases hu
      exact ⟨path, hpath, heq, ht⟩
    · exact h.resolved name u hu

end Orderly

/-! ### Open definitions -/

/-- A definition that the open ones lead to is not open itself. -/
theorem contains_of_openLead (hds : ds.IsTidy) (hp : path ∈ ds.names) {o : Table Opening}
    (hlead : OpenLead ds (Relation.TransGen ds.Refers) o path) :
    o.contains (Name.ofDefinition path) = false := by
  rw [Bool.eq_false_iff]
  intro hopen
  obtain ⟨p, hf⟩ := Option.isSome_iff_exists.mp hopen
  obtain ⟨hmem, htype, htrans⟩ := hlead _ p hf
  rw [hds.distinct p.path hmem path hp htype] at htrans
  exact hds.acyclic path htrans

namespace IsAt

variable {o : Table Opening}

theorem items (h : IsAt es ds names o path s) (hk : Schema.classify s.schema = .ok .array) :
    IsAt es ds names o path s.items :=
  { h with inside := h.inside.items hk }

theorem values (h : IsAt es ds names o path s) (hk : Schema.classify s.schema = .ok .map) :
    IsAt es ds names o path s.values :=
  { h with inside := h.inside.values hk }

theorem property (h : IsAt es ds names o path s) (hk : Schema.classify s.schema = .ok .struct)
    {p : String × Json} (hp : p ∈ Schema.properties s.schema) :
    IsAt es ds names o path (s.property p) :=
  { h with inside := h.inside.property hk hp }

theorem refers (h : IsAt es ds names o path s) {path' : String} (href : s.RefersTo path') :
    ds.Refers path path' :=
  ⟨s.schema, h.inside.schema, href.1, href.2⟩

/-- A reference leads on from the open definitions. -/
theorem openLead (h : IsAt es ds names o path s) {path' : String} (href : s.RefersTo path') :
    OpenLead ds (Relation.TransGen ds.Refers) o path' := by
  intro name p hf
  obtain ⟨hmem, htype, hlead⟩ := h.lead name p hf
  exact ⟨hmem, htype, .tail' hlead (h.refers href)⟩

/-- A definition that was opened is at hand. -/
theorem opened_self (hp : path ∈ ds.names) (hreached : Definitions.Reaches es ds names path)
    (hlead : OpenLead ds (Relation.TransGen ds.Refers) o path) (kind : Kind) :
    IsAt es ds names (o.insert (Name.ofDefinition path) ⟨path, kind⟩) path
      (.definition ds path path) where
  reached := hreached
  inside := .self
  opened := by rw [Table.contains_insert, decide_eq_true rfl, Bool.true_or]
  lead := by
    intro name p hf
    rw [Table.find?_insert] at hf
    split at hf
    · next heq =>
      cases hf
      exact ⟨hp, heq, .refl⟩
    · obtain ⟨hmem, htype, htrans⟩ := hlead name p hf
      exact ⟨hmem, htype, htrans.to_reflTransGen⟩

end IsAt

/-! ### Emission -/

/-- Asked in an orderly state, the emission answers if it succeeds. -/
def AlwaysAnswers (es : List Exclusion) (ds : Definitions) (names : List String)
    (emit : Emitting ε) : Prop :=
  ∀ pending typeName node fqn (r r' : Resolver ε) t, Orderly es ds names pending r →
    Asked es ds names r.opening ⟨typeName, node, Definitions.withoutStart fqn⟩ →
      exec (emit typeName node fqn) r = (.ok t, r') →
        Answered es ds names pending r ⟨typeName, node, Definitions.withoutStart fqn⟩ t r'

section

variable (hds : ds.IsTidy) (hnames : ∀ name ∈ names, name ∈ ds.names) {emit : Emitting ε}
  (he : AlwaysAnswers es ds names emit) (h : Orderly es ds names pending r)
  (hs : IsAt es ds names r.opening path s) {t : TypeExpr}

include hds hnames h in
/-- A definition whose type name is known has begun. -/
theorem hasBegun_of_isKnown (hp : path ∈ ds.names)
    (hk : r.queue.isKnown (Name.ofDefinition path) = true) : r.HasBegun path := by
  obtain ⟨d, hd⟩ := h.exists_of_isKnown hk
  obtain ⟨path', u, hu⟩ := h.waiting _ d hd
  have hp' : path' ∈ ds.names := hu.reached.mem_names hnames hds.refers
  rw [hds.eq_path hp' hp hu.inside hu.named hu.typeName]
  exact hu.begun

include hds hnames h hs he

/-- A reference is stopped, or its definition is resolved, or it is followed. -/
theorem answered_emitRef (hk : Schema.classify s.schema = .ok .ref)
    (hexec : exec (emitRef emit s.schema s.place) r = (.ok t, r')) :
    Answered es ds names pending r s t r' := by
  rw [exec_emitRef] at hexec
  unfold read at hexec
  cases hpath : Definitions.path? (s.schema.get "$ref") with
  | none =>
    rw [hpath] at hexec
    cases hexec
  | some target =>
    have href : s.RefersTo target := ⟨hk, hpath⟩
    have hmem : target ∈ ds.names :=
      hds.refers path (hs.reached.mem_names hnames hds.refers) target (hs.refers href)
    have hclosed := contains_of_openLead hds hmem (hs.openLead href)
    rw [hpath] at hexec
    dsimp only at hexec
    rw [isExcluded_eq_stops, h.exclusions] at hexec
    cases hx : Exclusion.stops es target with
    | true =>
      rw [hx] at hexec
      cases hexec
      exact ⟨h.noted _, rfl, .stopped href hx⟩
    | false =>
      have hreached : Definitions.Reaches es ds names target :=
        .followed hs.reached hs.inside.schema hk hpath hx
      rw [hx, if_neg Bool.false_ne_true] at hexec
      cases hres : r.resolved.find? (Name.ofDefinition target) with
      | some u =>
        rw [hres] at hexec
        cases hexec
        obtain ⟨path', hpath', htype, hans⟩ := h.resolved _ _ hres
        rw [hds.distinct path' (hpath'.mem_names hnames hds.refers) target hmem htype] at hans
        exact ⟨h.noted _, rfl, .reference href hx hans⟩
      | none =>
        -- what has not begun is neither open nor known
        have hnot : ¬ r.HasBegun target := by
          rw [HasBegun, hclosed, Table.contains, hres]
          rintro (hb | hb) <;> cases hb
        have hopen : r.isOpenUnnamed (Name.ofDefinition target) = false := by
          rw [isOpenUnnamed, Option.not_isSome_iff_eq_none.mp (Bool.eq_false_iff.mp hclosed)]
          rfl
        have hknown : r.queue.isKnown (Name.ofDefinition target) = false :=
          Bool.eq_false_iff.mpr fun hk => hnot (hasBegun_of_isKnown hds hnames h hmem hk)
        rw [hres, hopen, hknown] at hexec
        cases hresolve : r.definitions.resolve (s.schema.get "$ref") with
        | error e =>
          rw [hresolve] at hexec
          cases hexec
        | ok node =>
          rw [hresolve] at hexec
          obtain ⟨rfl, -⟩ := Definitions.resolve_eq_ok hpath hresolve
          have hsite := he pending (Name.ofDefinition target) (r.definitions.node target)
            (Definitions.refTo target) r r' t h
          rw [Definitions.withoutStart_refTo, h.definitions] at hsite
          have hans := hsite (.definition hreached (hs.openLead href))
            (by rw [← h.definitions]; exact hexec)
          exact ⟨hans.orderly, hans.opening, .reference href hx hans.answers⟩

omit hds hnames in
theorem answered_emitArray (hk : Schema.classify s.schema = .ok .array)
    (hexec : exec (emitArray emit s.typeName s.schema s.place) r = (.ok t, r')) :
    Answered es ds names pending r s t r' := by
  rw [exec_emitArray] at hexec
  split at hexec
  · next hobj =>
    obtain ⟨u, hu, rfl⟩ := eq_ok_of_mapValue hexec
    have hans := he pending _ _ _ r r' u h
      (.inside (hs.items hk) rfl (isNull_of_isObject hobj)) hu
    exact ⟨hans.orderly, hans.opening, .array hk hans.answers⟩
  · cases hexec

omit hds hnames in
theorem answered_emitMap (hk : Schema.classify s.schema = .ok .map)
    (hexec : exec (emitMap emit s.typeName s.schema s.place) r = (.ok t, r')) :
    Answered es ds names pending r s t r' := by
  rw [exec_emitMap] at hexec
  obtain ⟨u, hu, rfl⟩ := eq_ok_of_mapValue hexec
  have hans := he pending _ _ _ r r' u h
    (.inside (hs.values hk) rfl (isNull_of_isObject (isObject_of_classify_map hk))) hu
  exact ⟨hans.orderly, hans.opening, .map hk hans.answers⟩

omit hds hnames he in
theorem answered_emitUnion (hk : Schema.classify s.schema = .ok .union)
    (hexec : exec (emitUnion s.typeName s.schema s.place) r = (.ok t, r')) :
    Answered es ds names pending r s t r' := by
  have hn : s.IsNamed := ⟨.union, hk, rfl⟩
  rw [exec_emitUnion] at hexec
  cases hexec
  split
  · next hknown => exact ⟨h, rfl, .named hn hknown⟩
  · exact ⟨h.declared hs hn rfl (Or.inr (.union hk)) fun u hu => Or.inl hu, rfl,
      .named hn (isKnown_declared r ⟨s.typeName, s.place, _, _, _⟩)⟩

omit hds hnames he in
theorem answered_emitEnum (hk : Schema.classify s.schema = .ok .enumString)
    (hexec : exec (emitEnum s.typeName s.schema s.place) r = (.ok t, r')) :
    Answered es ds names pending r s t r' := by
  have hn : s.IsNamed := ⟨.enumString, hk, rfl⟩
  cases hknown : r.queue.isKnown s.typeName with
  | true =>
    obtain ⟨ms, ns, -, hall⟩ := exec_emitEnum (ε := ε) s.typeName s.schema s.place
    rw [hall, if_pos hknown] at hexec
    cases hexec
    exact ⟨h, rfl, .named hn hknown⟩
  | false =>
    rcases exec_emitEnum_new (s := s) hknown with ⟨e, ns, hnew⟩ | ⟨ms, ns, hms, hnew⟩ <;>
      rw [hnew] at hexec <;> cases hexec
    exact ⟨(h.noted ns).declared hs hn rfl (Or.inr (.enum hk hms)) fun u hu => Or.inl hu, rfl,
      .named hn (isKnown_declared (r.noted ns) ⟨s.typeName, s.place, _, _, _⟩)⟩

/-! ### Interfaces -/

variable (hgrow : AlwaysGrows emit)

include hgrow

omit hnames in
/-- Field after field: each one has the expression of its property. -/
theorem answered_fields (hp : path ∈ ds.names) (hk : Schema.classify s.schema = .ok .struct)
    {ps : List (String × Json)} (hps : ∀ p ∈ ps, p ∈ (s.schema.get "properties").fields)
    {fs : List Field} (hexec : exec (fields emit s.place s.schema ps) r = (.ok fs, r')) :
    Orderly es ds names pending r' ∧ r'.opening = r.opening ∧
      s.HasFields (Site.Answers es ds r'.queue) (ps.filter fun p => !isExtension p.1) fs := by
  induction ps generalizing r fs with
  | nil =>
    cases hexec
    exact ⟨h, rfl, .nil⟩
  | cons p ps ih =>
    have hps' : ∀ q ∈ ps, q ∈ (s.schema.get "properties").fields :=
      fun q hq => hps q (List.mem_cons_of_mem p hq)
    rw [exec_fields_cons] at hexec
    rw [List.filter_cons]
    by_cases hx : isExtension p.1 = true
    · simp only [hx, if_true, Bool.not_true, Bool.false_eq_true, if_false] at hexec ⊢
      exact ih h hs hps' hexec
    · rw [Bool.not_eq_true] at hx
      simp only [hx, Bool.false_eq_true, if_false, Bool.not_false, if_true] at hexec ⊢
      have hprop : p ∈ Schema.properties s.schema :=
        Schema.mem_properties.mpr ⟨hps p List.mem_cons_self, hx⟩
      rw [exec_field, emitInner] at hexec
      let place := s.place ++ "." ++ Name.fieldName p.1
      rcases hfirst : exec (emit (Name.ofPath place) (.inline p.2) place) r with ⟨e | t, r₁⟩ <;>
        rw [hfirst] at hexec
      · cases hexec
      · have hans := he pending _ _ _ r r₁ t h
          (.inside (hs.property hk hprop) rfl (hds.properties path hp s hs.inside hk p hprop))
          hfirst
        obtain ⟨rest, hrest, rfl⟩ := eq_ok_of_mapValue hexec
        obtain ⟨ho, hopening, hfields⟩ := ih hans.orderly (hans.opening.symm ▸ hs) hps' hrest
        -- the names in the first expression are still known behind the other fields
        have hg := grows_fields hgrow s.place s.schema ps r₁
        rw [hrest] at hg
        exact ⟨ho, hopening.trans hans.opening,
          .cons ⟨t, rfl, hans.answers.mono fun _ => hg.isKnown⟩ hfields⟩

/-- While its fields are emitted, the interface is pending. -/
theorem answered_emitStruct (hk : Schema.classify s.schema = .ok .struct)
    (hexec : exec (emitStruct emit s.typeName s.schema s.place) r = (.ok t, r')) :
    Answered es ds names pending r s t r' := by
  have hn : s.IsNamed := ⟨.struct, hk, rfl⟩
  rw [exec_emitStruct] at hexec
  split at hexec
  · next hknown =>
    cases hexec
    exact ⟨h, rfl, .named hn hknown⟩
  · let c : Declaration ε :=
      ⟨s.typeName, s.place, s.schema.get "description", some s.schema, .struct []⟩
    have hc : Orderly es ds names (s :: pending) (r.declared c) :=
      h.declared hs hn rfl (Or.inl List.mem_cons_self)
        fun u hu => Or.inl (List.mem_cons_of_mem s hu)
    rcases hfields : exec (fields emit s.place s.schema (s.schema.get "properties").fields)
      (r.declared c) with ⟨e | fs, r₁⟩ <;> rw [hfields] at hexec <;> cases hexec
    obtain ⟨ho, hopening, hfs⟩ := answered_fields hds he hc hs hgrow
      (hs.reached.mem_names hnames hds.refers) hk (fun _ hp => hp) hfields
    have hs' : IsAt es ds names r₁.opening path s := by rwa [hopening]
    let d : Declaration ε :=
      ⟨s.typeName, s.place, s.schema.get "description", some s.schema, .struct fs⟩
    have hknown : (r₁.completed d).queue.isKnown s.typeName = true := by
      simp [completed, d, Queue.isKnown, Queue.isWaiting]
    refine ⟨ho.completed hs' hn (d := d) rfl (Or.inr (.struct hk ?_)) fun u hu => ?_, hopening,
      .named hn hknown⟩
    · exact hfs.mono fun _ _ hans => hans.mono fun _ => isKnown_insert
    · exact (List.mem_cons.mp hu).symm.imp_right fun heq => by rw [heq]

/-! ### One emission -/

theorem answered_emitKind {kind : Kind} (hk : Schema.classify s.schema = .ok kind)
    (hscalar : kind.scalar? = none)
    (hexec : exec (emitKind emit kind s.typeName s.schema s.place) r = (.ok t, r')) :
    Answered es ds names pending r s t r' := by
  cases kind with
  | ref => exact answered_emitRef hds hnames he h hs hk hexec
  | union => exact answered_emitUnion h hs hk hexec
  | array => exact answered_emitArray he h hs hk hexec
  | enumString => exact answered_emitEnum h hs hk hexec
  | map => exact answered_emitMap he h hs hk hexec
  | struct => exact answered_emitStruct hds hnames he h hs hgrow hk hexec
  | _ => cases hscalar

omit hs in
/-- The expression of a definition is remembered, or it is there already. -/
theorem answered_emitDefinition (hreached : Definitions.Reaches es ds names path)
    (hlead : OpenLead ds (Relation.TransGen ds.Refers) r.opening path) {kind : Kind}
    (hk : Schema.classify (ds.node path).schema = .ok kind) (hscalar : kind.scalar? = none)
    (hexec : exec (emitDefinition emit kind (Name.ofDefinition path) (ds.node path).schema path) r =
      (.ok t, r')) :
    Answered es ds names pending r (.definition ds path path) t r' := by
  have hp : path ∈ ds.names := hreached.mem_names hnames hds.refers
  rw [exec_emitDefinition] at hexec
  cases hres : r.resolved.find? (Name.ofDefinition path) with
  | some u =>
    rw [hres] at hexec
    cases hexec
    obtain ⟨path', hpath', htype, hans⟩ := h.resolved _ _ hres
    rw [hds.distinct path' (hpath'.mem_names hnames hds.refers) path hp htype] at hans
    exact ⟨h, rfl, hans⟩
  | none =>
    rw [hres] at hexec
    have hclosed := contains_of_openLead hds hp hlead
    rcases hin : exec (emitKind emit kind (Name.ofDefinition path) (ds.node path).schema path)
      (r.opened (Name.ofDefinition path) ⟨path, kind⟩) with ⟨e | u, r₁⟩ <;>
      simp only [hin] at hexec <;> split at hexec <;> cases hexec
    have hans := answered_emitKind hds hnames he (h.opened _ ⟨path, kind⟩)
      (.opened_self hp hreached hlead kind) hgrow hk hscalar hin
    refine ⟨hans.orderly.remembered hreached hans.answers, ?_, hans.answers⟩
    show r₁.opening.erase _ = _
    rw [hans.opening]
    exact Table.erase_insert _ (Table.contains_eq_false_iff.mp hclosed)

end

/-- A definition that is `null` is not emitted; everything else is emitted itself. -/
theorem nodeFor_eq_of_asked (hds : ds.IsTidy) (hnames : ∀ name ∈ names, name ∈ ds.names)
    (hr : r.definitions = ds) {o : Table Opening} (ha : Asked es ds names o s) {n : Node}
    (hn : r.nodeFor s.typeName s.node = .ok n) : n = s.node ∧ s.schema.isNull = false := by
  have hnull : s.schema.isNull = false := by
    cases ha with
    | inside _ _ hnull => exact hnull
    | @definition path hreached _ =>
      rw [Bool.eq_false_iff]
      intro hnull
      have hlookUp := hds.isNull_lookUp (hreached.mem_names hnames hds.refers) hnull
      rw [nodeFor, hr, show (Site.definition ds path path).node.schema.isNull = true from hnull]
        at hn
      simp only [if_true] at hn
      rw [show (ds.node (Site.definition ds path path).typeName).schema.isNull = true from hlookUp]
        at hn
      cases hn
  rw [nodeFor_of_not_isNull r hnull] at hn
  exact ⟨(Except.ok.inj hn).symm, hnull⟩

theorem alwaysAnswers_emitStep (hds : ds.IsTidy) (hnames : ∀ name ∈ names, name ∈ ds.names)
    {emit : Emitting ε} (he : AlwaysAnswers es ds names emit) (hgrow : AlwaysGrows emit) :
    AlwaysAnswers es ds names (emitStep emit) := by
  intro pending typeName node fqn r r' t h ha hexec
  rw [exec_emitStep] at hexec
  cases hn : r.nodeFor typeName node with
  | error e =>
    rw [hn] at hexec
    cases hexec
  | ok n =>
    obtain ⟨hnode, hnull⟩ := nodeFor_eq_of_asked hds hnames h.definitions ha hn
    rw [hn, hnode] at hexec
    dsimp only at hexec
    cases hadm : r.admission typeName node (Definitions.withoutStart fqn) with
    | error e =>
      rw [hadm] at hexec
      cases hexec
    | ok kind =>
      have hk := classify_of_admission hadm
      rw [hadm] at hexec
      dsimp only at hexec
      cases hscalar : kind.scalar? with
      | some scalar =>
        rw [hscalar] at hexec
        cases hexec
        exact ⟨h.noted _, rfl, .scalar hk hscalar⟩
      | none =>
        rw [hscalar] at hexec
        dsimp only at hexec
        rw [isDefinition, h.definitions] at hexec
        generalize hs : (⟨typeName, node, Definitions.withoutStart fqn⟩ : Site) = s at ha hnull ⊢
        cases ha with
        | inside hat hi _ =>
          subst hs
          rw [show ds.holds _ node = false from hi.holds_eq_false ds _, Bool.false_and,
            if_neg Bool.false_ne_true] at hexec
          exact answered_emitKind hds hnames he h hat hgrow hk hscalar hexec
        | definition hreached hlead =>
          obtain ⟨rfl, rfl, hplace⟩ := Site.mk.inj hs
          rw [hplace, Definitions.holds_node hnull, beq_self_eq_true, Bool.and_true,
            if_pos rfl] at hexec
          exact answered_emitDefinition hds hnames he h hgrow hreached hlead hk hscalar hexec

/-- **Asked in an orderly state, an emission that succeeds gives the expression of the site**
and leaves an orderly state. -/
theorem alwaysAnswers_emitWith (hds : ds.IsTidy) (hnames : ∀ name ∈ names, name ∈ ds.names)
    (n : Nat) : AlwaysAnswers es ds names (emitWith n : Emitting ε) := by
  induction n with
  | zero => exact fun _ _ _ _ _ _ _ _ _ h => nomatch h
  | succ n ih => exact alwaysAnswers_emitStep hds hnames ih (grows_emitWith n)

end Resolver
end SchemaScript
