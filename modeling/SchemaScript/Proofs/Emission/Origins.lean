import SchemaScript.Proofs.Emission.Atomicity
import SchemaScript.Proofs.Emission.Closure
import SchemaScript.Proofs.Emission.Settling
import SchemaScript.Proofs.Emission.Sites
import SchemaScript.Proofs.Emission.Termination
import SchemaScript.Proofs.Schemas

/-!
# Where declarations, expressions and notes come from

Whatever an emission adds to the state comes from a site that it went through: a
declaration stands for the schema of the site, under its type name and with its place; an
expression is remembered for a definition; and the note of a recursive reference is taken
at a reference.

Which sites an emission goes through depends on what is of interest.  So the argument is
for any two families of sites, those asked for and those gone through, that are closed
under the ways that emissions go.  They can depend on the open definitions.

## Main definitions

* `Resolver.IsRoute` — families of sites closed under the ways of emissions.
* `Resolver.Declares`, `Resolver.Remembers`, `Resolver.Reports` — what comes from a site.
* `Resolver.Founded` — all that was added comes from sites of a family.

## Main results

* `founded_emit` — what an emission adds comes from sites.
* `settles_emit` — what is to be declared has its name known afterwards, or an expression is
  remembered under it.
-/

namespace SchemaScript
namespace Resolver

open Stateful

variable {ε : Type}

/-! ### Routes -/

/-- Sites that depend on the open definitions. -/
abbrev Sites := Table Opening → Site → Prop

/-- The sites asked for are gone through, a definition behind being opened; from those
gone through the ways lead to others, and from references to sites asked for. -/
structure IsRoute (ds : Definitions) (asked gone : Sites) : Prop where
  askedLookUp : ∀ {o s}, asked o s → s.schema.isNull = true → asked o (s.lookUp ds)
  stay : ∀ {o s}, asked o s → s.isDefinition ds = false → gone o s
  enter : ∀ {o s kind}, asked o s → s.isDefinition ds = true →
    Schema.classify s.schema = .ok kind → kind.scalar? = none →
      o.contains s.typeName = false → gone (o.insert s.typeName ⟨s.place, kind⟩) s
  lookUp : ∀ {o s}, gone o s → s.schema.isNull = true → gone o (s.lookUp ds)
  items : ∀ {o s}, gone o s → Schema.classify s.schema = .ok .array → gone o s.items
  values : ∀ {o s}, gone o s → Schema.classify s.schema = .ok .map → gone o s.values
  property : ∀ {o s p}, gone o s → Schema.classify s.schema = .ok .struct →
    p ∈ (s.schema.get "properties").fields → isExtension p.1 = false → gone o (s.property p)
  follow : ∀ {o s path}, gone o s → s.RefersTo path → path ∈ ds.names →
    (ds.node path).schema.isNull = false → asked o (.definition ds path path)

/-! ### What comes from a site -/

/-- The waiting declaration stands for the schema of the site. -/
structure Declares (s : Site) (e : String × Declaration ε) : Prop where
  key : e.1 = s.typeName
  name : e.2.name = s.typeName
  fqn : e.2.fqn = s.place
  origin : e.2.origin = some s.schema
  kind : ∃ kind, Schema.classify s.schema = .ok kind ∧ kind.isNamed = true

/-- The name is that of the site, a definition; and if this one is to be declared, the name
is known. -/
structure Remembers (ds : Definitions) (r : Resolver ε) (s : Site) (name : String) : Prop where
  typeName : s.typeName = name
  isDefinition : s.isDefinition ds = true
  kind : ∃ kind, Schema.classify s.schema = .ok kind ∧ kind.scalar? = none ∧
    (kind.isNamed = true → r.queue.isKnown name = true)

/-- The site refers back to the name of an open definition without a declaration. -/
structure Reports (o : Table Opening) (s : Site) (text : String)
    (opening : List (String × Opening)) : Prop where
  opening : opening = o.entries
  path : ∃ path, s.RefersTo path ∧ text = Definitions.refTo path ∧
    ∃ p, o.find? (Name.ofDefinition path) = some p ∧ p.kind.isNamed = false

/-- All that was added comes from sites gone through. -/
structure Founded (ds : Definitions) (gone : Sites) (r r' : Resolver ε) : Prop where
  waiting : ∃ es, r'.queue.waiting.entries = r.queue.waiting.entries ++ es ∧
    ∀ e ∈ es, ∃ o s, gone o s ∧ Declares s e
  resolved : ∃ fs, r'.resolved.entries = r.resolved.entries ++ fs ∧
    ∀ f ∈ fs, ∃ o s, gone o s ∧ Remembers ds r' s f.1
  notes : ∃ ns, r'.notes = r.notes ++ ns ∧ ∀ text opening,
    .recursiveReference text opening ∈ ns → ∃ o s, gone o s ∧ Reports o s text opening

/-- The waiting declaration of a site waits under its own name. -/
theorem Declares.self {s : Site} {e : String × Declaration ε} (h : Declares s e) :
    Declares s (e.2.name, e.2) := by
  rwa [show (e.2.name, e.2) = e from Prod.ext (h.name.trans h.key.symm) rfl]

theorem Remembers.mono {ds : Definitions} {r r' : Resolver ε} {s : Site} {name : String}
    (h : Remembers ds r s name)
    (hk : r.queue.isKnown name = true → r'.queue.isKnown name = true) :
    Remembers ds r' s name := by
  obtain ⟨kind, hc, hs, hn⟩ := h.kind
  exact ⟨h.typeName, h.isDefinition, kind, hc, hs, fun hnamed => hk (hn hnamed)⟩

namespace Founded

variable {ds : Definitions} {gone : Sites} {r r' r'' : Resolver ε}

theorem refl (r : Resolver ε) : Founded ds gone r r where
  waiting := ⟨[], (List.append_nil _).symm, fun _ h => absurd h List.not_mem_nil⟩
  resolved := ⟨[], (List.append_nil _).symm, fun _ h => absurd h List.not_mem_nil⟩
  notes := ⟨[], (List.append_nil _).symm, fun _ _ h => absurd h List.not_mem_nil⟩

/-- What is known in between is known at the end. -/
theorem trans (h : Founded ds gone r r') (h' : Founded ds gone r' r'') (hg : Grows r' r'') :
    Founded ds gone r r'' where
  waiting := by
    obtain ⟨es, he, hes⟩ := h.waiting
    obtain ⟨es', he', hes'⟩ := h'.waiting
    refine ⟨es ++ es', by rw [he', he, List.append_assoc], fun e hm => ?_⟩
    exact (List.mem_append.mp hm).elim (hes e) (hes' e)
  resolved := by
    obtain ⟨fs, hf, hfs⟩ := h.resolved
    obtain ⟨fs', hf', hfs'⟩ := h'.resolved
    refine ⟨fs ++ fs', by rw [hf', hf, List.append_assoc], fun f hm => ?_⟩
    rcases List.mem_append.mp hm with hm | hm
    · obtain ⟨o, s, hs, hr⟩ := hfs f hm
      exact ⟨o, s, hs, hr.mono hg.isKnown⟩
    · exact hfs' f hm
  notes := by
    obtain ⟨ns, hn, hns⟩ := h.notes
    obtain ⟨ns', hn', hns'⟩ := h'.notes
    refine ⟨ns ++ ns', by rw [hn', hn, List.append_assoc], fun text opening hm => ?_⟩
    exact (List.mem_append.mp hm).elim (hns text opening) (hns' text opening)

/-- Queue and resolved definitions are what they were, so only notes were added. -/
theorem of_eq (ns : List Note) (hq : r'.queue = r.queue) (hr : r'.resolved = r.resolved)
    (hn : r'.notes = r.notes ++ ns)
    (h : ∀ text opening, .recursiveReference text opening ∈ ns →
      ∃ o s, gone o s ∧ Reports o s text opening) : Founded ds gone r r' where
  waiting := ⟨[], by rw [hq, List.append_nil], fun _ h => absurd h List.not_mem_nil⟩
  resolved := ⟨[], by rw [hr, List.append_nil], fun _ h => absurd h List.not_mem_nil⟩
  notes := ⟨ns, hn, h⟩

/-- Notes of which those of recursive references come from sites. -/
theorem noted (r : Resolver ε) {ns : List Note}
    (h : ∀ text opening, .recursiveReference text opening ∈ ns →
      ∃ o s, gone o s ∧ Reports o s text opening) : Founded ds gone r (r.noted ns) :=
  of_eq ns rfl rfl rfl h

/-- A declaration for a site. -/
theorem declared {d : Declaration ε} (hk : r.queue.isKnown d.name = false)
    {o : Table Opening} {s : Site} (hs : gone o s) (hd : Declares s (d.name, d)) :
    Founded ds gone r (r.declared d) where
  waiting := by
    refine ⟨_, entries_declared hk, fun e he => ?_⟩
    rw [List.mem_singleton.mp he]
    exact ⟨o, s, hs, hd⟩
  resolved := ⟨[], (List.append_nil _).symm, fun _ h => absurd h List.not_mem_nil⟩
  notes := by
    refine ⟨_, rfl, fun text opening hm => ?_⟩
    cases List.mem_singleton.mp hm

/-- A declaration is completed where it stands. -/
theorem completed {c d : Declaration ε} (hk : r.queue.isKnown d.name = false)
    (hn : c.name = d.name) {o : Table Opening} {s : Site} (hs : gone o s)
    (hd : Declares s (d.name, d)) (hg : Grows (r.declared c) r')
    (h : Founded ds gone (r.declared c) r') : Founded ds gone r (r'.completed d) where
  waiting := by
    obtain ⟨es, he, hes⟩ := h.waiting
    obtain ⟨es', he', hdone, -⟩ := entries_completed hk hn hg
    -- what came behind the head is the same, seen from the head and from before it
    have hsame : es' = es := by
      rw [he, entries_declared (hn ▸ hk), List.append_assoc, List.append_cancel_left_eq] at he'
      exact (List.cons.inj he').2.symm
    refine ⟨_, hdone, fun e hm => ?_⟩
    rcases List.mem_cons.mp hm with rfl | hm
    · exact ⟨o, s, hs, hd⟩
    · exact hes e (hsame ▸ hm)
  resolved := by
    obtain ⟨fs, hf, hfs⟩ := h.resolved
    refine ⟨fs, hf, fun f hm => ?_⟩
    obtain ⟨p, t, ht, hr⟩ := hfs f hm
    exact ⟨p, t, ht, hr.mono isKnown_insert⟩
  notes := by
    obtain ⟨ns, hns, hrec⟩ := h.notes
    refine ⟨.queued c.body.word c.name c.fqn :: ns, ?_, fun text opening hm => ?_⟩
    · rw [Resolver.completed, hns]
      exact List.append_assoc ..
    · rcases List.mem_cons.mp hm with hm | hm
      · cases hm
      · exact hrec text opening hm

/-- Reverting leaves notes only. -/
theorem reverted (h : Founded ds gone r r') (hg : Grows r r') :
    Founded ds gone r (r'.reverted r) := by
  obtain ⟨ns, hns, hrec⟩ := h.notes
  obtain ⟨hq, hr⟩ := hg.reverted_eq
  let withdrawn : List Note := if (r'.queue.since r.queue.checkpoint).isEmpty then []
    else [.withdrew (r'.queue.since r.queue.checkpoint)]
  refine of_eq (ns ++ withdrawn) hq hr ?_ fun text opening hm => ?_
  · rw [Resolver.reverted, hns]
    exact List.append_assoc ..
  · rcases List.mem_append.mp hm with hm | hm
    · exact hrec text opening hm
    · dsimp only [withdrawn] at hm
      split at hm
      · exact absurd hm List.not_mem_nil
      · cases List.mem_singleton.mp hm

/-- What was done while a definition was open was done from before. -/
theorem closed {typeName : String} {o : Opening}
    (h : Founded ds gone (r.opened typeName o) r') : Founded ds gone r (r'.closed typeName) where
  waiting := h.waiting
  resolved := by
    obtain ⟨fs, hf, hfs⟩ := h.resolved
    refine ⟨fs, hf, fun f hm => ?_⟩
    obtain ⟨p, t, ht, hr⟩ := hfs f hm
    exact ⟨p, t, ht, hr.mono id⟩
  notes := h.notes

/-- The expression of a definition that was open is remembered. -/
theorem remembered {typeName : String} {o : Opening} {t : TypeExpr} {p : Table Opening}
    {s : Site} (hg : Grows (r.opened typeName o) r')
    (hopen : r'.opening.contains typeName = true) (hr : r.resolved.find? typeName = none)
    (hs : gone p s) (hrem : Remembers ds r' s typeName)
    (h : Founded ds gone (r.opened typeName o) r') :
    Founded ds gone r ((r'.closed typeName).remembered typeName t) where
  waiting := h.waiting
  resolved := by
    obtain ⟨fs, hf, hfs⟩ := h.resolved
    have hnew : ((r'.closed typeName).remembered typeName t).resolved.entries =
        r'.resolved.entries ++ [(typeName, t)] :=
      Table.insert_of_notMem t (show typeName ∉ r'.resolved.keys from
        notMem_resolved_of_open hg hopen hr)
    refine ⟨fs ++ [(typeName, t)], by rw [hnew, hf]; exact List.append_assoc .., fun f hm => ?_⟩
    rcases List.mem_append.mp hm with hm | hm
    · obtain ⟨q, u, hu, hrem'⟩ := hfs f hm
      exact ⟨q, u, hu, hrem'.mono id⟩
    · rw [List.mem_singleton.mp hm]
      exact ⟨p, s, hs, hrem.mono id⟩
  notes := h.notes

end Founded

/-! ### Kinds -/

/-- A kind that is declared is no scalar. -/
theorem scalar?_of_isNamed {kind : Kind} (h : kind.isNamed = true) : kind.scalar? = none := by
  cases kind <;> first | rfl | cases h

/-- What is declared is there. -/
theorem isNull_of_isNamed {schema : Json} {kind : Kind} (hc : Schema.classify schema = .ok kind)
    (h : kind.isNamed = true) : schema.isNull = false :=
  Schema.not_isNull_of_classify hc (scalar?_of_isNamed h)

/-- Where a declaration is made, its name is known afterwards. -/
theorem isKnown_emitKind {emit : Emitting ε} (hgrow : AlwaysGrows emit) {kind : Kind}
    (hk : kind.isNamed = true) {typeName : String} {schema : Json} {fqn : String}
    {r : Resolver ε} {t : TypeExpr}
    (h : (exec (emitKind emit kind typeName schema fqn) r).1 = .ok t) :
    (exec (emitKind emit kind typeName schema fqn) r).2.queue.isKnown typeName = true := by
  cases kind with
  | union =>
    rw [emitKind, exec_emitUnion]
    dsimp only
    split
    · assumption
    · exact isKnown_declared r ⟨typeName, fqn, _, _, .union (optionTypes schema)⟩
  | enumString =>
    obtain ⟨ms, ns, -, hexec⟩ := exec_emitEnum (ε := ε) typeName schema fqn
    rw [emitKind, hexec] at h ⊢
    split at h
    · next hknown =>
      rw [if_pos hknown]
      exact hknown
    · next hknown =>
      rw [if_neg hknown]
      cases ms with
      | error e => cases h
      | ok ms => exact isKnown_declared (r.noted ns) ⟨typeName, fqn, _, _, .enum ms⟩
  | struct =>
    rw [emitKind, exec_emitStruct] at h ⊢
    split at h
    · next hknown =>
      rw [if_pos hknown]
      exact hknown
    · next hknown =>
      rw [if_neg hknown]
      let c : Declaration ε :=
        ⟨typeName, fqn, schema.get "description", some schema, .struct []⟩
      have hgf := grows_fields hgrow fqn schema (schema.get "properties").fields (r.declared c)
      rcases hx : exec (fields emit fqn schema (schema.get "properties").fields) (r.declared c)
        with ⟨e | fs, r'⟩ <;> rw [hx] at hgf h
      · cases h
      · exact isKnown_insert (d := ⟨typeName, fqn, _, _, .struct fs⟩)
          (hgf.isKnown (isKnown_declared r c))
  | _ => cases hk

/-! ### References -/

/-- A note of a recursive reference is taken only where the path leads back to the name of
an open definition without a declaration. -/
theorem of_answered {r : Resolver ε} {schema : Json} {fqn : String} {t : TypeExpr}
    {ns : List Note} (h : r.read schema fqn = .answered t ns) {text : String}
    {opening : List (String × Opening)} (hn : .recursiveReference text opening ∈ ns) :
    opening = r.opening.entries ∧ ∃ path, Definitions.path? (schema.get "$ref") = some path ∧
      text = Definitions.refTo path ∧ r.isOpenUnnamed (Name.ofDefinition path) = true := by
  unfold read at h
  split at h
  · cases h
  · next path hp =>
    split at h
    · cases h
      cases List.mem_singleton.mp hn
    · split at h
      · cases h
        exact absurd hn List.not_mem_nil
      · split at h
        · next hu =>
          cases h
          cases List.mem_singleton.mp hn
          exact ⟨rfl, path, hp, rfl, hu⟩
        · split at h
          · cases h
            exact absurd hn List.not_mem_nil
          · split at h <;> cases h

theorem exists_of_isOpenUnnamed {r : Resolver ε} {name : String}
    (h : r.isOpenUnnamed name = true) :
    ∃ p, r.opening.find? name = some p ∧ p.kind.isNamed = false := by
  rw [isOpenUnnamed, Option.any_eq_true] at h
  obtain ⟨p, hp, hk⟩ := h
  exact ⟨p, hp, by simpa using hk⟩

/-! ### Emission -/

/-- What is asked for is among the sites asked for, or it is among those gone through and
no definition. -/
def Aimed (asked gone : Sites) (r : Resolver ε) (typeName : String) (node : Node)
    (fqn : String) : Prop :=
  asked r.opening ⟨typeName, node, Definitions.withoutStart fqn⟩ ∨
    gone r.opening ⟨typeName, node, Definitions.withoutStart fqn⟩ ∧
      ∀ n, r.nodeFor typeName node = .ok n →
        r.isDefinition typeName n (Definitions.withoutStart fqn) = false

/-- Asked for what is among the sites, the emission adds only what comes from sites. -/
def AlwaysFounded (ds : Definitions) (asked gone : Sites) (emit : Emitting ε) : Prop :=
  ∀ typeName node fqn (r : Resolver ε), r.definitions = ds → r.Guarded →
    r.Fits typeName node fqn → Aimed asked gone r typeName node fqn →
      Founded ds gone r (exec (emit typeName node fqn) r).2

section

variable {ds : Definitions} {asked gone : Sites} (hroute : IsRoute ds asked gone)
  (hd : ds.Distinct) {emit : Emitting ε} (he : AlwaysFounded ds asked gone emit)

include hroute hd he

omit hd in
/-- A reference that is followed asks for the site of the definition. -/
theorem founded_emitRef {s : Site} {r : Resolver ε} (hr : r.definitions = ds)
    (hg : r.Guarded) (hs : gone r.opening s) (hc : Schema.classify s.schema = .ok .ref) :
    Founded ds gone r (exec (emitRef emit s.schema s.place) r).2 := by
  rw [exec_emitRef]
  cases hread : r.read s.schema s.place with
  | failed e => exact Founded.refl r
  | answered t ns =>
    refine Founded.noted r fun text opening hm => ?_
    obtain ⟨hopening, path, hp, htext, hu⟩ := of_answered hread hm
    exact ⟨r.opening, s, hs, hopening, path, ⟨hc, hp⟩, htext, exists_of_isOpenUnnamed hu⟩
  | followed name node place =>
    obtain ⟨-, path, rfl, rfl, hresolve, hp⟩ := of_followed hread
    obtain ⟨rfl, hnull⟩ := Definitions.resolve_eq_ok hp hresolve
    refine he _ _ _ r hr hg (fits_of_followed hg hread) (Or.inl ?_)
    rw [hr] at hnull ⊢
    rw [Definitions.withoutStart_refTo]
    have hmem := Definitions.mem_names_of_holds (Definitions.holds_node hnull)
    exact hroute.follow hs ⟨hc, hp⟩ hmem hnull

omit hroute hd in
/-- A schema written inside another one is no definition. -/
theorem founded_emitInner {seed place : String} {schema : Json} {r : Resolver ε}
    (hr : r.definitions = ds) (hg : r.Guarded) (hnull : schema.isNull = false)
    (hs : gone r.opening (.inner seed schema place)) :
    Founded ds gone r (exec (emitInner emit seed schema place) r).2 :=
  he _ _ _ r hr hg (fits_inline hnull _ _)
    (Or.inr ⟨hs, fun _ hn => not_isDefinition_inline hnull hn _⟩)

omit hd in
theorem founded_emitArray {s : Site} {r : Resolver ε} (hr : r.definitions = ds)
    (hg : r.Guarded) (hs : gone r.opening s) (hc : Schema.classify s.schema = .ok .array) :
    Founded ds gone r (exec (emitArray emit s.typeName s.schema s.place) r).2 := by
  rw [exec_emitArray]
  split
  · next hi =>
    exact founded_emitInner he hr hg (isNull_of_isObject hi) (hroute.items hs hc)
  · exact Founded.refl r

omit hd in
theorem founded_emitMap {s : Site} {r : Resolver ε} (hr : r.definitions = ds)
    (hg : r.Guarded) (hs : gone r.opening s) (hc : Schema.classify s.schema = .ok .map) :
    Founded ds gone r (exec (emitMap emit s.typeName s.schema s.place) r).2 := by
  rw [exec_emitMap]
  exact founded_emitInner he hr hg (isNull_of_isObject (isObject_of_classify_map hc))
    (hroute.values hs hc)

omit hroute hd he in
theorem founded_emitUnion {s : Site} {r : Resolver ε} (hs : gone r.opening s)
    (hc : Schema.classify s.schema = .ok .union) :
    Founded ds gone r (exec (emitUnion s.typeName s.schema s.place) r).2 := by
  rw [exec_emitUnion]
  dsimp only
  split
  · exact Founded.refl r
  · next hk =>
    rw [Bool.not_eq_true] at hk
    exact Founded.declared (d := ⟨s.typeName, s.place, _, some s.schema, _⟩) hk hs
      ⟨rfl, rfl, rfl, rfl, .union, hc, rfl⟩

omit hroute hd he in
theorem founded_emitEnum {s : Site} {r : Resolver ε} (hs : gone r.opening s)
    (hc : Schema.classify s.schema = .ok .enumString) :
    Founded ds gone r (exec (emitEnum s.typeName s.schema s.place) r).2 := by
  obtain ⟨ms, ns, hns, hexec⟩ := exec_emitEnum (ε := ε) s.typeName s.schema s.place
  -- the notes taken on the way are of new names of members
  have hnoted : Founded ds gone r (r.noted ns) := by
    refine Founded.noted r fun text opening hm => ?_
    cases hns _ hm
  rw [hexec]
  split
  · exact Founded.refl r
  · next hk =>
    rw [Bool.not_eq_true] at hk
    cases ms with
    | error e => exact hnoted
    | ok ms =>
      let d : Declaration ε :=
        ⟨s.typeName, s.place, s.schema.get "description", some s.schema, .enum ms⟩
      have hdecl : Founded ds gone (r.noted ns) ((r.noted ns).declared d) :=
        Founded.declared hk hs ⟨rfl, rfl, rfl, rfl, .enumString, hc, rfl⟩
      exact hnoted.trans hdecl (grows_declared (d := d) hk rfl)

section

variable (hgrow : AlwaysGrows emit) (hrestore : AlwaysRestores emit)

include hgrow hrestore

/-- Field after field: what is open before the first one is open before all of them. -/
theorem founded_fields {s : Site} (hc : Schema.classify s.schema = .ok .struct)
    {ps : List (String × Json)} (hps : ∀ p ∈ ps, p ∈ (s.schema.get "properties").fields)
    {r : Resolver ε} (hr : r.definitions = ds) (hg : r.Guarded) (hs : gone r.opening s) :
    Founded ds gone r (exec (fields emit s.place s.schema ps) r).2 := by
  induction ps generalizing r with
  | nil => exact Founded.refl r
  | cons p ps ih =>
    have hps' : ∀ q ∈ ps, q ∈ (s.schema.get "properties").fields :=
      fun q hq => hps q (List.mem_cons_of_mem p hq)
    rw [exec_fields_cons]
    split
    · exact ih hps' hr hg hs
    · next hx =>
      rw [Bool.not_eq_true] at hx
      rw [exec_field, emitInner]
      let place := s.place ++ "." ++ Name.fieldName p.1
      have hdot : '.' ∈ place.toList := dot_mem_place s.place (Name.fieldName p.1)
      have hd' : r.definitions.Distinct := hr ▸ hd
      have hfits := fits_property hd' p.2 hdot
      have hfirst := he (Name.ofPath place) (.inline p.2) place r hr hg hfits
        (Or.inr ⟨hroute.property hs hc (hps p List.mem_cons_self) hx,
          fun n hn => not_isDefinition_property hd' hdot hn⟩)
      have hgp := hgrow (Name.ofPath place) (.inline p.2) place r
      have hrp := hrestore (Name.ofPath place) (.inline p.2) place r hd' hg hfits
      rcases hx : exec (emit (Name.ofPath place) (.inline p.2) place) r with ⟨e | t, r'⟩ <;>
        rw [hx] at hfirst hgp hrp
      · exact hfirst
      · have hs' : gone r'.opening s := by rwa [show r'.opening = r.opening from hrp.opening]
        have hrest := ih hps' (hgp.definitions.trans hr) (hg.grows hgp hrp.opening) hs'
        exact hfirst.trans hrest (grows_fields hgrow s.place s.schema ps r')

theorem founded_emitStruct {s : Site} {r : Resolver ε} (hr : r.definitions = ds)
    (hg : r.GuardedBut s.typeName) (hs : gone r.opening s)
    (hc : Schema.classify s.schema = .ok .struct) :
    Founded ds gone r (exec (emitStruct emit s.typeName s.schema s.place) r).2 := by
  rw [exec_emitStruct]
  split
  · exact Founded.refl r
  · next hk =>
    rw [Bool.not_eq_true] at hk
    let c : Declaration ε :=
      ⟨s.typeName, s.place, s.schema.get "description", some s.schema, .struct []⟩
    have hgf := grows_fields hgrow s.place s.schema (s.schema.get "properties").fields
      (r.declared c)
    have hf := founded_fields hroute hd he hgrow hrestore hc (fun _ hp => hp)
      (r := r.declared c) hr (GuardedBut.declared (d := c) hg hk rfl) hs
    rcases hx : exec (fields emit s.place s.schema (s.schema.get "properties").fields)
      (r.declared c) with ⟨e | fs, r'⟩ <;> rw [hx] at hgf hf
    · -- what the head and the fields before the failure brought is taken back
      have hhead : Founded ds gone r (r.declared c) :=
        Founded.declared (d := c) hk hs ⟨rfl, rfl, rfl, rfl, .struct, hc, rfl⟩
      exact (hhead.trans hf hgf).reverted ((grows_declared (d := c) hk rfl).trans hgf)
    · let d : Declaration ε :=
        ⟨s.typeName, s.place, s.schema.get "description", some s.schema, .struct fs⟩
      exact Founded.completed (c := c) (d := d) hk rfl hs
        ⟨rfl, rfl, rfl, rfl, .struct, hc, rfl⟩ hgf hf

/-- The kind is the kind of the schema; only an interface may have left its own name
unguarded. -/
theorem founded_emitKind {s : Site} {kind : Kind} {r : Resolver ε} (hr : r.definitions = ds)
    (hg : r.GuardedBut s.typeName) (hg' : kind.isNamed = false → r.Guarded)
    (hs : gone r.opening s) (hc : Schema.classify s.schema = .ok kind) :
    Founded ds gone r (exec (emitKind emit kind s.typeName s.schema s.place) r).2 := by
  cases kind with
  | ref => exact founded_emitRef hroute he hr (hg' rfl) hs hc
  | union => exact founded_emitUnion hs hc
  | array => exact founded_emitArray hroute he hr (hg' rfl) hs hc
  | enumString => exact founded_emitEnum hs hc
  | map => exact founded_emitMap hroute he hr (hg' rfl) hs hc
  | struct => exact founded_emitStruct hroute hd he hgrow hrestore hr hg hs hc
  | _ => exact Founded.refl r

/-- A definition is gone through while it is open, and then its expression is
remembered. -/
theorem founded_emitDefinition {s : Site} {kind : Kind} {r : Resolver ε}
    (hr : r.definitions = ds) (hg : r.Guarded) (hs : asked r.opening s)
    (hdef : s.isDefinition ds = true) (hc : Schema.classify s.schema = .ok kind)
    (hk : kind.scalar? = none) (hopen : r.opening.contains s.typeName = false) :
    Founded ds gone r (exec (emitDefinition emit kind s.typeName s.schema s.place) r).2 := by
  rw [exec_emitDefinition]
  cases hres : r.resolved.find? s.typeName with
  | some t => exact Founded.refl r
  | none =>
    let o : Opening := ⟨s.place, kind⟩
    have hgone : gone (r.opened s.typeName o).opening s := hroute.enter hs hdef hc hk hopen
    have hf := founded_emitKind hroute hd he hgrow hrestore (r := r.opened s.typeName o) hr
      (hg.openedBut s.typeName o) (fun hn => hg.opened (o := o) hn) hgone hc
    have hgk := grows_emitKind hgrow kind s.typeName s.schema s.place (r.opened s.typeName o)
    have hopened : (exec (emitKind emit kind s.typeName s.schema s.place)
        (r.opened s.typeName o)).2.opening.contains s.typeName = true :=
      (restores_opened hrestore hgrow hc (hr ▸ hd) hg).contains_opened
    have hknown : ∀ t, (exec (emitKind emit kind s.typeName s.schema s.place)
        (r.opened s.typeName o)).1 = .ok t → kind.isNamed = true →
          (exec (emitKind emit kind s.typeName s.schema s.place)
            (r.opened s.typeName o)).2.queue.isKnown s.typeName = true :=
      fun t ht hn => isKnown_emitKind hgrow hn ht
    rcases hx : exec (emitKind emit kind s.typeName s.schema s.place) (r.opened s.typeName o)
      with ⟨e | t, r'⟩ <;> rw [hx] at hf hgk hopened hknown <;> dsimp only at hopened ⊢ <;>
      rw [if_pos hopened]
    · exact hf.closed
    · exact Founded.remembered hgk hopened hres hgone
        ⟨rfl, hdef, kind, hc, hk, hknown t rfl⟩ hf

/-! ### One emission -/

omit hd he hgrow hrestore in
/-- What stands in for `null` is among the sites too. -/
theorem aimed_nodeFor {typeName : String} {node n : Node} {fqn : String} {r : Resolver ε}
    (hr : r.definitions = ds) (haim : Aimed asked gone r typeName node fqn)
    (hn : r.nodeFor typeName node = .ok n) :
    asked r.opening ⟨typeName, n, Definitions.withoutStart fqn⟩ ∨
      gone r.opening ⟨typeName, n, Definitions.withoutStart fqn⟩ ∧
        r.isDefinition typeName n (Definitions.withoutStart fqn) = false := by
  rcases of_nodeFor hn with rfl | ⟨hnull, rfl⟩
  · exact haim.imp_right fun h => ⟨h.1, h.2 _ hn⟩
  · rw [hr] at hn ⊢
    rcases haim with h | ⟨h, hdef⟩
    · exact Or.inl (hroute.askedLookUp h hnull)
    · exact Or.inr ⟨hroute.lookUp h hnull, hdef _ hn⟩

theorem alwaysFounded_emitStep : AlwaysFounded ds asked gone (emitStep emit) := by
  intro typeName node fqn r hr hg hfits haim
  rw [exec_emitStep]
  cases hn : r.nodeFor typeName node with
  | error e => exact Founded.refl r
  | ok n =>
    dsimp only
    cases ha : r.admission typeName n (Definitions.withoutStart fqn) with
    | error e => exact Founded.refl r
    | ok kind =>
      dsimp only
      have hc := classify_of_admission ha
      let s : Site := ⟨typeName, n, Definitions.withoutStart fqn⟩
      cases hk : kind.scalar? with
      | some scalar =>
        -- the only note here is that of a schema without a type
        refine Founded.noted r fun text opening hm => ?_
        split at hm
        · cases List.mem_singleton.mp hm
        · exact absurd hm List.not_mem_nil
      | none =>
        dsimp only
        have hsite := aimed_nodeFor hroute hr haim hn
        have hsame : s.isDefinition ds =
            r.isDefinition typeName n (Definitions.withoutStart fqn) := by
          rw [← hr]
          rfl
        by_cases hdef : r.isDefinition typeName n (Definitions.withoutStart fqn) = true
        · rw [if_pos hdef]
          have hs : asked r.opening s :=
            hsite.resolve_right fun h => Bool.false_ne_true (h.2.symm.trans hdef)
          exact founded_emitDefinition hroute hd he hgrow hrestore (s := s) hr hg hs
            (hsame.trans hdef) hc hk (hfits n hn hdef)
        · rw [if_neg hdef]
          rw [Bool.not_eq_true] at hdef
          have hs : gone r.opening s :=
            hsite.elim (fun h => hroute.stay h (hsame.trans hdef)) And.left
          exact founded_emitKind hroute hd he hgrow hrestore (s := s) hr (hg.but typeName)
            (fun _ => hg) hs hc

end

omit he in
theorem alwaysFounded_emitWith (n : Nat) :
    AlwaysFounded ds asked gone (emitWith n : Emitting ε) := by
  induction n with
  | zero => exact fun _ _ _ r _ _ _ _ => Founded.refl r
  | succ n ih =>
    exact alwaysFounded_emitStep hroute hd ih (grows_emitWith n) (alwaysRestores_emitWith n)

omit he in
/-- **What an emission adds comes from the sites that it goes through.** -/
theorem founded_emit {r : Resolver ε} (hr : r.definitions = ds) (ho : r.opening = .empty)
    {typeName : String} {node : Node} {fqn : Option String}
    (haim : Aimed asked gone r typeName node (fqn.getD typeName)) :
    Founded ds gone r (exec (Resolver.emit typeName node fqn) r).2 := by
  rw [exec_emit]
  exact alwaysFounded_emitWith hroute hd _ _ _ _ r hr (guarded_of_empty ho)
    (fits_of_empty ho _ _ _) haim

end

/-! ### Settling -/

theorem settles_emitDefinition {emit : Emitting ε} (hgrow : AlwaysGrows emit) {kind : Kind}
    (hk : kind.isNamed = true) {typeName : String} {schema : Json} {fqn : String}
    {r : Resolver ε} {t : TypeExpr}
    (h : (exec (emitDefinition emit kind typeName schema fqn) r).1 = .ok t) :
    (exec (emitDefinition emit kind typeName schema fqn) r).2.queue.isKnown typeName = true ∨
      (exec (emitDefinition emit kind typeName schema fqn) r).2.resolved.contains typeName =
        true := by
  rw [exec_emitDefinition] at h ⊢
  cases hres : r.resolved.find? typeName with
  | some t' => exact Or.inr (by rw [Table.contains, hres]; rfl)
  | none =>
    rw [hres] at h
    have hknown : ∀ t, (exec (emitKind emit kind typeName schema fqn)
        (r.opened typeName ⟨fqn, kind⟩)).1 = .ok t →
          (exec (emitKind emit kind typeName schema fqn)
            (r.opened typeName ⟨fqn, kind⟩)).2.queue.isKnown typeName = true :=
      fun t ht => isKnown_emitKind hgrow hk ht
    rcases hx : exec (emitKind emit kind typeName schema fqn) (r.opened typeName ⟨fqn, kind⟩)
      with ⟨e | t', r'⟩ <;> rw [hx] at hknown <;> simp only [hx] at h ⊢ <;> split at h
    · cases h
    · cases h
    · next hopen =>
      rw [if_pos hopen]
      exact Or.inl (hknown t' rfl)
    · cases h

/-- What is to be declared is emitted as the definition of its place or as it stands there, if
its emission succeeds. -/
theorem exec_emit_of_isNamed {typeName : String} {node : Node} {fqn : Option String}
    {kind : Kind} (hc : Schema.classify node.schema = .ok kind) (hk : kind.isNamed = true)
    {r : Resolver ε} {t : TypeExpr} (h : (exec (emit typeName node fqn) r).1 = .ok t) :
    exec (emit typeName node fqn) r =
      if r.isDefinition typeName node (Definitions.withoutStart (fqn.getD typeName)) then
        exec (emitDefinition emitAt kind typeName node.schema
          (Definitions.withoutStart (fqn.getD typeName))) r
      else exec (emitKind emitAt kind typeName node.schema
        (Definitions.withoutStart (fqn.getD typeName))) r := by
  rw [exec_emit_eq_step, exec_emitStep, nodeFor_of_not_isNull r (isNull_of_isNamed hc hk)] at h ⊢
  dsimp only at h ⊢
  cases ha : r.admission typeName node (Definitions.withoutStart (fqn.getD typeName)) with
  | error e =>
    rw [ha] at h
    cases h
  | ok kind' =>
    have hkind : kind' = kind := Except.ok.inj ((classify_of_admission ha).symm.trans hc)
    subst hkind
    simp only [scalar?_of_isNamed hk]

/-- **What is to be declared is known, or its name is remembered.** -/
theorem settles_emit {typeName : String} {node : Node} {fqn : Option String} {kind : Kind}
    (hc : Schema.classify node.schema = .ok kind) (hk : kind.isNamed = true) {r : Resolver ε}
    {t : TypeExpr} (h : (exec (emit typeName node fqn) r).1 = .ok t) :
    (exec (emit typeName node fqn) r).2.queue.isKnown typeName = true ∨
      (exec (emit typeName node fqn) r).2.resolved.contains typeName = true := by
  have hexec := exec_emit_of_isNamed hc hk h
  rw [hexec] at h ⊢
  split at h
  · next hdef =>
    rw [if_pos hdef]
    exact settles_emitDefinition grows_emitAt hk h
  · next hdef =>
    rw [if_neg hdef]
    exact Or.inl (isKnown_emitKind grows_emitAt hk h)

/-- What is to be declared is known, if it is not the definition of its place. -/
theorem isKnown_emit {typeName : String} {node : Node} {fqn : Option String} {kind : Kind}
    (hc : Schema.classify node.schema = .ok kind) (hk : kind.isNamed = true) {r : Resolver ε}
    (hdef : r.isDefinition typeName node
      (Definitions.withoutStart (fqn.getD typeName)) = false)
    {t : TypeExpr} (h : (exec (emit typeName node fqn) r).1 = .ok t) :
    (exec (emit typeName node fqn) r).2.queue.isKnown typeName = true := by
  have hexec := exec_emit_of_isNamed hc hk h
  rw [hdef, if_neg Bool.false_ne_true] at hexec
  rw [hexec] at h ⊢
  exact isKnown_emitKind grows_emitAt hk h

end Resolver
end SchemaScript
