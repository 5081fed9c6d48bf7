import Mathlib.Data.List.Chain
import Mathlib.Logic.Relation
import SchemaScript.Proofs.Emission.Origins
import SchemaScript.Proofs.FailedEmissions

/-!
# References back into open definitions

A reference back into an open definition is answered by `any` if that one is a reference, an
array or a map.  The open definitions lead to each other, so there is a cycle of references
indeed.  But an interface can lie on it, if it was not the one that the cycle was entered
at; and the open definition need not be the one referred to, only one of the same type name.

## Main definitions

* `Definitions.IsTrail` — open definitions, each leading to the next.
* `Resolver.openFrom` — what was opened since the definition of a type name.
* `Resolver.isUnnamedCycle` — the definition itself is open, and it leads back to itself
  through definitions without declarations.
* `Resolver.IsStopped` — what is open when a reference is answered as recursive.

## Main results

* `isRoute_trail` — while definitions are emitted, the open ones are a trail.
* `recursiveReference_isStopped` — the notes of recursive references.
-/

namespace SchemaScript

/-- The kinds of which the expressions are those of other schemas, put together. -/
def Kind.leadsOn : Kind → Bool
  | ref | array | map => true
  | _ => false

/-- What is neither declared nor a scalar leads on. -/
theorem Kind.leadsOn_eq_not_isNamed {kind : Kind} (h : kind.scalar? = none) :
    kind.leadsOn = !kind.isNamed := by
  cases kind <;> first | rfl | cases h

/-! ### Trails -/

namespace Definitions

/-- The entry stands for a definition that is emitted, under its type name. -/
structure IsOpening (ds : Definitions) (e : String × Opening) : Prop where
  typeName : e.1 = Name.ofDefinition e.2.path
  defined : e.2.path ∈ ds.names
  kind : Schema.classify (ds.get e.2.path) = .ok e.2.kind
  scalar : e.2.kind.scalar? = none

/-- The entries stand for definitions, each one leading to the next. -/
structure IsTrail (ds : Definitions) (opening : List (String × Opening)) : Prop where
  entry : ∀ e ∈ opening, ds.IsOpening e
  chain : (opening.map (·.2.path)).IsChain ds.Leads

theorem isTrail_nil (ds : Definitions) : ds.IsTrail [] where
  entry := fun _ h => absurd h List.not_mem_nil
  chain := .nil

/-- A definition that the last one leads to goes on with the trail. -/
theorem IsTrail.concat {ds : Definitions} {opening : List (String × Opening)}
    (h : ds.IsTrail opening) {e : String × Opening} (he : ds.IsOpening e)
    (hlast : ∀ l ∈ opening.getLast?, ds.Leads l.2.path e.2.path) :
    ds.IsTrail (opening ++ [e]) where
  entry := fun e' hm => (List.mem_append.mp hm).elim (h.entry e') fun hm =>
    List.mem_singleton.mp hm ▸ he
  chain := by
    rw [List.map_append, List.isChain_append]
    refine ⟨h.chain, .singleton _, fun x hx y hy => ?_⟩
    rw [List.getLast?_map, Option.mem_def, Option.map_eq_some_iff] at hx
    obtain ⟨l, hl, rfl⟩ := hx
    cases hy
    exact hlast l hl

end Definitions

namespace Resolver

open Stateful

variable {ε : Type} {ds : Definitions}

/-! ### The route of references -/

/-- The site asked for is a definition that the last open one leads to; without open
definitions it is any schema at hand. -/
structure Asks (ds : Definitions) (o : Table Opening) (s : Site) : Prop where
  trail : ds.IsTrail o.entries
  site : (o.entries = [] ∧ ds.Presents s.node) ∨ ∃ path, s = .definition ds path path ∧
    (ds.node path).schema.isNull = false ∧ ∀ e ∈ o.entries.getLast?, ds.Leads e.2.path path

/-- The site gone through stands within the last open definition. -/
structure Goes (ds : Definitions) (o : Table Opening) (s : Site) : Prop where
  trail : ds.IsTrail o.entries
  within : ∀ e ∈ o.entries.getLast?, Site.Within ds (.definition ds e.2.path e.2.path) s

/-- A definition asked for is the one of its place. -/
theorem Asks.eq_definition {o : Table Opening} {s : Site} (h : Asks ds o s)
    (hdef : s.isDefinition ds = true) :
    s = .definition ds s.place s.place ∧ ∀ e ∈ o.entries.getLast?, ds.Leads e.2.path s.place := by
  rcases h.site with ⟨ho, hnode⟩ | ⟨path, rfl, -, hlast⟩
  · refine ⟨Definitions.eq_definition hnode hdef, fun e he => ?_⟩
    rw [ho] at he
    cases he
  · exact ⟨rfl, hlast⟩

/-- Opening a definition asked for makes a longer trail that ends with it. -/
theorem Asks.goes {o : Table Opening} {s : Site} (h : Asks ds o s)
    (hdef : s.isDefinition ds = true) {kind : Kind} (hc : Schema.classify s.schema = .ok kind)
    (hk : kind.scalar? = none) (hopen : o.contains s.typeName = false) :
    Goes ds (o.insert s.typeName ⟨s.place, kind⟩) s := by
  obtain ⟨hs, hlast⟩ := h.eq_definition hdef
  have hentries : (o.insert s.typeName ⟨s.place, kind⟩).entries =
      o.entries ++ [(s.typeName, ⟨s.place, kind⟩)] :=
    Table.insert_of_notMem _ (Table.contains_eq_false_iff.mp hopen)
  have hopening : ds.IsOpening (s.typeName, ⟨s.place, kind⟩) := by
    rw [Site.isDefinition, Bool.and_eq_true, beq_iff_eq] at hdef
    exact ⟨hdef.2.symm, Definitions.mem_names_of_holds hdef.1, by rwa [hs] at hc, hk⟩
  constructor
  · rw [hentries]
    exact h.trail.concat hopening hlast
  · intro e he
    rw [hentries, List.getLast?_concat] at he
    cases he
    rw [← hs]
    exact .self

/-- **While definitions are emitted, the open ones are a trail**, and what is gone through
stands within the last of them. -/
theorem isRoute_trail (hd : ds.Distinct) : IsRoute ds (Asks ds) (Goes ds) where
  askedLookUp := by
    rintro o s ⟨htrail, hsite⟩ hnull
    rcases hsite with ⟨ho, -⟩ | ⟨path, rfl, hn, -⟩
    · exact ⟨htrail, Or.inl ⟨ho, Definitions.presents_node hd _⟩⟩
    · exact absurd hnull (Bool.eq_false_iff.mp hn)
  stay := by
    rintro o s ⟨htrail, hsite⟩ hdef
    rcases hsite with ⟨ho, -⟩ | ⟨path, rfl, hn, -⟩
    · refine ⟨htrail, fun e he => ?_⟩
      rw [ho] at he
      cases he
    · rw [Definitions.isDefinition_definition hn] at hdef
      cases hdef
  enter := fun h hdef hc hk hopen => h.goes hdef hc hk hopen
  lookUp := fun h hnull => ⟨h.trail, fun e he => (h.within e he).lookUp hnull⟩
  items := fun h hc => ⟨h.trail, fun e he => (h.within e he).items hc⟩
  values := fun h hc => ⟨h.trail, fun e he => (h.within e he).values hc⟩
  property := fun h hc hp hx => ⟨h.trail, fun e he => (h.within e he).property hc hp hx⟩
  follow := fun h href _ hnull =>
    ⟨h.trail, Or.inr ⟨_, rfl, hnull, fun e he => ⟨_, h.within e he, href⟩⟩⟩

/-! ### References that are stopped -/

/-- What was opened since the definition of a type name, that one included. -/
def openFrom (name : String) (opening : List (String × Opening)) : List (String × Opening) :=
  opening.dropWhile (·.1 != name)

theorem openFrom_suffix (name : String) (opening : List (String × Opening)) :
    openFrom name opening <:+ opening :=
  List.dropWhile_suffix _

/-- The definition itself is open, and all definitions opened since, itself included, are
references, arrays and maps. -/
def isUnnamedCycle (path : String) (opening : List (String × Opening)) : Bool :=
  let since := openFrom (Name.ofDefinition path) opening
  since.head?.any (·.2.path == path) && since.all (·.2.kind.leadsOn)

/-- What is open when a reference to the path is answered as recursive: a trail, with a
definition `owner` of the type name of the path on it, and the definitions behind it lead
to the path. -/
structure IsStopped (ds : Definitions) (path owner : String) (kind : Kind)
    (post opening : List (String × Opening)) : Prop where
  trail : ds.IsTrail opening
  since : openFrom (Name.ofDefinition path) opening =
    (Name.ofDefinition path, ⟨owner, kind⟩) :: post
  typeName : Name.ofDefinition owner = Name.ofDefinition path
  kind : kind.leadsOn = true
  leads : (owner :: post.map (·.2.path) ++ [path]).IsChain ds.Leads

/-- What is found under a name is what the part from the name begins with. -/
theorem exists_openFrom {name : String} {p : Opening} {es : List (String × Opening)}
    (h : Entries.find? name es = some p) : ∃ post, openFrom name es = (name, p) :: post := by
  induction es with
  | nil => cases h
  | cons e es ih =>
    obtain ⟨k, q⟩ := e
    rw [Entries.find?] at h
    by_cases hk : k = name
    · rw [if_pos hk, Option.some.injEq] at h
      exact ⟨es, by simp [openFrom, hk, h]⟩
    · rw [if_neg hk] at h
      obtain ⟨post, hpost⟩ := ih h
      exact ⟨post, by rw [← hpost, openFrom, List.dropWhile_cons_of_pos (by simpa using hk)]; rfl⟩

/-- **A reference is stopped only by a trail that comes back to its type name.** -/
theorem isStopped_of_reports {o : Table Opening} {s : Site} (hs : Goes ds o s) {path : String}
    (href : s.RefersTo path) {p : Opening} (hp : o.find? (Name.ofDefinition path) = some p)
    (hk : p.kind.isNamed = false) :
    ∃ post, IsStopped ds path p.path p.kind post o.entries := by
  obtain ⟨post, hpost⟩ := exists_openFrom hp
  obtain ⟨pre, hpre⟩ := openFrom_suffix (Name.ofDefinition path) o.entries
  rw [hpost] at hpre
  have hentry := hs.trail.entry (Name.ofDefinition path, p)
    (hpre ▸ List.mem_append_right _ List.mem_cons_self)
  refine ⟨post, hs.trail, hpost, hentry.typeName.symm, ?_, ?_⟩
  · rw [Kind.leadsOn_eq_not_isNamed hentry.scalar, hk]
    rfl
  · -- the last open definition is the last one of the part, and it refers to the path
    have hchain := hs.trail.chain
    rw [← hpre, List.map_append] at hchain
    refine List.isChain_append.mpr ⟨hchain.right_of_append, .singleton _, fun x hx y hy => ?_⟩
    cases hy
    have hx' : x ∈ (((Name.ofDefinition path, p) :: post).map (·.2.path)).getLast? := hx
    rw [List.getLast?_map, Option.mem_def, Option.map_eq_some_iff] at hx'
    obtain ⟨e, he, rfl⟩ := hx'
    have hlast : e ∈ o.entries.getLast? := by
      rw [← hpre]
      exact List.mem_getLast?_append_of_mem_getLast? he
    exact ⟨s, hs.within e hlast, href⟩

namespace IsStopped

variable {path owner : String} {kind : Kind} {post opening : List (String × Opening)}

/-- The owner and what was opened behind it stand on the trail. -/
theorem isOpening (h : IsStopped ds path owner kind post opening) {e : String × Opening}
    (he : e ∈ (Name.ofDefinition path, ⟨owner, kind⟩) :: post) : ds.IsOpening e :=
  h.trail.entry e ((openFrom_suffix _ opening).subset (h.since ▸ he))

/-- The cycle is one without declarations if the owner is the path itself and what was
opened behind it has no declarations. -/
theorem isUnnamedCycle_iff (h : IsStopped ds path owner kind post opening) :
    isUnnamedCycle path opening = true ↔ owner = path ∧ ∀ e ∈ post, e.2.kind.isNamed = false := by
  have hpost : post.all (·.2.kind.leadsOn) = true ↔ ∀ e ∈ post, e.2.kind.isNamed = false := by
    rw [List.all_eq_true]
    refine forall₂_congr fun e he => ?_
    rw [Kind.leadsOn_eq_not_isNamed (h.isOpening (List.mem_cons_of_mem _ he)).scalar,
      Bool.not_eq_true']
  rw [← hpost, isUnnamedCycle, h.since]
  simp [h.kind]

/-- The owner leads to what was opened behind it, and that leads to the path. -/
theorem transGen (h : IsStopped ds path owner kind post opening) {e : String × Opening}
    (he : e ∈ post) : Relation.TransGen ds.Leads owner e.2.path ∧
      Relation.TransGen ds.Leads e.2.path path := by
  have hpairs : (owner :: post.map (·.2.path) ++ [path]).Pairwise
      (Relation.TransGen ds.Leads) :=
    List.isChain_iff_pairwise.mp (h.leads.imp fun _ _ => .single)
  have hmem : e.2.path ∈ post.map (·.2.path) := List.mem_map_of_mem he
  obtain ⟨hbefore, -, hlast⟩ := List.pairwise_append.mp hpairs
  exact ⟨List.rel_of_pairwise_cons hbefore hmem,
    hlast _ (List.mem_cons_of_mem _ hmem) _ (List.mem_singleton.mpr rfl)⟩

/-- If no other definition has the type name, and no definition on a cycle through the path
is declared, then the cycle is one without declarations. -/
theorem isUnnamedCycle (h : IsStopped ds path owner kind post opening)
    (hunique : ∀ other ∈ ds.names, Name.ofDefinition other = Name.ofDefinition path →
      other = path)
    (hcycle : ∀ other, Relation.TransGen ds.Leads path other →
      Relation.TransGen ds.Leads other path → ∀ kind, Schema.classify (ds.get other) = .ok kind →
        kind.isNamed = false) : Resolver.isUnnamedCycle path opening = true := by
  have howner : owner = path := hunique owner (h.isOpening List.mem_cons_self).defined h.typeName
  refine h.isUnnamedCycle_iff.mpr ⟨howner, fun e he => ?_⟩
  obtain ⟨hto, hback⟩ := h.transGen he
  exact hcycle e.2.path (howner ▸ hto) hback e.2.kind
    (h.isOpening (List.mem_cons_of_mem _ he)).kind

end IsStopped

/-! ### Notes -/

/-- **Recursive references.**  After any history, an emission notes a reference as recursive
only if a definition of its type name, without a declaration, is open and leads back to it
through the definitions opened since.  That is a cycle without declarations exactly if the
definition is the one referred to and none of those opened since is declared; and this is
so if no other definition has its type name and no cycle through it has a declaration. -/
theorem recursiveReference_isStopped (es : List Exclusion) (ds : Definitions)
    (ops : List (Operation ε)) (typeName : String) (node : Node) (fqn : Option String)
    (hd : (operateAll ops (fresh es ds)).2.definitions.Distinct)
    (hnode : (operateAll ops (fresh es ds)).2.definitions.Presents node) :
    let before := (operateAll ops (fresh es ds)).2
    let after := (exec (emit typeName node fqn) before).2
    ∃ ns, after.notes = before.notes ++ ns ∧
      ∀ text opening, .recursiveReference text opening ∈ ns →
        ∃ path owner kind post, text = Definitions.refTo path ∧
          IsStopped before.definitions path owner kind post opening ∧
          (isUnnamedCycle path opening = true ↔
            owner = path ∧ ∀ e ∈ post, e.2.kind.isNamed = false) ∧
          ((∀ other ∈ before.definitions.names,
              Name.ofDefinition other = Name.ofDefinition path → other = path) →
            (∀ other, Relation.TransGen before.definitions.Leads path other →
              Relation.TransGen before.definitions.Leads other path →
                ∀ kind, Schema.classify (before.definitions.get other) = .ok kind →
                  kind.isNamed = false) →
            isUnnamedCycle path opening = true) := by
  intro before after
  have hs : before.IsSettled := isSettled_operateAll ops (isSettled_fresh es ds)
  have hasked : Asks before.definitions before.opening
      ⟨typeName, node, Definitions.withoutStart (fqn.getD typeName)⟩ := by
    rw [hs.opening]
    exact ⟨Definitions.isTrail_nil _, Or.inl ⟨rfl, hnode⟩⟩
  have hf : Founded before.definitions (Goes before.definitions) before after :=
    founded_emit (isRoute_trail hd) hd rfl hs.opening (Or.inl hasked)
  obtain ⟨ns, hns, hnotes⟩ := hf.notes
  refine ⟨ns, hns, fun text opening hm => ?_⟩
  obtain ⟨o, s, hgoes, rfl, path, href, htext, p, hp, hk⟩ := hnotes text opening hm
  obtain ⟨post, hstop⟩ := isStopped_of_reports hgoes href hp hk
  exact ⟨path, p.path, p.kind, post, htext, hstop, hstop.isUnnamedCycle_iff,
    hstop.isUnnamedCycle⟩

/-- A map of lists of itself. -/
def mapOfLists : Definitions :=
  Definitions.empty.defineAll
    [("a.M", .obj [("additionalProperties", .obj [("$ref", .str "#/definitions/a.N")])]),
      ("a.N", .obj [("type", .str "array"), ("items", .obj [("$ref", .str "#/definitions/a.M")])])]

theorem eq_of_mem_mapOfLists {name : String} (h : name ∈ mapOfLists.names) :
    name = "a.M" ∨ name = "a.N" := by
  simpa using (show name ∈ ["a.M", "a.N"] from h)

theorem isNamed_mapOfLists {name : String} {kind : Kind}
    (h : Schema.classify (mapOfLists.get name) = .ok kind) : kind.isNamed = false := by
  by_cases hm : name ∈ mapOfLists.names
  · rcases eq_of_mem_mapOfLists hm with rfl | rfl
    · cases h
      rfl
    · cases h
      rfl
  · -- what is not defined has no type at all
    have hnone : mapOfLists.get name = .null := by
      rw [Definitions.get, Definitions.node, Table.find?_eq_none_iff.mpr hm]
      rfl
    rw [hnone] at h
    cases h
    rfl

/-- The map leads back to itself through the lists, which have no declaration. -/
theorem recursiveReference_isStopped_mapOfLists :
    let before : Resolver Empty := (operateAll [] (fresh [] mapOfLists)).2
    let after := (exec (emit "M" (mapOfLists.node "a.M") (some "a.M")) before).2
    let opening : List (String × Opening) := [("M", ⟨"a.M", .map⟩), ("N", ⟨"a.N", .array⟩)]
    after.notes = [.recursiveReference "#/definitions/a.M" opening] ∧
      isUnnamedCycle "a.M" opening = true := by
  intro before after opening
  have hd : before.definitions.Distinct :=
    (Definitions.isStamped_defineAll Definitions.isStamped_empty _).distinct
  have hnotes : after.notes = [.recursiveReference "#/definitions/a.M" opening] := by
    decide +kernel
  obtain ⟨ns, hns, hall⟩ := recursiveReference_isStopped [] mapOfLists [] "M"
    (mapOfLists.node "a.M") (some "a.M") hd (Definitions.presents_node hd "a.M")
  have hsame : ns = [.recursiveReference "#/definitions/a.M" opening] := hns.symm.trans hnotes
  obtain ⟨path, owner, kind, post, htext, -, -, hcycle⟩ :=
    hall "#/definitions/a.M" opening (hsame ▸ List.mem_singleton.mpr rfl)
  have hpath : path = "a.M" := by
    have h := Definitions.path?_refTo path
    rw [← htext] at h
    exact Option.some.inj (h.symm.trans (by decide +kernel))
  rw [← hpath]
  refine ⟨hnotes, hcycle (fun other hm htype => ?_) fun other _ _ kind hc =>
    isNamed_mapOfLists hc⟩
  rcases eq_of_mem_mapOfLists hm with rfl | rfl
  · exact hpath.symm
  · rw [hpath] at htype
    exact absurd htype (by decide +kernel)

/-- A map of interfaces that have a field of the type of the map. -/
def mapOfInterfaces : Definitions :=
  Definitions.empty.defineAll
    [("L", .obj [("additionalProperties", .obj [("$ref", .str "#/definitions/S")])]),
      ("S", .obj [("properties", .obj [("x", .obj [("$ref", .str "#/definitions/L")])])])]

/-- A reference to an interface of the same type name. -/
def referenceToNamesake : Definitions :=
  Definitions.empty.defineAll
    [("a.Foo", .obj [("$ref", .str "#/definitions/b.Foo")]),
      ("b.Foo", .obj [("properties", .obj [])])]

/-- Cycles that are none without a declaration: from the map on, an interface lies on the
way back to it; and of two definitions of one type name, not the one referred to is open. -/
theorem recursiveReference_not_isUnnamedCycle :
    (let opening : List (String × Opening) := [("L", ⟨"L", .map⟩), ("S", ⟨"S", .struct⟩)]
     .recursiveReference "#/definitions/L" opening ∈
        (exec (emitNamed "L") (fresh [] mapOfInterfaces : Resolver Empty)).2.notes ∧
      isUnnamedCycle "L" opening = false) ∧
    (let opening : List (String × Opening) := [("Foo", ⟨"a.Foo", .ref⟩)]
     .recursiveReference "#/definitions/b.Foo" opening ∈
        (exec (emitNamed "a.Foo") (fresh [] referenceToNamesake : Resolver Empty)).2.notes ∧
      isUnnamedCycle "b.Foo" opening = false) := by
  refine ⟨⟨?_, ?_⟩, ?_, ?_⟩ <;> decide +kernel

end Resolver
end SchemaScript
