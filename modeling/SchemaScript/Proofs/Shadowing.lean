import SchemaScript.Proofs.Documents
import SchemaScript.Proofs.Emission.Origins

/-!
# Which definitions are declared

A definition is declared under its type name, which keeps only the last part of its name,
and an expression is remembered under the type name too.  So the name can be taken when the
definition comes to be emitted: by the declaration of another definition or of a schema
written inside one, or by the expression of a definition that has no declaration.  Then the
definition is passed over.  Without a rival for its type name, it is declared.

## Main definitions

* `Settings.SelectsAll` — nothing is excluded, renamed or picked out.
* `Definitions.IsOwn` — the sites of a definition itself.
* `Document.Fate` — what becomes of a definition: declared, shadowed or forgotten.

## Main results

* `Document.fate_of_generate` — the declarations of a text, and the fates of definitions.
-/

namespace SchemaScript

open Stateful

/-- All definitions are generated, under their own names. -/
structure Settings.SelectsAll (s : Settings) : Prop where
  exclude : s.exclude.truthy = false
  aliases : s.aliases = .obj []
  emitTypes : s.emitTypes.truthy = false

theorem Settings.selectsAll_usual : usual.SelectsAll := ⟨rfl, rfl, rfl⟩

/-! ### Sites within definitions -/

namespace Definitions

variable {ds : Definitions}

/-- The site is the definition itself, emitted by its name or referred to. -/
def IsOwn (ds : Definitions) (name : String) (s : Site) : Prop :=
  ∃ place, (place = name ∨ place = withoutStart name) ∧ s = .definition ds name place

/-- Schemas within definitions are written out or definitions themselves. -/
theorem Stands.presents (hd : ds.Distinct) {s : Site} (h : ds.Stands s) :
    ds.Presents s.node := by
  obtain ⟨path, place, -, -, hw⟩ := h
  cases hw with
  | self => exact presents_node hd path
  | lookUp _ _ => exact presents_node hd _
  | items _ _ => exact presents_inline _
  | values _ _ => exact presents_inline _
  | property _ _ _ _ => exact presents_inline _

/-- The ways down from sites within definitions stay there, and references lead there. -/
theorem isRoute_stands (ds : Definitions) :
    Resolver.IsRoute ds (fun _ => ds.Stands) (fun _ => ds.Stands) where
  askedLookUp := Stands.lookUp
  stay := fun h _ => h
  enter := fun h _ _ _ _ => h
  lookUp := Stands.lookUp
  items := Stands.items
  values := Stands.values
  property := Stands.property
  follow := fun _ _ hm _ => stands_definition hm

end Definitions

/-! ### Emitting all definitions -/

namespace Resolver

variable {ε : Type} {ds : Definitions}

/-- If the definition is to be declared, its type name is known or remembered. -/
def Settles (ds : Definitions) (r : Resolver ε) (name : String) : Prop :=
  ∀ kind, Schema.classify (ds.get name) = .ok kind → kind.isNamed = true →
    r.queue.isKnown (Name.ofDefinition name) = true ∨
      r.resolved.contains (Name.ofDefinition name) = true

theorem Settles.grows {r r' : Resolver ε} {name : String} (h : Settles ds r name)
    (hg : Grows r r') : Settles ds r' name := fun kind hc hk =>
  (h kind hc hk).imp hg.isKnown (Table.contains_of_prefix hg.resolved)

/-- What the emission of a definition brings stands within definitions. -/
theorem founded_emitNamed (hd : ds.Distinct) {name : String} (hm : name ∈ ds.names)
    {r : Resolver ε} (hr : r.definitions = ds) (ho : r.opening = .empty) :
    Founded ds (fun _ => ds.Stands) r (exec (emitNamed name) r).2 := by
  rw [exec_emitNamed, hr]
  exact founded_emit ds.isRoute_stands hd hr ho
    (Or.inl ⟨name, Definitions.withoutStart name, hm, Or.inr rfl, .self⟩)

end Resolver

namespace Document

open Resolver

section

variable {ε : Type} {ds : Definitions}

/-- Definitions are emitted one after the other; each of them settles its name. -/
theorem emitAll_eq_ok (hd : ds.Distinct) {names : List String}
    (hnames : ∀ name ∈ names, name ∈ ds.names) {r r' : Resolver ε} (hr : r.definitions = ds)
    (ho : r.opening = .empty) (h : exec (emitAll (names.map .str)) r = (.ok (), r')) :
    Grows r r' ∧ Founded ds (fun _ => ds.Stands) r r' ∧ ∀ name ∈ names, Settles ds r' name := by
  induction names generalizing r with
  | nil =>
    cases h
    exact ⟨Grows.refl _, Founded.refl _, fun _ hn => absurd hn List.not_mem_nil⟩
  | cons name names ih =>
    let r₁ : Resolver ε := r.noted [.emitting name (Name.ofDefinition name)]
    obtain ⟨t, r₂, h₂, hrest⟩ := exec_emitAll_cons_eq_ok h
    have hnote : Founded ds (fun _ => ds.Stands) r r₁ := by
      refine Founded.noted r fun text opening hm => ?_
      cases List.mem_singleton.mp hm
    have hgn : Grows r r₁ := Grows.noted r _
    -- the definition itself
    have hf := founded_emitNamed hd (hnames name List.mem_cons_self) (r := r₁) hr ho
    have hg : Grows r₁ (exec (emitNamed name) r₁).2 := by
      rw [exec_emitNamed]
      exact grows_emit _ _ _ r₁
    have hsettles : Settles ds (exec (emitNamed name) r₁).2 name := by
      intro kind hc hk
      have hok : (exec (emitNamed name) r₁).1 = .ok t := congrArg Prod.fst h₂
      rw [exec_emitNamed] at hok ⊢
      exact settles_emit (show Schema.classify (r₁.definitions.node name).schema = .ok kind from
        hr ▸ hc) hk hok
    rw [show exec (emitNamed name) r₁ = (.ok t, r₂) from h₂] at hf hg hsettles
    -- and the ones behind it
    obtain ⟨hgs, hfs, hall⟩ := ih (fun n hn => hnames n (List.mem_cons_of_mem name hn))
      (hg.definitions.trans hr) (hg.opening_eq_empty ho) hrest
    refine ⟨(hgn.trans hg).trans hgs, (hnote.trans hf hg).trans hfs hgs, fun n hn => ?_⟩
    rcases List.mem_cons.mp hn with rfl | hn
    · exact hsettles.grows hgs
    · exact hall n hn

/-- Without exclusions all definitions are requested. -/
theorem requests_eq_names {r : Resolver ε} (hx : r.exclusions = []) {emitTypes : Json}
    (he : emitTypes.truthy = false) :
    requests r emitTypes = .ok (r.definitions.names.map .str) := by
  have hall : (r.definitions.names.filter fun name => !r.isExcluded name) =
      r.definitions.names := by
    refine List.filter_eq_self.mpr fun name _ => ?_
    rw [isExcluded, exclusionOf, hx]
    rfl
  rw [requests, he, hall]
  rfl

/-- Emitting what is asked for is emitting all definitions. -/
theorem exec_emitRequests_of_selectsAll {s : Settings} (hs : s.SelectsAll) {r : Resolver ε}
    (hx : r.exclusions = []) :
    exec (emitRequests s) r = exec (emitAll (r.definitions.names.map .str)) r := by
  unfold emitRequests
  rw [hs.aliases]
  dsimp only [enterAliases]
  rw [exec_bind_ok (exec_pure () r), exec_bind_ok (exec_get r),
    requests_eq_names hx hs.emitTypes]
  rfl

end

/-! ### Fates -/

/-- What becomes of a definition that is to be declared. -/
inductive Fate (ds : Definitions) (decls : List (Declaration Empty)) (name : String) : Prop
  /-- It is declared. -/
  | declared (d : Declaration Empty) (hd : d ∈ decls) (s : Site) (hs : ds.IsOwn name s)
    (h : Declares s (d.name, d))
  /-- Another schema within the definitions is declared under its type name. -/
  | shadowed (d : Declaration Empty) (hd : d ∈ decls) (s : Site) (hs : ds.Stands s)
    (hne : ¬ ds.IsOwn name s) (htype : s.typeName = Name.ofDefinition name)
    (h : Declares s (d.name, d))
  /-- Nothing is declared under its type name, for the expression of another definition,
  one without a declaration, was remembered under it. -/
  | forgotten (hd : ∀ d ∈ decls, d.name ≠ Name.ofDefinition name) (other : String)
    (hmem : other ∈ ds.names) (hne : other ≠ name)
    (htype : Name.ofDefinition other = Name.ofDefinition name) (kind : Kind)
    (hc : Schema.classify (ds.get other) = .ok kind) (hs : kind.scalar? = none)
    (hk : kind.isNamed = false)

/-- A definition that no other site within definitions shares its type name with is
declared. -/
theorem Fate.exists_declaration {ds : Definitions} {decls : List (Declaration Empty)}
    {name : String} (h : Fate ds decls name) {kind : Kind}
    (hc : Schema.classify (ds.get name) = .ok kind) (hk : kind.isNamed = true)
    (hown : ∀ s, ds.Stands s → s.typeName = Name.ofDefinition name → ds.IsOwn name s) :
    ∃ d ∈ decls, d.origin = some (ds.get name) ∧
      (d.fqn = name ∨ d.fqn = Definitions.withoutStart name) := by
  cases h with
  | declared d hd s hs h =>
    obtain ⟨place, hplace, rfl⟩ := hs
    refine ⟨d, hd, h.origin, ?_⟩
    rwa [show d.fqn = place from h.fqn]
  | shadowed d hd s hs hne htype h => exact absurd (hown s hs htype) hne
  | forgotten _ other hmem _ htype kind' hc' _ hk' =>
    -- the other definition would be this one, of another kind
    obtain ⟨place, -, heq⟩ := hown _ (Definitions.stands_definition hmem) htype
    have hschema : ds.get other = ds.get name := congrArg Site.schema heq
    rw [hschema, hc, Except.ok.injEq] at hc'
    rw [← hc', hk] at hk'
    cases hk'

/-- Once all definitions are emitted, each one that is to be declared has its fate. -/
theorem fate_of_founded {ds : Definitions} (hd : ds.Distinct) {r : Resolver Empty}
    (hf : Founded ds (fun _ => ds.Stands) (fresh [] ds) r) (hw : r.queue.written = [])
    {name : String} {kind : Kind} (hc : Schema.classify (ds.get name) = .ok kind)
    (hk : kind.isNamed = true) (hsettles : Settles ds r name) :
    Fate ds r.queue.declarations name := by
  obtain ⟨es, hes, hwait⟩ := hf.waiting
  obtain ⟨fs, hfs, hmem⟩ := hf.resolved
  rw [show (fresh [] ds : Resolver Empty).queue.waiting.entries = [] from rfl,
    List.nil_append] at hes
  rw [show (fresh [] ds : Resolver Empty).resolved.entries = [] from rfl,
    List.nil_append] at hfs
  have hknown : ∀ n, r.queue.isKnown n = true ↔ ∃ e ∈ es, e.1 = n := by
    intro n
    rw [Queue.isKnown, Queue.isWritten, hw, List.contains_nil, Bool.or_false, Queue.isWaiting,
      Table.contains_iff_mem_keys, Table.keys, hes, List.mem_map]
  by_cases hkn : r.queue.isKnown (Name.ofDefinition name) = true
  · -- something is declared under the type name: the definition, or a rival
    obtain ⟨e, he, hkey⟩ := (hknown _).mp hkn
    obtain ⟨-, s, hs, hdecl⟩ := hwait e he
    have hd : e.2 ∈ r.queue.declarations := List.mem_map_of_mem (hes.symm ▸ he)
    by_cases hown : ds.IsOwn name s
    · exact .declared e.2 hd s hown hdecl.self
    · exact .shadowed e.2 hd s hs hown (hdecl.key.symm.trans hkey) hdecl.self
  · -- nothing is declared, so an expression is remembered
    have hres := (hsettles kind hc hk).resolve_left hkn
    rw [Table.contains_iff_mem_keys, Table.keys, hfs, List.mem_map] at hres
    obtain ⟨f, hfm, hkey⟩ := hres
    obtain ⟨-, s, hs, hrem⟩ := hmem f hfm
    obtain ⟨kind', hc', hs', hk'⟩ := hrem.kind
    have hunnamed : kind'.isNamed = false := by
      rw [Bool.eq_false_iff]
      intro h
      exact hkn (hkey ▸ hk' h)
    have hdef := hrem.isDefinition
    rw [Site.isDefinition, Bool.and_eq_true, beq_iff_eq] at hdef
    have hget : ds.get s.place = s.schema :=
      (congrArg Node.schema (hs.presents hd s.place hdef.1)).symm
    refine .forgotten (fun d hdm hname => ?_) s.place (Definitions.mem_names_of_holds hdef.1)
      (fun heq => ?_) (hdef.2.trans (hrem.typeName.trans hkey)) kind' (hget ▸ hc') hs' hunnamed
    · obtain ⟨e, he, rfl⟩ := List.mem_map.mp hdm
      have hem : e ∈ es := hes ▸ he
      obtain ⟨-, t, -, hdecl⟩ := hwait e hem
      exact hkn ((hknown _).mpr ⟨e, hem, hdecl.key.trans (hdecl.name.symm.trans hname)⟩)
    · rw [← hget, heq, hc, Except.ok.injEq] at hc'
      rw [← hc', hk] at hunnamed
      cases hunnamed

/-! ### Texts -/

section

variable {compile : Compiler}

/-- Without exclusions the resolver is the one for the definitions. -/
theorem exists_of_resolver {schema : Json} {s : Settings} (hs : s.SelectsAll)
    {r : Resolver Empty} (h : resolver compile schema s = .ok r) :
    ∃ ds, Definitions.ofJson (schema.get "definitions") = .ok ds ∧ r = fresh [] ds := by
  obtain ⟨es, ds, hes, hds, rfl⟩ := resolver_eq_ok h
  rw [Exclusion.ofJson, hs.exclude] at hes
  cases hes
  exact ⟨ds, hds, rfl⟩

/-- A text comes from all definitions emitted one after the other, each with success. -/
theorem founded_of_generate {schema : Json} {s : Settings} {commandLine text : String}
    (hs : s.SelectsAll) (h : (generateWith compile schema s commandLine).1 = .ok text) :
    ∃ (ds : Definitions) (r : Resolver Empty) (page : Page),
      Definitions.ofJson (schema.get "definitions") = .ok ds ∧ ds.Distinct ∧
        IsText s commandLine r.queue.declarations page text ∧ IsUnwritten r ∧
        Founded ds (fun _ => ds.Stands) (fresh [] ds) r ∧ ∀ name ∈ ds.names, Settles ds r name := by
  obtain ⟨r, hr, hok, page, ht⟩ := exists_of_generate h
  obtain ⟨ds, hds, rfl⟩ := exists_of_resolver hs hr
  have hd := Definitions.distinct_of_ofJson hds
  have hu := isUnwritten_emitRequests s (isUnwritten_fresh (ε := Empty) [] ds)
  rw [exec_emitRequests_of_selectsAll hs rfl] at hok ht hu
  rcases hx : exec (emitAll ((fresh [] ds : Resolver Empty).definitions.names.map .str))
    (fresh [] ds) with ⟨o, r⟩
  rw [hx] at hok ht hu
  rw [show o = .ok () from hok] at hx
  obtain ⟨-, hf, hall⟩ := emitAll_eq_ok hd (fun _ hn => hn) (r := fresh [] ds) rfl rfl hx
  exact ⟨ds, r, page, hds, hd, ht, hu, hf, hall⟩

/-- Every declaration that waits then stands for a schema within the definitions. -/
theorem exists_declares {ds : Definitions} {r : Resolver Empty}
    (hf : Founded ds (fun _ => ds.Stands) (fresh [] ds) r) {d : Declaration Empty}
    (hd : d ∈ r.queue.declarations) : ∃ t, ds.Stands t ∧ Declares t (d.name, d) := by
  obtain ⟨es, hes, hwait⟩ := hf.waiting
  obtain ⟨e, he, rfl⟩ := List.mem_map.mp hd
  rw [hes] at he
  obtain ⟨-, t, hst, hdecl⟩ := hwait e he
  exact ⟨t, hst, hdecl.self⟩

/-- **The declarations of a text, and the fates of definitions.**  Every declaration stands
for a schema within the definitions, and no two have one name.  A definition that is to be
declared is declared, shadowed or forgotten; if no other schema within the definitions goes
by its type name, it is declared with its name as its place. -/
theorem fate_of_generate {schema : Json} {s : Settings} {commandLine text : String}
    (hs : s.SelectsAll) (h : (generateWith compile schema s commandLine).1 = .ok text) :
    ∃ ds decls page, Definitions.ofJson (schema.get "definitions") = .ok ds ∧
      IsText s commandLine decls page text ∧ (decls.map (·.name)).Nodup ∧
      (∀ d ∈ decls, d.IsOn page ∧ ∃ t, ds.Stands t ∧ Declares t (d.name, d)) ∧
      ∀ name ∈ ds.names, ∀ kind, Schema.classify (ds.get name) = .ok kind →
        kind.isNamed = true → Fate ds decls name ∧
          (Definitions.withoutStart name = name →
            (∀ t, ds.Stands t → t.typeName = Name.ofDefinition name → ds.IsOwn name t) →
              ∃ d ∈ decls, d.fqn = name ∧ d.origin = some (ds.get name)) := by
  obtain ⟨ds, r, page, hds, hd, ht, hu, hf, hall⟩ := founded_of_generate hs h
  refine ⟨ds, r.queue.declarations, page, hds, ht, ?_,
    fun d hdm => ⟨ht.isOn hdm, exists_declares hf hdm⟩, fun name hn kind hc hk => ?_⟩
  · -- declarations wait under their names, and these are distinct
    have hnames : r.queue.declarations.map (·.name) = r.queue.names := by
      rw [Queue.declarations, Queue.names, Table.values, Table.keys, List.map_map]
      exact List.map_congr_left hu.settled.named
    exact hnames ▸ hu.settled.nodup
  · have hfate := fate_of_founded hd hf hu.written hc hk (hall name hn)
    refine ⟨hfate, fun hplain hown => ?_⟩
    obtain ⟨d, hdm, horigin, hfqn⟩ := hfate.exists_declaration hc hk hown
    rw [hplain, or_self] at hfqn
    exact ⟨d, hdm, hfqn, horigin⟩

end

/-- An interface and an enum, both without rivals for their type names. -/
def plainDefinitions : List (String × Json) :=
  [("a.Foo", .obj [("properties", .obj [])]),
    ("b.Bar", .obj [("type", .str "string"), ("enum", .arr [.str "x"])])]

/-- Within the two definitions stand no other schemas. -/
theorem within_plainDefinitions {name place : String} {s : Site}
    (hn : name ∈ (Definitions.empty.defineAll plainDefinitions).names)
    (h : Site.Within (Definitions.empty.defineAll plainDefinitions)
      (.definition (Definitions.empty.defineAll plainDefinitions) name place) s) :
    s = .definition (Definitions.empty.defineAll plainDefinitions) name place := by
  have hn' : name = "a.Foo" ∨ name = "b.Bar" := by
    simpa using (show name ∈ ["a.Foo", "b.Bar"] from hn)
  induction h with
  | self => rfl
  | lookUp _ hs ih =>
    rw [ih] at hs
    rcases hn' with rfl | rfl <;> cases hs
  | items _ hs ih =>
    rw [ih] at hs
    rcases hn' with rfl | rfl <;> cases hs
  | values _ hs ih =>
    rw [ih] at hs
    rcases hn' with rfl | rfl <;> cases hs
  | property _ hs hp _ ih =>
    rw [ih] at hs hp
    rcases hn' with rfl | rfl
    · exact absurd hp List.not_mem_nil
    · cases hs

/-- Both definitions are declared, and the interface with its name as its place. -/
theorem fate_of_generate_plainDefinitions :
    let schema : Json := .obj [("definitions", .obj plainDefinitions)]
    let ds := Definitions.empty.defineAll plainDefinitions
    ∃ text decls page, (generate schema .usual "").1 = .ok text ∧
      IsText .usual "" decls page text ∧ (∀ name ∈ ds.names, Fate ds decls name) ∧
        ∃ d ∈ decls, d.fqn = "a.Foo" ∧ d.origin = some (ds.get "a.Foo") := by
  intro schema ds
  have h : (generate schema .usual "").1 = .ok
      ("// Generated by json_schema_to_ts 0.1.0. DO NOT EDIT.\n// \n\n" ++
        "/**\n * @schema a.Foo\n */\nexport interface Foo \x7b\n\x7d\n\n" ++
        "/**\n * @schema b.Bar\n */\nexport enum Bar \x7b\n" ++
        "  /** x */\n  X = \"x\",\n\x7d\n\n") :=
    eq_ok_of_toOption (by decide +kernel)
  obtain ⟨ds', decls, page, hds, ht, -, -, hall⟩ := fate_of_generate Settings.selectsAll_usual h
  have heq : ds' = ds := (Except.ok.inj hds).symm
  subst heq
  have hfoo : Schema.classify (ds.get "a.Foo") = .ok .struct := rfl
  have hbar : Schema.classify (ds.get "b.Bar") = .ok .enumString := rfl
  have hnames : ∀ name ∈ ds.names, name = "a.Foo" ∨ name = "b.Bar" := fun name hn => by
    simpa using (show name ∈ ["a.Foo", "b.Bar"] from hn)
  refine ⟨_, decls, page, h, ht, fun name hn => ?_, ?_⟩
  · rcases hnames name hn with rfl | rfl
    · exact (hall _ hn _ hfoo rfl).1
    · exact (hall _ hn _ hbar rfl).1
  · refine (hall "a.Foo" (by decide +kernel) _ hfoo rfl).2 (by decide +kernel) ?_
    rintro t ⟨path, place, hm, hplace, hw⟩ htype
    rw [within_plainDefinitions hm hw] at htype ⊢
    rcases hnames path hm with rfl | rfl
    · exact ⟨place, hplace, rfl⟩
    · exact absurd htype (show Name.ofDefinition "b.Bar" ≠ Name.ofDefinition "a.Foo" by
        decide +kernel)

/-- An array of texts, and an interface of the same type name. -/
def rivals : Json :=
  .obj [("definitions", .obj [
    ("a.Foo", .obj [("type", .str "array"), ("items", .obj [("type", .str "string")])]),
    ("b.Foo", .obj [("properties", .obj [])])])]

/-- The interface is lost: the text has no declaration with its name as the place. -/
theorem definition_is_lost :
    ∃ ds text, Definitions.ofJson (rivals.get "definitions") = .ok ds ∧ "b.Foo" ∈ ds.names ∧
      Schema.classify (ds.get "b.Foo") = .ok .struct ∧
        (generate rivals .usual "").1 = .ok text ∧
          ∀ decls page, IsText .usual "" decls page text → ∀ d ∈ decls, d.fqn ≠ "b.Foo" := by
  have h : (generate rivals .usual "").1 =
      .ok "// Generated by json_schema_to_ts 0.1.0. DO NOT EDIT.\n// \n\n" :=
    eq_ok_of_toOption (by decide +kernel)
  refine ⟨_, _, rfl, by decide +kernel, rfl, h, fun decls page ht d hd hfqn => ?_⟩
  -- the comment of such a declaration would stand in the text
  have hplace := Page.isInfix_text (ht.isOn hd).2
  rw [hfqn, ← ht.2] at hplace
  revert hplace
  decide +kernel

end Document
end SchemaScript
