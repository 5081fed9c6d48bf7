import SchemaScript.Proofs.Emission.Exclusions
import SchemaScript.Proofs.Shadowing
import SchemaScript.Proofs.WritingFailures

/-!
# Exclusions in runs over all definitions

If no definitions are picked out, a run emits all that no exclusion hits, and references to the
others come to `any`.  So nobody asks for a definition that is excluded.  The run can fail for
an exclusion all the same: where one hits the path of a property, for that path is tested like
the name of a definition.  No other exclusion stops it, and neither the comment nor the writing
of declarations does.

## Main definitions

* `Document.Reads` — the exclusions and definitions that a document and settings give, with a
  compiler for the patterns.
* `Document.Excludes` — what a run over all definitions does with the exclusions.

## Main results

* `exclusions_of_generate` — runs over all definitions, and which exclusions stop them.
* `property_is_excluded` — a run that one stops.
-/

namespace SchemaScript

open Stateful

theorem Failure.not_isExclusion_of_not_isReported {e : Failure} (h : e.isReported = false) :
    e.isExclusion = false := by
  cases e with
  | typeExcluded fqn pattern => cases h
  | _ => rfl

namespace Document

open Resolver

/-! ### Requests -/

section

variable {ε : Type} {ds : Definitions} {es : List Exclusion}

/-- The names of the definitions that no exclusion hits. -/
def sparedNames (ds : Definitions) (es : List Exclusion) : List String :=
  ds.names.filter fun name => !es.any (·.hits name)

theorem mem_sparedNames {name : String} :
    name ∈ sparedNames ds es ↔ name ∈ ds.names ∧ ∀ e ∈ es, e.hits name = false := by
  simp [sparedNames]

/-- **If none is picked out, all definitions that no exclusion hits are requested**, in
order. -/
theorem requests_eq_sparedNames (es : List Exclusion) (ds : Definitions) {emitTypes : Json}
    (h : emitTypes.truthy = false) :
    requests (fresh es ds : Resolver ε) emitTypes = .ok ((sparedNames ds es).map .str) := by
  have hexcluded : ∀ name, (fresh es ds : Resolver ε).isExcluded name =
      es.any (·.hits name) := by
    intro name
    rw [isExcluded, exclusionOf, Bool.eq_iff_iff, List.find?_isSome, List.any_eq_true]
    rfl
  simp only [requests, h, hexcluded, sparedNames]
  rfl

/-- Definitions that no exclusion hits, one after the other. -/
theorem blames_emitAll {names : List String} (hnames : ∀ name ∈ names, name ∈ sparedNames ds es)
    {r : Resolver ε} (hds : r.definitions = ds) (hes : r.exclusions = es) :
    Blames ds es (exec (emitAll (names.map .str)) r).1 := by
  induction names generalizing r with
  | nil => exact blames_ok ()
  | cons name names ih =>
    obtain ⟨hmem, hfree⟩ := mem_sparedNames.mp (hnames name List.mem_cons_self)
    let r₁ : Resolver ε := r.noted [.emitting name (Name.ofDefinition name)]
    rw [List.map_cons, exec_emitAll_cons, exec_emitNamed]
    have hfirst : Blames ds es (exec (emit (Name.ofDefinition name) (r₁.definitions.node name)
        (some name)) r₁).1 := by
      have hpath : ds.IsPath es (Definitions.withoutStart name) :=
        .withoutStart (.definition hmem hfree)
      rw [exec_emit]
      refine blames_emitWith _ _ _ _ r₁ hds hes ?_ hpath
      rw [show r₁.definitions = ds from hds]
      exact ⟨name, _, hmem, Or.inr rfl, .self⟩
    have hgrows := grows_emit (Name.ofDefinition name) (r₁.definitions.node name) (some name) r₁
    rcases hexec : exec (emit (Name.ofDefinition name) (r₁.definitions.node name) (some name)) r₁
      with ⟨e | t, r₂⟩ <;> rw [hexec] at hfirst hgrows
    · exact Blames.error hfirst
    · exact ih (fun n hn => hnames n (List.mem_cons_of_mem name hn))
        (hgrows.definitions.trans hds) (hgrows.exclusions.trans hes)

end

/-! ### Documents -/

/-- The exclusions that the settings give, and the definitions of the document with the aliases
entered. -/
def Reads (compile : Compiler) (schema : Json) (s : Settings) (es : List Exclusion)
    (ds : Definitions) : Prop :=
  ∃ given as, resolver compile schema s = .ok (fresh es given) ∧ s.aliases = .obj as ∧
    ds = given.withAliases as

section

variable {compile : Compiler}

/-- Patterns that do not compile are not reported. -/
theorem not_isReported_of_ofJson {v : Json} {e : Failure}
    (h : Exclusion.ofJson compile v = .error e) : e.isReported = false := by
  have hitems : ∀ {vs : List Json}, Exclusion.ofItems compile vs = .error e →
      e.isReported = false := by
    intro vs hvs
    induction vs with
    | nil => cases hvs
    | cons v vs ih =>
      rw [Exclusion.ofItems] at hvs
      cases hv : Exclusion.ofItem compile v with
      | error e' =>
        rw [hv] at hvs
        cases hvs
        unfold Exclusion.ofItem Exclusion.ofText at hv
        split at hv
        · split at hv <;> cases hv
          rfl
        · cases hv
          rfl
      | ok x =>
        rw [hv] at hvs
        cases hrest : Exclusion.ofItems compile vs with
        | error e' =>
          rw [hrest] at hvs
          cases hvs
          exact ih hrest
        | ok xs =>
          rw [hrest] at hvs
          cases hvs
  unfold Exclusion.ofJson at h
  split at h
  · cases hv : v.items with
    | error e' =>
      rw [hv] at h
      cases h
      exact Json.not_isReported_of_items hv
    | ok vs =>
      rw [hv] at h
      exact hitems h
  · cases h

/-- The resolver of a document knows what was read; if there is none, nothing is reported. -/
theorem resolver_cases (compile : Compiler) (schema : Json) (s : Settings) :
    (∃ es ds, resolver compile schema s = .ok (fresh es ds) ∧ ds.IsStamped) ∨
      ∃ e, resolver compile schema s = .error e ∧ e.isReported = false := by
  unfold resolver
  split
  · unfold Resolver.ofJsonWith
    cases hes : Exclusion.ofJson compile s.exclude with
    | error e => exact Or.inr ⟨e, rfl, not_isReported_of_ofJson hes⟩
    | ok es =>
      cases hds : Definitions.ofJson (schema.get "definitions") with
      | error e =>
        refine Or.inr ⟨e, rfl, ?_⟩
        unfold Definitions.ofJson at hds
        split at hds
        · split at hds <;> cases hds
          rfl
        · cases hds
      | ok ds => exact Or.inl ⟨es, ds, rfl, Definitions.isStamped_of_ofJson hds⟩
  · exact Or.inr ⟨_, rfl, rfl⟩

theorem Reads.distinct {schema : Json} {s : Settings} {es : List Exclusion} {ds : Definitions}
    (h : Reads compile schema s es ds) : ds.Distinct := by
  obtain ⟨given, as, hr, -, rfl⟩ := h
  rcases resolver_cases compile schema s with ⟨es', given', hr', hstamped⟩ | ⟨e, he, -⟩
  · obtain ⟨-, rfl⟩ : es = es' ∧ given = given' := by
      simpa [fresh] using hr.symm.trans hr'
    exact (Definitions.isStamped_withAliases hstamped as).distinct
  · rw [he] at hr
    cases hr

/-- A document is read, or there is no text, and nothing is reported. -/
theorem reads_or_fails (compile : Compiler) (schema : Json) (s : Settings)
    (commandLine : String) :
    (∃ es ds, Reads compile schema s es ds) ∨
      ∃ e, (generateWith compile schema s commandLine).1 = .error e ∧ e.isReported = false := by
  rcases resolver_cases compile schema s with ⟨es, given, hr, -⟩ | ⟨e, hr, he⟩
  · cases has : s.aliases with
    | obj as => exact Or.inl ⟨es, given.withAliases as, given, as, hr, has, rfl⟩
    | _ =>
      have hrequests : exec (emitRequests s) (fresh es given : Resolver Empty) =
          (.error (.illShaped .object), fresh es given) := by
        unfold emitRequests
        rw [has]
        rfl
      refine Or.inr ⟨.illShaped .object, ?_, rfl⟩
      unfold generateWith
      rw [hr]
      dsimp only
      rw [exec_compose (isUnwritten_fresh es given), hrequests]
  · refine Or.inr ⟨e, ?_, he⟩
    unfold generateWith
    rw [hr]

/-- What is reported is so of a document that was read. -/
theorem exists_reads {schema : Json} {s : Settings} {commandLine : String} {e : Failure}
    (h : (generateWith compile schema s commandLine).1 = .error e) (he : e.isReported = true) :
    ∃ es ds, Reads compile schema s es ds := by
  rcases reads_or_fails compile schema s commandLine with hreads | ⟨e', h', he'⟩
  · exact hreads
  · rw [h, Except.error.injEq] at h'
    rw [← h', he] at he'
    cases he'

/-- **A run** emits what is requested, in order, and writes what waits then. -/
theorem Reads.generate_eq {schema : Json} {s : Settings} {es : List Exclusion}
    {ds : Definitions} (h : Reads compile schema s es ds) {names : List Json}
    (hnames : requests (fresh es ds : Resolver Empty) s.emitTypes = .ok names)
    (commandLine : String) :
    (generateWith compile schema s commandLine).1 =
      match exec (emitAll names) (fresh es ds) with
      | (.ok _, r) => textFor s commandLine r.queue.declarations
      | (.error e, _) => .error e := by
  obtain ⟨given, as, hr, has, rfl⟩ := h
  exact generate_eq_of_resolver hr has hnames commandLine

/-- **A run over all definitions** emits those that no exclusion hits and writes what waits
then. -/
theorem generate_eq_of_reads {schema : Json} {s : Settings} {es : List Exclusion}
    {ds : Definitions} (h : Reads compile schema s es ds) (hs : s.emitTypes.truthy = false)
    (commandLine : String) :
    (generateWith compile schema s commandLine).1 =
      match exec (emitAll ((sparedNames ds es).map .str)) (fresh es ds) with
      | (.ok _, r) => textFor s commandLine r.queue.declarations
      | (.error e, _) => .error e :=
  h.generate_eq (requests_eq_sparedNames es ds hs) commandLine

/-- If something is excluded on the way, an exclusion hits one of the paths. -/
theorem Reads.blames {schema : Json} {s : Settings} {es : List Exclusion} {ds : Definitions}
    (h : Reads compile schema s es ds) (hs : s.emitTypes.truthy = false) (commandLine : String) :
    Blames ds es (generateWith compile schema s commandLine).1 := by
  have hemits : Blames ds es (exec (emitAll ((sparedNames ds es).map .str))
      (fresh es ds : Resolver Empty)).1 := blames_emitAll (fun _ hn => hn) rfl rfl
  rw [generate_eq_of_reads h hs]
  rcases hexec : exec (emitAll ((sparedNames ds es).map .str)) (fresh es ds : Resolver Empty)
    with ⟨e | u, r⟩ <;> rw [hexec] at hemits
  · exact Blames.error hemits
  · refine blames_of_not_isExclusion fun e he => ?_
    exact Failure.not_isExclusion_of_not_isReported (not_isReported_of_textFor he)

/-- What a run over all definitions does with the exclusions. -/
structure Excludes (compile : Compiler) (schema : Json) (s : Settings) (commandLine : String)
    (es : List Exclusion) (ds : Definitions) : Prop where
  /-- The definitions that no exclusion hits are emitted in order and no others, and what waits
  then is written. -/
  emitted : (generateWith compile schema s commandLine).1 =
    match exec (emitAll ((sparedNames ds es).map .str)) (fresh es ds) with
    | (.ok _, r) => textFor s commandLine r.queue.declarations
    | (.error e, _) => .error e
  /-- A reference to an excluded definition comes to `any`. -/
  references : ∀ (emit : Emitting Empty) (reference : Json) (fqn : String) (r : Resolver Empty)
    (path : String), r.exclusions = es → Definitions.path? (reference.get "$ref") = some path →
      (∃ e ∈ es, e.hits path = true ∨ e.hits (Definitions.refTo path) = true) →
        exec (emitRef emit reference fqn) r = (.ok .any, r.noted [.excludedReference fqn path])
  /-- If there is a text, each of the others that is to be declared has its name declared or
  remembered. -/
  settled : ∀ text, (generateWith compile schema s commandLine).1 = .ok text → ∃ r : Resolver Empty,
    exec (emitAll ((sparedNames ds es).map .str)) (fresh es ds) = (.ok (), r) ∧
      textFor s commandLine r.queue.declarations = .ok text ∧
      ∀ name ∈ sparedNames ds es, ∀ kind, Schema.classify (ds.get name) = .ok kind →
        kind.isNamed = true → (∃ d ∈ r.queue.declarations, d.name = Name.ofDefinition name) ∨
          r.resolved.contains (Name.ofDefinition name) = true
  /-- A property at an excluded path fails, whatever its schema is. -/
  properties : ∀ (n : Nat) (structFqn : String) (struct : Json) (property : String)
    (schema : Json) (r : Resolver Empty) (path : String) (e : Exclusion), r.exclusions = es →
      schema.isNull = false →
        path = Definitions.withoutStart (structFqn ++ "." ++ Name.fieldName property) →
          es.find? (·.hits path) = some e →
            exec (field (emitWith (n + 1)) structFqn struct property schema) r =
              (.error (.typeExcluded path e.text), r)
  /-- If no exclusion hits the path of a property, none stops the run. -/
  unstopped : (∀ name ∈ ds.names, Definitions.withoutStart name = name) →
    (∀ t p, ds.Stands t → Schema.classify t.schema = .ok .struct →
      p ∈ Schema.properties t.schema → ∀ e ∈ es, e.hits (t.propertyPlace p.1) = false) →
        ∀ path text, (generateWith compile schema s commandLine).1 ≠
          .error (.typeExcluded path text)

theorem Reads.excludes {schema : Json} {s : Settings} {es : List Exclusion} {ds : Definitions}
    (h : Reads compile schema s es ds) (hs : s.emitTypes.truthy = false) (commandLine : String) :
    Excludes compile schema s commandLine es ds where
  emitted := generate_eq_of_reads h hs commandLine
  references := by
    rintro emit reference fqn r path rfl hp ⟨e, he, hhit⟩
    exact exec_emitRef_of_hits emit fqn hp he hhit
  settled := by
    intro text htext
    rw [generate_eq_of_reads h hs] at htext
    rcases hexec : exec (emitAll ((sparedNames ds es).map .str)) (fresh es ds : Resolver Empty)
      with ⟨e | u, r⟩ <;> rw [hexec] at htext
    · cases htext
    · have hu : IsUnwritten r := by
        have := isUnwritten_emitAll ((sparedNames ds es).map .str)
          (isUnwritten_fresh (ε := Empty) es ds)
        rwa [hexec] at this
      obtain ⟨-, -, hall⟩ := emitAll_eq_ok h.distinct
        (fun name hname => (mem_sparedNames.mp hname).1) (r := fresh es ds) rfl rfl hexec
      refine ⟨r, rfl, htext, fun name hname kind hc hk => ?_⟩
      exact (hall name hname kind hc hk).imp_left hu.exists_of_isKnown
  properties := by
    rintro n structFqn struct property schema r path e rfl hnull hpath he
    exact exec_field_of_hits n struct hnull hpath he
  unstopped := by
    intro hnames hproperties path text herror
    obtain ⟨hpath, e, he, -⟩ := h.blames hs commandLine path text herror
    have hmem := List.mem_of_find?_eq_some he
    have hhit : e.hits path = true := by simpa using List.find?_some he
    obtain ⟨t, p, ht, hk, hp, rfl⟩ := hpath.exists_property hnames hmem hhit
    rw [hproperties t p ht hk hp e hmem] at hhit
    cases hhit

/-- **Exclusions in runs over all definitions.**  Excluded definitions are skipped, references
to them come to `any`, and all others are emitted.  If something is excluded on the way, it
stands at the path of a property, or a definition has a name that starts like a reference; so
if there is no such name and no exclusion hits the path of a property, none stops the run.  What
the exclusions hit is up to the compiler of their patterns, which can be any. -/
theorem exclusions_of_generate {schema : Json} {s : Settings} (hs : s.emitTypes.truthy = false)
    (commandLine : String) :
    (∀ path text, (generateWith compile schema s commandLine).1 = .error (.typeExcluded path text) →
      ∃ es ds, Reads compile schema s es ds ∧ ds.IsPath es path ∧
        ∃ e, es.find? (·.hits path) = some e ∧ e.text = text) ∧
    ∀ es ds, Reads compile schema s es ds → Excludes compile schema s commandLine es ds := by
  constructor
  · intro path text h
    obtain ⟨es, ds, hreads⟩ := exists_reads h rfl
    exact ⟨es, ds, hreads, hreads.blames hs commandLine path text h⟩
  · intro es ds hreads
    exact hreads.excludes hs commandLine

end

/-- An interface that refers to another one. -/
def vault : List (String × Json) :=
  [("Config", .obj [("properties", .obj [
      ("aSecret", .obj [("$ref", .str "#/definitions/Secret")])])]),
    ("Secret", .obj [("properties", .obj [])])]

/-- Settings with one pattern and without a comment. -/
def keepingOut (pattern : String) : Settings :=
  { Settings.usual with exclude := .arr [.str pattern], generationComment := .bool false }

theorem reads_vault {compile : Compiler} {pattern : String} {e : Exclusion}
    (h : Exclusion.ofText compile pattern = .ok e) :
    Reads compile (.obj [("definitions", .obj vault)]) (keepingOut pattern) [e]
      (Definitions.empty.defineAll vault) := by
  refine ⟨Definitions.empty.defineAll vault, [], ?_, rfl, rfl⟩
  have hes : Exclusion.ofJson compile (keepingOut pattern).exclude = .ok [e] := by
    show Exclusion.ofItems compile [.str pattern] = .ok [e]
    rw [Exclusion.ofItems, Exclusion.ofItem, h]
    rfl
  unfold resolver Resolver.ofJsonWith
  rw [hes]
  rfl

/-- A pattern that compiles, with what it hits and what not. -/
theorem exists_ofText (compile : Compiler) (pattern : String) (hit free : List String)
    (h : ((Exclusion.ofText compile pattern).toOption.any fun e =>
      hit.all (e.hits ·) && free.all (!e.hits ·)) = true) :
    ∃ e, Exclusion.ofText compile pattern = .ok e ∧ (∀ name ∈ hit, e.hits name = true) ∧
      ∀ name ∈ free, e.hits name = false := by
  cases he : Exclusion.ofText compile pattern with
  | error e =>
    rw [he] at h
    cases h
  | ok e =>
    rw [he] at h
    simpa [Except.toOption] using h

/-- Within the two definitions there is one property. -/
theorem propertyPlace_of_vault {t : Site} (h : (Definitions.empty.defineAll vault).Stands t)
    {p : String × Json} (hp : p ∈ Schema.properties t.schema) :
    t.propertyPlace p.1 = "Config.aSecret" := by
  obtain ⟨path, place, hmem, hplace, hwithin⟩ := h
  have hpath : path = "Config" ∨ path = "Secret" := by
    simpa using (show path ∈ ["Config", "Secret"] from hmem)
  obtain rfl : place = path := by
    refine hplace.elim id fun h => h.trans ?_
    rcases hpath with rfl | rfl <;> decide +kernel
  -- the interfaces, and the reference in the first one
  have hsites : t = .definition (Definitions.empty.defineAll vault) place place ∨
      t.schema = .obj [("$ref", .str "#/definitions/Secret")] := by
    clear hp
    induction hwithin with
    | self => exact Or.inl rfl
    | lookUp _ hs ih | items _ hs ih | values _ hs ih =>
      rcases ih with rfl | ih
      · rcases hpath with rfl | rfl <;> cases hs
      · rw [ih] at hs
        cases hs
    | property _ hs hq _ ih =>
      right
      rcases ih with rfl | ih
      · rcases hpath with rfl | rfl
        · cases List.mem_singleton.mp hq
          rfl
        · exact absurd hq List.not_mem_nil
      · rw [ih] at hs
        cases hs
  rcases hsites with rfl | hsite
  · rcases hpath with rfl | rfl
    · cases List.mem_singleton.mp hp
      decide +kernel
    · exact absurd hp List.not_mem_nil
  · rw [hsite] at hp
    exact absurd hp List.not_mem_nil

/-- The second interface is skipped and the reference to it comes to `any`. -/
theorem exclusions_of_generate_vault :
    let schema : Json := .obj [("definitions", .obj vault)]
    let ds := Definitions.empty.defineAll vault
    (keepingOut "^Secret").emitTypes.truthy = false ∧
      ∃ e, Exclusion.ofText Pattern.compile? "^Secret" = .ok e ∧
      Reads Pattern.compile? schema (keepingOut "^Secret") [e] ds ∧
      e.hits "Config" = false ∧ e.hits "Secret" = true ∧
      (∀ r : Resolver Empty, r.exclusions = [e] →
        exec (emitRef (emitWith 0) (.obj [("$ref", .str "#/definitions/Secret")])
          "Config.aSecret") r =
            (.ok .any, r.noted [.excludedReference "Config.aSecret" "Secret"])) ∧
      (∀ path text, (generate schema (keepingOut "^Secret") "").1 ≠
        .error (.typeExcluded path text)) ∧
      (generate schema (keepingOut "^Secret") "").1 = .ok
        ("/**\n * @schema Config\n */\nexport interface Config \x7b\n" ++
          "  /**\n   * @schema Config#aSecret\n   */\n" ++
          "  readonly aSecret?: any;\n\n\x7d\n\n") := by
  intro schema ds
  obtain ⟨e, he, hhit, hfree⟩ := exists_ofText Pattern.compile? "^Secret" ["Secret"]
    ["Config", "Config.aSecret"] (by decide +kernel)
  have hreads : Reads Pattern.compile? schema (keepingOut "^Secret") [e] ds := reads_vault he
  have hexcludes : Excludes Pattern.compile? schema (keepingOut "^Secret") "" [e] ds :=
    (exclusions_of_generate (by rfl) "").2 [e] ds hreads
  refine ⟨rfl, e, he, hreads, hfree _ (by simp), hhit _ (by simp), fun r hr => ?_, ?_,
    eq_ok_of_toOption (by decide +kernel)⟩
  · exact hexcludes.references _ _ _ r "Secret" hr (by decide +kernel)
      ⟨e, List.mem_singleton.mpr rfl, Or.inl (hhit _ (by simp))⟩
  · refine hexcludes.unstopped (fun name hname => ?_) fun t p ht _ hp x hx => ?_
    · have hname' : name = "Config" ∨ name = "Secret" := by
        simpa using (show name ∈ ["Config", "Secret"] from hname)
      rcases hname' with rfl | rfl <;> decide +kernel
    · rw [propertyPlace_of_vault ht hp, List.mem_singleton.mp hx]
      exact hfree _ (by simp)

/-- The place and the pattern, if the outcome is that something is excluded. -/
def exclusion? {α : Type} : Except Failure α → Option (String × String)
  | .error (.typeExcluded path text) => some (path, text)
  | _ => none

theorem eq_error_of_exclusion? {α : Type} {o : Except Failure α} {path text : String}
    (h : exclusion? o = some (path, text)) : o = .error (.typeExcluded path text) := by
  unfold exclusion? at h
  split at h <;> cases h
  rfl

/-- **A run over all definitions that an exclusion stops**: the pattern is meant for the second
interface, which nobody asks for, but hits the path of the property that refers to it, too. -/
theorem property_is_excluded :
    let schema : Json := .obj [("definitions", .obj vault)]
    let ds := Definitions.empty.defineAll vault
    (keepingOut "Secret$").emitTypes.truthy = false ∧
      ∃ e, Exclusion.ofText Pattern.compile? "Secret$" = .ok e ∧
      Reads Pattern.compile? schema (keepingOut "Secret$") [e] ds ∧
      e.hits "Config" = false ∧ e.hits "Secret" = true ∧
      (generate schema (keepingOut "Secret$") "").1 =
        .error (.typeExcluded "Config.aSecret" "Secret$") := by
  intro schema ds
  obtain ⟨e, he, hhit, hfree⟩ := exists_ofText Pattern.compile? "Secret$" ["Secret"] ["Config"]
    (by decide +kernel)
  refine ⟨rfl, e, he, reads_vault he, hfree _ (by simp), hhit _ (by simp), ?_⟩
  exact eq_error_of_exclusion? (by decide +kernel)

end Document
end SchemaScript
