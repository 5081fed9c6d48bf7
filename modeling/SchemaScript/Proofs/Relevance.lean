import SchemaScript.Proofs.Emission.Parallel
import SchemaScript.Proofs.Generation

/-!
# Definitions that matter

If names are requested, the text for a document depends on the definitions that can be
reached from them: those requested, and those that a reference in a reached one leads to,
unless an exclusion stops it.  All the others can differ, be missing, and stand in any
order; the text, or the failure, is the same.

## Main definitions

* `Definitions.AgreeOn` — two tables of definitions with the same reachable schemas.

## Main results

* `matches_of_agreeOn` — emissions treat the reachable schemas of both alike.
* `generate_eq_of_agreeOn` — both documents have the same text, or fail alike.
-/

namespace SchemaScript

open Stateful

namespace Definitions

/-- The requested names are defined, and under every path that can be reached stands the same
schema in both; no property in these schemas is `null`. -/
structure AgreeOn (es : List Exclusion) (ds ds' : Definitions) (names : List String) :
    Prop where
  requested : ∀ name ∈ names, (ds.get name).isNull = false
  same : ∀ path, Reaches es ds names path → ds.get path = ds'.get path
  properties : ∀ path v p, Reaches es ds names path → Schema.Inside (ds.get path) v →
    Schema.classify v = .ok .struct → p ∈ Schema.properties v → p.2.isNull = false

/-- A reference leads to one of the paths unless it is stopped, and no property is `null`. -/
structure StaysWithin (es : List Exclusion) (paths : List String) (v : Json) : Prop where
  reference : Schema.classify v = .ok .ref → ∀ path, path? (v.get "$ref") = some path →
    path ∈ paths ∨ Exclusion.stops es path = true
  properties : Schema.classify v = .ok .struct → ∀ p ∈ Schema.properties v, p.2.isNull = false

/-- Two tables agree if they have the same schemas under paths that no reference leads away
from. -/
theorem agreeOn_of_staysWithin {es : List Exclusion} {ds ds' : Definitions}
    {names : List String} (paths : List String) (hnames : names ⊆ paths)
    (hrequested : ∀ name ∈ names, (ds.get name).isNull = false)
    (hsame : ∀ path ∈ paths, ds.get path = ds'.get path)
    (hstays : ∀ path ∈ paths, Schema.Everywhere (StaysWithin es paths) (ds.get path)) :
    AgreeOn es ds ds' names := by
  have hreaches : ∀ path, Reaches es ds names path → path ∈ paths := by
    intro path h
    induction h with
    | requested hn => exact hnames hn
    | followed _ hv hk hp hx ih =>
      refine ((hstays _ ih _ hv).reference hk _ hp).resolve_right fun hstop => ?_
      rw [hx] at hstop
      cases hstop
  exact ⟨hrequested, fun path h => hsame path (hreaches path h), fun path v p h hv hk hp =>
    (hstays path (hreaches path h) v hv).properties hk p hp⟩

/-- Where stamps are distinct, a schema is held under its own name only. -/
theorem holds_node_eq {ds : Definitions} (hd : ds.Distinct) {path : String}
    (h : (ds.get path).isNull = false) (place : String) :
    ds.holds place (ds.node path) = decide (place = path) := by
  rw [Bool.eq_iff_iff, decide_eq_true_eq]
  refine ⟨eq_of_holds_node hd, ?_⟩
  rintro rfl
  exact holds_node h

/-! ### Schemas at hand -/

/-- The schemas at hand are one and the same in a definition that can be reached: the
definition itself in each table, or a schema inside it. -/
structure Shares (es : List Exclusion) (ds ds' : Definitions) (names : List String)
    (n n' : Node) (path : String) (v : Json) : Prop where
  reached : Reaches es ds names path
  inside : Schema.Inside (ds.get path) v
  notNull : v.isNull = false
  nodes : (v = ds.get path ∧ n = ds.node path ∧ n' = ds'.node path) ∨
    (n = .inline v ∧ n' = .inline v)

variable {es : List Exclusion} {ds ds' : Definitions} {names : List String}

/-- A schema at hand is the schema that is shared. -/
theorem Shares.schema (hagree : AgreeOn es ds ds' names) {n n' : Node} {path : String}
    {v : Json} (h : Shares es ds ds' names n n' path v) : n.schema = v ∧ n'.schema = v := by
  rcases h.nodes with ⟨rfl, rfl, rfl⟩ | ⟨rfl, rfl⟩
  · exact ⟨rfl, (hagree.same path h.reached).symm⟩
  · exact ⟨rfl, rfl⟩

/-- A schema inside the shared one, written where it stands. -/
theorem Shares.inner {n n' : Node} {path : String} {v w : Json}
    (h : Shares es ds ds' names n n' path v) (hw : Schema.Inside v w) (hnull : w.isNull = false) :
    Shares es ds ds' names (.inline w) (.inline w) path w :=
  ⟨h.reached, h.inside.trans hw, hnull, Or.inr ⟨rfl, rfl⟩⟩

/-- **Emissions treat the reachable schemas of both tables alike.** -/
theorem matches_of_agreeOn (hagree : AgreeOn es ds ds' names) (hd : ds.Distinct)
    (hd' : ds'.Distinct) :
    Matches es ds ds' fun n n' => ∃ path v, Shares es ds ds' names n n' path v where
  schema := by
    rintro n n' ⟨path, v, h⟩
    rw [(h.schema hagree).1, (h.schema hagree).2]
  holds := by
    rintro n n' ⟨path, v, h⟩ place
    rcases h.nodes with ⟨rfl, rfl, rfl⟩ | ⟨rfl, rfl⟩
    · have hnull' : (ds'.get path).isNull = false := by
        rw [← hagree.same path h.reached]
        exact h.notNull
      rw [holds_node_eq hd h.notNull, holds_node_eq hd' hnull']
    · rw [holds_inline, holds_inline]
  lookUp := by
    rintro n n' ⟨path, v, h⟩ hnull
    rw [(h.schema hagree).1, h.notNull] at hnull
    cases hnull
  items := by
    rintro n n' ⟨path, v, h⟩ hk hobj
    rw [(h.schema hagree).1] at hk hobj ⊢
    exact ⟨path, _, h.inner (.items .self hk) (Resolver.isNull_of_isObject hobj)⟩
  values := by
    rintro n n' ⟨path, v, h⟩ hk
    rw [(h.schema hagree).1] at hk ⊢
    have hobj := Resolver.isObject_of_classify_map hk
    exact ⟨path, _, h.inner (.values .self hk) (Resolver.isNull_of_isObject hobj)⟩
  property := by
    rintro n n' p ⟨path, v, h⟩ hk hp hx
    rw [(h.schema hagree).1] at hk hp
    have hmem : p ∈ Schema.properties v := Schema.mem_properties.mpr ⟨hp, hx⟩
    exact ⟨path, _, h.inner (.property .self hk hmem)
      (hagree.properties path v p h.reached h.inside hk hmem)⟩
  reference := by
    rintro n n' path' ⟨path, v, h⟩ hk hp hx
    rw [(h.schema hagree).1] at hk hp
    have hreached : Reaches es ds names path' := .followed h.reached h.inside hk hp hx
    refine ⟨hagree.same path' hreached, fun hnull => ?_⟩
    exact ⟨path', _, hreached, .self, hnull, Or.inl ⟨rfl, rfl, rfl⟩⟩

end Definitions

namespace Document

open Resolver Definitions

variable {es : List Exclusion} {ds ds' : Definitions} {names : List String}

/-- Requests one after the other have the same outcome and queue the same declarations. -/
theorem parallel_emitAll {ε : Type} (hagree : AgreeOn es ds ds' names) (hd : ds.Distinct)
    (hd' : ds'.Distinct) {requested : List String} (hsub : ∀ name ∈ requested, name ∈ names)
    {a b : Resolver ε} (h : Parallel es ds ds' [] a b) :
    RunsParallel es ds ds' [] (exec (emitAll (requested.map .str)) a)
      (exec (emitAll (requested.map .str)) b) := by
  induction requested generalizing a b with
  | nil => exact .same _ h
  | cons name requested ih =>
    let a₁ : Resolver ε := a.noted [.emitting name (Name.ofDefinition name)]
    let b₁ : Resolver ε := b.noted [.emitting name (Name.ofDefinition name)]
    have h₁ : Parallel es ds ds' [] a₁ b₁ := h.noted _ _
    have hname := hsub name List.mem_cons_self
    have hemit : RunsParallel es ds ds' [] (exec (emitNamed name) a₁)
        (exec (emitNamed name) b₁) := by
      rw [exec_emitNamed, exec_emitNamed, h₁.definitions.1, h₁.definitions.2]
      exact parallel_emit (matches_of_agreeOn hagree hd hd') h₁ ⟨name, _, .requested hname, .self,
        hagree.requested name hname, Or.inl ⟨rfl, rfl, rfl⟩⟩ _ _
    rw [List.map_cons, emitAll, exec_bind_ok (exec_note _ a), exec_bind_ok (exec_note _ b)]
    exact hemit.bind fun _ _ _ h' => ih (fun n hn => hsub n (List.mem_cons_of_mem name hn)) h'

/-- **Only reachable definitions matter.**  If two documents agree on what can be reached from
the requested names once the aliases are entered, they have the same text, or they fail with
the same failure.  This is so for every compiler of patterns. -/
theorem generate_eq_of_agreeOn {compile : Compiler} {schema schema' : Json} {s : Settings}
    {fs fs' as : List (String × Json)} (hfs : schema.get "definitions" = .obj fs)
    (hfs' : schema'.get "definitions" = .obj fs') (has : s.aliases = .obj as)
    (hnames : s.emitTypes = .arr (names.map .str)) (hne : names ≠ [])
    (hagree : ∀ es, Exclusion.ofJson compile s.exclude = .ok es →
      AgreeOn es (definitionsOf fs as) (definitionsOf fs' as) names) (commandLine : String) :
    (generateWith compile schema s commandLine).1 =
      (generateWith compile schema' s commandLine).1 := by
  have hobj : ∀ {v : Json} {ds : List (String × Json)}, v.get "definitions" = .obj ds →
      v.isObject = true := by
    intro v ds hv
    cases v with
    | obj _ => rfl
    | _ => cases hv
  cases hes : Exclusion.ofJson compile s.exclude with
  | error e =>
    -- the exclusions are read before the definitions
    have hfails : ∀ v : Json, v.isObject = true →
        (generateWith compile v s commandLine).1 = .error e := by
      intro v hv
      unfold generateWith
      rw [resolver, if_pos hv, Resolver.ofJsonWith, hes]
      rfl
    rw [hfails schema (hobj hfs), hfails schema' (hobj hfs')]
  | ok es =>
    have hrequests : ∀ r : Resolver Empty, requests r s.emitTypes = .ok (names.map .str) := by
      intro r
      rw [hnames]
      exact requests_of_items rfl (by simpa using hne) r
    have hruns := parallel_emitAll (ε := Empty) (hagree es hes)
      (isStamped_definitionsOf fs as).distinct (isStamped_definitionsOf fs' as).distinct
      (fun _ hn => hn) (a := fresh es (definitionsOf fs as))
      (b := fresh es (definitionsOf fs' as))
      ⟨⟨rfl, rfl⟩, ⟨rfl, rfl⟩, rfl, fun name => by simp [fresh], rfl, rfl⟩
    rw [generate_eq hfs hes has (hrequests _), generate_eq hfs' hes has (hrequests _)]
    rcases ha : exec (emitAll (names.map .str)) (fresh es (definitionsOf fs as) : Resolver Empty)
      with ⟨o, a⟩
    rcases hb : exec (emitAll (names.map .str)) (fresh es (definitionsOf fs' as) : Resolver Empty)
      with ⟨o', b⟩
    rw [ha, hb] at hruns
    obtain ⟨rfl, hstates⟩ := hruns
    cases o with
    | error e => rfl
    | ok u =>
      have hwait : a.queue.waiting.entries = b.queue.waiting.entries := hstates.waiting
      have hdecls : a.queue.declarations = b.queue.declarations := by
        rw [Queue.declarations, Queue.declarations, Table.values, Table.values, hwait]
      show textFor s commandLine a.queue.declarations = textFor s commandLine b.queue.declarations
      rw [hdecls]

/-- An interface with an array of references, and a reference that is stopped. -/
def parcel : Json :=
  .obj [("properties", .obj [
    ("parts", .obj [("type", .str "array"),
      ("items", .obj [("$ref", .str "#/definitions/Part")])]),
    ("audit", .obj [("$ref", .str "#/definitions/AuditInternal")])])]

/-- A document with an excluded definition and one that nothing refers to. -/
def parcels : List (String × Json) :=
  [("Part", .obj [("properties", .obj [])]), ("Parcel", parcel),
    ("AuditInternal", .obj [("items", .int 1)]), ("Unused", .null)]

/-- The same without the excluded definition, in another order, and with others. -/
def otherParcels : List (String × Json) :=
  [("Unused", .obj [("$ref", .str "nowhere")]), ("Parcel", parcel),
    ("a.Part", .obj [("type", .str "string")]), ("Part", .obj [("properties", .obj [])])]

/-- One pattern, an alias, and a request for it. -/
def parcelSettings : Settings :=
  { Settings.usual with
    exclude := .arr [.str "Internal$"]
    aliases := .obj [("Shipment", .str "Parcel")]
    emitTypes := .arr [.str "Shipment"] }

theorem agreeOn_parcels {es : List Exclusion}
    (hes : Exclusion.ofJson Pattern.compile? parcelSettings.exclude = .ok es) :
    AgreeOn es (definitionsOf parcels [("Shipment", .str "Parcel")])
      (definitionsOf otherParcels [("Shipment", .str "Parcel")]) ["Shipment"] := by
  have hstop : Exclusion.stops es "AuditInternal" = true := by
    have h : (Exclusion.ofJson Pattern.compile? parcelSettings.exclude).toOption.map
        (Exclusion.stops · "AuditInternal") = some true := by decide +kernel
    rw [hes] at h
    exact Option.some.inj h
  have hto : ∀ (name : String) {path : String}, path? (.str (refTo name)) = some path →
      path = name := fun _ _ h => (Option.some.inj ((path?_refTo _).symm.trans h)).symm
  refine agreeOn_of_staysWithin ["Shipment", "Parcel", "Part"] (by simp) ?_ ?_ ?_
  · intro name hn
    rw [List.mem_singleton.mp hn]
    rfl
  · intro path hpath
    simp only [List.mem_cons, List.not_mem_nil, or_false] at hpath
    rcases hpath with rfl | rfl | rfl <;> rfl
  · intro path hpath
    simp only [List.mem_cons, List.not_mem_nil, or_false] at hpath
    rcases hpath with rfl | rfl | rfl
    · refine .reference ⟨fun _ path hp => Or.inl ?_, fun hk => nomatch hk⟩
      rw [hto "Parcel" hp]
      simp
    · -- of the two references one is followed and the other stopped
      refine .of_parts ⟨fun hk => (nomatch hk), fun _ p hp => ?_⟩ (fun hk => nomatch hk)
        (fun hk => nomatch hk) fun _ p hp => ?_
      · rcases List.mem_cons.mp hp with rfl | hp
        · rfl
        · rw [List.mem_singleton.mp hp]
          rfl
      · rcases List.mem_cons.mp hp with rfl | hp
        · refine .of_parts ⟨fun hk => (nomatch hk), fun hk => nomatch hk⟩ (fun _ => ?_)
            (fun hk => nomatch hk) fun hk => nomatch hk
          refine .reference ⟨fun _ path hp => Or.inl ?_, fun hk => nomatch hk⟩
          rw [hto "Part" hp]
          simp
        · rw [List.mem_singleton.mp hp]
          refine .reference ⟨fun _ path hp => Or.inr ?_, fun hk => nomatch hk⟩
          rw [hto "AuditInternal" hp]
          exact hstop
    · exact .of_parts ⟨fun hk => (nomatch hk), fun _ p hp => absurd hp List.not_mem_nil⟩
        (fun hk => nomatch hk) (fun hk => nomatch hk) fun _ p hp => absurd hp List.not_mem_nil

/-- Both documents agree on what can be reached, and their texts are the same. -/
theorem generate_eq_of_agreeOn_parcels :
    let schema : Json := .obj [("definitions", .obj parcels)]
    let schema' : Json := .obj [("definitions", .obj otherParcels)]
    (∀ es, Exclusion.ofJson Pattern.compile? parcelSettings.exclude = .ok es →
      AgreeOn es (definitionsOf parcels [("Shipment", .str "Parcel")])
        (definitionsOf otherParcels [("Shipment", .str "Parcel")]) ["Shipment"]) ∧
      (generate schema parcelSettings "").1 = (generate schema' parcelSettings "").1 :=
  ⟨fun _ hes => agreeOn_parcels hes, generate_eq_of_agreeOn rfl rfl rfl rfl (by simp)
    (fun _ hes => agreeOn_parcels hes) ""⟩

end Document
end SchemaScript
