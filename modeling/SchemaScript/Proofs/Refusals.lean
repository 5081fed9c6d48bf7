import SchemaScript.Proofs.Emission.Refusals
import SchemaScript.Proofs.Generation

/-!
# What generation refuses

For a document in which descriptions are texts or absent and branches are lists, and for
settings of the right shapes, there is a text, or a definition or a request is refused for
one of five causes.  Nothing else can go wrong: what is emitted in between finds the shapes
that it needs, and what is queued can be written.

## Main definitions

* `Settings.IsWellTyped`, `Document.IsWellTyped` — settings and documents of the right
  shapes.

## Main results

* `emitAll_refuses` — requests one after the other.
* `generate_refuses` — the whole generation.
-/

namespace SchemaScript

open Stateful

/-- Patterns that compile, texts for names and for the indentation. -/
structure Settings.IsWellTyped (compile : Compiler) (s : Settings) : Prop where
  exclude : ∃ patterns : List String, s.exclude = .arr (patterns.map .str) ∧
    ∀ p ∈ patterns, (compile p).isSome = true
  aliases : ∃ as : List (String × String), s.aliases = .obj (as.map fun a => (a.1, .str a.2))
  emitTypes : ∃ names : List String, s.emitTypes = .arr (names.map .str)
  generationComment : ∃ b, s.generationComment = .bool b
  indent : ∃ text, s.indent = .str text

namespace Document

open Resolver

/-- The document lists definitions; everywhere in them a description is a text, `null` or
absent, and what is given for branches is a list or counts as nothing. -/
def IsWellTyped (schema : Json) : Prop :=
  ∃ fs, schema.get "definitions" = .obj fs ∧ ∀ name v, (name, v) ∈ fs →
    Schema.Everywhere Schema.HasText v ∧ Schema.Everywhere Schema.HasBranches v

/-! ### Settings -/

section

variable {compile : Compiler}

/-- Patterns that compile are tests. -/
theorem exists_ofItems {patterns : List String}
    (h : ∀ p ∈ patterns, (compile p).isSome = true) :
    ∃ es, Exclusion.ofItems compile (patterns.map .str) = .ok es := by
  induction patterns with
  | nil => exact ⟨[], rfl⟩
  | cons p patterns ih =>
    obtain ⟨hits, hp⟩ := Option.isSome_iff_exists.mp (h p List.mem_cons_self)
    obtain ⟨es, hes⟩ := ih fun q hq => h q (List.mem_cons_of_mem p hq)
    refine ⟨⟨p, hits⟩ :: es, ?_⟩
    rw [List.map_cons, Exclusion.ofItems, Exclusion.ofItem, Exclusion.ofText, hp, hes]
    rfl

theorem exists_exclusions {s : Settings} (hs : s.IsWellTyped compile) :
    ∃ es, Exclusion.ofJson compile s.exclude = .ok es := by
  obtain ⟨patterns, hexclude, hread⟩ := hs.exclude
  rw [hexclude, Exclusion.ofJson]
  split
  · exact exists_ofItems hread
  · exact ⟨[], rfl⟩

/-- What is requested is a list of names, given or not. -/
theorem exists_requests {s : Settings} (hs : s.IsWellTyped compile) {ε : Type}
    (r : Resolver ε) :
    ∃ names : List String, requests r s.emitTypes = .ok (names.map .str) := by
  obtain ⟨names, hnames⟩ := hs.emitTypes
  rw [hnames, requests]
  split
  · exact ⟨names, rfl⟩
  · exact ⟨_, rfl⟩

end

/-! ### Requests -/

/-- **Requests one after the other**: one is refused, or none, and what waits then can be
written. -/
theorem emitAll_refuses {ε : Type} (names : List String) {r : Resolver ε}
    (hd : r.definitions.Distinct) (ho : r.opening = .empty)
    (hbranches : r.definitions.Each (Schema.Everywhere Schema.HasBranches))
    (htexts : r.definitions.Each (Schema.Everywhere Schema.HasText))
    (hw : ∀ e ∈ r.queue.waiting.entries, e.2.IsWritable) :
    (∀ e, (exec (emitAll (names.map .str)) r).1 = .error e → e.isRefusal = true) ∧
      ∀ e ∈ (exec (emitAll (names.map .str)) r).2.queue.waiting.entries, e.2.IsWritable := by
  induction names generalizing r with
  | nil => exact ⟨fun e he => (nomatch he), hw⟩
  | cons name names ih =>
    let r₁ : Resolver ε := r.noted [.emitting name (Name.ofDefinition name)]
    rw [List.map_cons, exec_emitAll_cons, exec_emitNamed]
    have hfails : ∀ e, (exec (emit (Name.ofDefinition name) (r₁.definitions.node name)
        (some name)) r₁).1 = .error e → e.isRefusal = true := fun e he =>
      isRefusal_of_emit (r := r₁) hd hbranches ho (Name.isTypeName_ofDefinition name)
        (hbranches name) he
    have hgrows := grows_emit (Name.ofDefinition name) (r₁.definitions.node name) (some name) r₁
    have hw' : ∀ e ∈ (exec (emit (Name.ofDefinition name) (r₁.definitions.node name)
        (some name)) r₁).2.queue.waiting.entries, e.2.IsWritable :=
      isWritable_emit (r := r₁) htexts (Name.ofDefinition name) (htexts name) (some name) hw
    rcases hexec : exec (emit (Name.ofDefinition name) (r₁.definitions.node name) (some name)) r₁
      with ⟨e | t, r₂⟩ <;> rw [hexec] at hfails hgrows hw'
    · refine ⟨fun e' he' => hfails e' ?_, hw'⟩
      cases he'
      rfl
    · have hds : r₂.definitions = r.definitions := hgrows.definitions
      exact ih (r := r₂) (hds ▸ hd) (hgrows.opening_eq_empty ho) (hds ▸ hbranches)
        (hds ▸ htexts) hw'

/-! ### Generation -/

/-- **Generation gives a text or refuses for one of the five causes**, if the document and
the settings are of the right shapes, whatever the patterns are compiled to. -/
theorem generate_refuses {compile : Compiler} {schema : Json} {s : Settings}
    (hschema : IsWellTyped schema) (hs : s.IsWellTyped compile) (commandLine : String) :
    (∃ text, (generateWith compile schema s commandLine).1 = .ok text) ∨
      ∃ e, (generateWith compile schema s commandLine).1 = .error e ∧ e.isRefusal = true := by
  obtain ⟨fs, hfs, hall⟩ := hschema
  obtain ⟨es, hes⟩ := exists_exclusions hs
  obtain ⟨as, has⟩ := hs.aliases
  let ds := definitionsOf fs (as.map fun a => (a.1, .str a.2))
  obtain ⟨names, hnames⟩ := exists_requests hs (fresh es ds : Resolver Empty)
  have htexts : ds.Each (Schema.Everywhere Schema.HasText) :=
    each_definitionsOf (.null rfl) (fun _ => .reference rfl) (fun name v hv => (hall name v hv).1) _
  have hbranches : ds.Each (Schema.Everywhere Schema.HasBranches) := by
    refine each_definitionsOf (.null ⟨?_, ?_⟩) (fun text => .reference ⟨?_, ?_⟩)
      (fun name v hv => (hall name v hv).2) _ <;> exact fun h => nomatch h
  obtain ⟨hfails, hwritable⟩ := emitAll_refuses names (r := (fresh es ds : Resolver Empty))
    (isStamped_definitionsOf fs _).distinct rfl hbranches htexts
    fun e he => absurd he List.not_mem_nil
  rw [generate_eq hfs hes has hnames commandLine]
  rcases hexec : exec (emitAll (names.map .str)) (fresh es ds : Resolver Empty) with ⟨e | u, r⟩ <;>
    rw [hexec] at hfails hwritable
  · exact Or.inr ⟨e, rfl, hfails e rfl⟩
  · obtain ⟨patterns, hexclude, -⟩ := hs.exclude
    obtain ⟨indent, hindent⟩ := hs.indent
    left
    refine exists_textFor hexclude hindent commandLine fun d hd => ?_
    obtain ⟨e, he, rfl⟩ := List.mem_map.mp hd
    exact hwritable e he

/-- An interface with an enum, a union and an array of references, and a map. -/
def orders : List (String × Json) :=
  [("Order", .obj [("description", .str "An order."), ("properties", .obj [
      ("state", .obj [("type", .str "string"), ("enum", .arr [.str "open", .str "sent"])]),
      ("amount", .obj [("oneOf", .arr [.obj [("type", .str "number")],
        .obj [("type", .str "string")]])]),
      ("parts", .obj [("type", .str "array"),
        ("items", .obj [("$ref", .str "#/definitions/Part")])])])]),
    ("Part", .obj [("additionalProperties", .obj [("description", .null)])])]

/-- One pattern, an alias, and a request for it. -/
def orderSettings : Settings where
  exclude := .arr [.str "Internal$"]
  aliases := .obj [("Purchase", .str "Order")]
  emitTypes := .arr [.str "Purchase"]
  generationComment := .bool true
  indent := .str "    "

theorem isWellTyped_orders : IsWellTyped (.obj [("definitions", .obj orders)]) := by
  refine ⟨orders, rfl, fun name v hv => ?_⟩
  have hno : ∀ {b : Prop}, (false = true) → b := fun h => nomatch h
  simp only [orders, List.mem_cons, Prod.mk.injEq, List.not_mem_nil, or_false] at hv
  rcases hv with ⟨-, rfl⟩ | ⟨-, rfl⟩
  · -- an interface with three properties
    refine ⟨.of_parts rfl (fun hk => nomatch hk) (fun hk => nomatch hk) fun _ p hp => ?_,
      .of_parts ⟨hno, hno⟩ (fun hk => nomatch hk) (fun hk => nomatch hk) fun _ p hp => ?_⟩ <;>
      rcases List.mem_cons.mp hp with rfl | hp
    · exact .leaf .enumString rfl (by decide) rfl
    · rcases List.mem_cons.mp hp with rfl | hp
      · exact .leaf .union rfl (by decide) rfl
      · rw [List.mem_singleton.mp hp]
        exact .of_parts rfl (fun _ => .reference rfl) (fun hk => nomatch hk) fun hk => nomatch hk
    · exact .leaf .enumString rfl (by decide) ⟨hno, hno⟩
    · rcases List.mem_cons.mp hp with rfl | hp
      · exact .leaf .union rfl (by decide) ⟨fun _ => ⟨_, rfl⟩, hno⟩
      · rw [List.mem_singleton.mp hp]
        exact .of_parts ⟨hno, hno⟩ (fun _ => .reference ⟨hno, hno⟩) (fun hk => nomatch hk)
          fun hk => nomatch hk
  · -- a map to values without a type
    constructor
    · refine .of_parts rfl (fun hk => nomatch hk) (fun _ => ?_) fun hk => nomatch hk
      exact .leaf .fallback rfl (by decide) rfl
    · refine .of_parts ⟨hno, hno⟩ (fun hk => nomatch hk) (fun _ => ?_) fun hk => nomatch hk
      exact .leaf .fallback rfl (by decide) ⟨hno, hno⟩

theorem isWellTyped_orderSettings : orderSettings.IsWellTyped Pattern.compile? where
  exclude := by
    refine ⟨["Internal$"], rfl, fun p hp => ?_⟩
    rw [List.mem_singleton.mp hp]
    decide +kernel
  aliases := ⟨[("Purchase", "Order")], rfl⟩
  emitTypes := ⟨["Purchase"], rfl⟩
  generationComment := ⟨true, rfl⟩
  indent := ⟨"    ", rfl⟩

/-- The document and the settings are of the right shapes. -/
theorem generate_refuses_orders :
    let schema : Json := .obj [("definitions", .obj orders)]
    IsWellTyped schema ∧ orderSettings.IsWellTyped Pattern.compile? ∧
      ((∃ text, (generate schema orderSettings "").1 = .ok text) ∨
        ∃ e, (generate schema orderSettings "").1 = .error e ∧ e.isRefusal = true) :=
  ⟨isWellTyped_orders, isWellTyped_orderSettings,
    generate_refuses isWellTyped_orders isWellTyped_orderSettings ""⟩

end Document
end SchemaScript
