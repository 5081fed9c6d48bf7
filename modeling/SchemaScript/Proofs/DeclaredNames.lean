import SchemaScript.Proofs.Documents
import SchemaScript.Proofs.Sessions

/-!
# Every name used is declared

No expression that is kept or was ever given refers to a name without a declaration:
not in the state after a history of operations, not after a session of commands and
the scripts that it ran, and not in the text for a document.

A script that ends early leaves the state that a longer one goes through, so the
states in the middle of scripts are states after sessions too.

## Main results

* `names_are_declared` — the three together.
-/

namespace SchemaScript

open Stateful Resolver

variable {ε : Type}

namespace Resolver

/-- The expressions kept in the state, and the given ones, stand over names that are
waiting or written. -/
def NamesKnown (r : Resolver ε) (ts : List TypeExpr) : Prop :=
  (∀ d ∈ r.queue.declarations, ∀ f ∈ d.body.fields, r.Knows f.type) ∧
    (∀ t ∈ r.resolved.values, r.Knows t) ∧ ∀ t ∈ ts, r.Knows t

theorem NamesKnown.mono {r : Resolver ε} {ts ts' : List TypeExpr} (h : r.NamesKnown ts)
    (hts : ∀ t ∈ ts', t ∈ ts) : r.NamesKnown ts' :=
  ⟨h.1, h.2.1, fun t ht => h.2.2 t (hts t ht)⟩

/-- After a history of operations. -/
theorem namesKnown_operateAll (es : List Exclusion) (ds : Definitions)
    (ops : List (Operation ε)) :
    (operateAll ops (fresh es ds)).2.NamesKnown (operateAll ops (fresh es ds)).1 := by
  have hs := isSettled_operateAll ops (isSettled_fresh es ds)
  refine ⟨?_, ?_, fun t ht => knows_operateAll ops (isSettled_fresh es ds) ht⟩
  · intro d hd
    obtain ⟨e, he, rfl⟩ := List.mem_map.mp hd
    exact hs.closed.fields e he
  · intro t ht
    obtain ⟨e, he, rfl⟩ := List.mem_map.mp ht
    exact hs.closed.resolved e he

end Resolver

/-- The expressions among some answers. -/
def Workshop.typesOf (os : List (Except Failure Answer)) : List TypeExpr :=
  os.filterMap fun
    | .ok (.type t) => some t
    | _ => none

theorem Workshop.mem_typesOf {os : List (Except Failure Answer)} {t : TypeExpr}
    (h : t ∈ typesOf os) : .ok (.type t) ∈ os := by
  obtain ⟨o, ho, ht⟩ := List.mem_filterMap.mp h
  split at ht
  · cases ht
    exact ho
  · cases ht

/-- After a session of public commands. -/
theorem namesKnown_session (es : List Exclusion) (ds : Definitions) (cs : List Command)
    (hcs : ∀ c ∈ cs, isPublic c = true) :
    (Workshop.session cs (.ofResolver (fresh es ds))).2.resolver.NamesKnown
      (Workshop.typesOf (Workshop.session cs (.ofResolver (fresh es ds))).1) := by
  obtain ⟨ts, ⟨ops, hops⟩, ht⟩ := Workshop.session_isHistory hcs
    (w := .ofResolver (fresh es ds)) fun e he => absurd he List.not_mem_nil
  have hk := namesKnown_operateAll es ds ops
  rw [show operateAll ops (fresh es ds) = _ from hops] at hk
  exact hk.mono fun t hm => ht t (Workshop.mem_typesOf hm)

/-- In the text for a document. -/
theorem exists_headLine_of_generate {compile : Compiler} {schema : Json} {s : Settings}
    {commandLine text : String}
    (h : (Document.generateWith compile schema s commandLine).1 = .ok text) :
    ∃ ds page, Document.IsText s commandLine ds page text ∧
      ∀ d ∈ ds, ∀ f ∈ d.body.fields, ∀ name ∈ f.type.names,
        (∃ c ∈ ds, c.name = name) ∧ ∃ word, Declaration.headLine word name ∈ page.lines := by
  obtain ⟨ds, page, ht, hd⟩ := Document.generate_isText h
  refine ⟨ds, page, ht, ?_⟩
  intro d hm f hf name hn
  obtain ⟨c, hc, rfl⟩ := hd d hm f hf name hn
  exact ⟨⟨c, hc, rfl⟩, ht.exists_headLine hc⟩

/-- **No name dangles**: not in what was answered and queued, not after a session, and not in the
text for a document, whatever its patterns are compiled to. -/
theorem names_are_declared :
    (∀ (es : List Exclusion) (ds : Definitions) (ops : List (Operation ε)),
      (operateAll ops (fresh es ds)).2.NamesKnown (operateAll ops (fresh es ds)).1) ∧
    (∀ (es : List Exclusion) (ds : Definitions) (cs : List Command),
      (∀ c ∈ cs, isPublic c = true) →
      (Workshop.session cs (.ofResolver (fresh es ds))).2.resolver.NamesKnown
        (Workshop.typesOf (Workshop.session cs (.ofResolver (fresh es ds))).1)) ∧
    ∀ (compile : Compiler) (schema : Json) (s : Settings) (commandLine text : String),
      (Document.generateWith compile schema s commandLine).1 = .ok text →
      ∃ ds page, Document.IsText s commandLine ds page text ∧
        ∀ d ∈ ds, ∀ f ∈ d.body.fields, ∀ name ∈ f.type.names,
          (∃ c ∈ ds, c.name = name) ∧
            ∃ word, Declaration.headLine word name ∈ page.lines :=
  ⟨namesKnown_operateAll, namesKnown_session, fun _ _ _ _ _ => exists_headLine_of_generate⟩

/-- A document with an interface that has a field of its own type. -/
def selfReferring : Json :=
  .obj [("definitions", .obj [("a.Foo", .obj [("type", .str "object"),
    ("properties", .obj [("x", .obj [("$ref", .str "#/definitions/a.Foo")])])])])]

/-- A self-reference, and a session in which an emission fails. -/
theorem names_are_declared_selfReferring :
    (Workshop.session [.emit "X" (.given .null) none, .renderShared]
      (.ofResolver (fresh [] .empty))).2.resolver.NamesKnown
      (Workshop.typesOf (Workshop.session [.emit "X" (.given .null) none, .renderShared]
        (.ofResolver (fresh [] .empty))).1) ∧
    ∃ text ds page, (Document.generate selfReferring .usual "").1 = .ok text ∧
      Document.IsText .usual "" ds page text ∧
        ∀ d ∈ ds, ∀ f ∈ d.body.fields, ∀ name ∈ f.type.names,
          (∃ c ∈ ds, c.name = name) ∧
            ∃ word, Declaration.headLine word name ∈ page.lines := by
  have h : (Document.generate selfReferring .usual "").1 = .ok
      ("// Generated by json_schema_to_ts 0.1.0. DO NOT EDIT.\n// \n\n" ++
        "/**\n * @schema a.Foo\n */\nexport interface Foo \x7b\n" ++
        "  /**\n   * @schema a.Foo#x\n   */\n  readonly x?: Foo;\n\n\x7d\n\n") :=
    eq_ok_of_toOption (by decide +kernel)
  obtain ⟨ds, page, ht, hd⟩ := (names_are_declared (ε := Empty)).2.2 _ _ _ _ _ h
  exact ⟨(names_are_declared (ε := Empty)).2.1 [] .empty _ (by simp [isPublic]),
    _, ds, page, h, ht, hd⟩

end SchemaScript
