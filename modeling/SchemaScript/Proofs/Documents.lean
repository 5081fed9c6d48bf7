import SchemaScript.Document
import SchemaScript.Proofs.Draining

/-!
# Texts of documents

The text for a document is the comment and then, one after the other, the
declarations that wait once everything asked for is emitted.

## Main definitions

* `Document.IsText` — a text made of the comment and declarations.

## Main results

* `Document.generate_isText` — what the text for a document is made of.
-/

namespace SchemaScript

/-- What has no items has not the shape for them. -/
theorem Json.not_isReported_of_items {v : Json} {e : Failure} (h : v.items = .error e) :
    e.isReported = false := by
  unfold items at h
  split at h <;> cases h
  rfl

namespace Document

open Stateful Resolver

/-! ### Emission -/

section

variable {ε : Type}

/-- A settled state in which nothing has been written yet. -/
structure IsUnwritten (r : Resolver ε) : Prop where
  settled : r.IsSettled
  written : r.queue.written = []

theorem isUnwritten_fresh (es : List Exclusion) (ds : Definitions) :
    IsUnwritten (fresh es ds : Resolver ε) :=
  ⟨isSettled_fresh es ds, rfl⟩

theorem isUnwritten_enterAliases (as : List (String × Json)) {r : Resolver ε}
    (h : IsUnwritten r) : IsUnwritten (exec (enterAliases as) r).2 := by
  induction as generalizing r with
  | nil => exact h
  | cons a as ih => exact ih ⟨h.settled.of_eq rfl rfl rfl, h.written⟩

theorem isUnwritten_emitNamed (name : String) {r : Resolver ε} (h : IsUnwritten r) :
    IsUnwritten (exec (emitNamed name) r).2 := by
  rw [exec_emitNamed]
  exact ⟨isSettled_emit _ _ _ h.settled, (grows_emit _ _ _ r).written.trans h.written⟩

/-- The first of several names, and the others behind it; a failure ends the list. -/
theorem exec_emitAll_cons (name : String) (names : List Json) (r : Resolver ε) :
    exec (emitAll (.str name :: names)) r =
      match exec (emitNamed name) (r.noted [.emitting name (Name.ofDefinition name)]) with
      | (.ok _, r') => exec (emitAll names) r'
      | (.error e, r') => (.error e, r') := by
  rw [emitAll, exec_bind_ok (exec_note _ r), exec_bind]
  rcases exec (emitNamed name) _ with ⟨e | t, r'⟩ <;> rfl

theorem exec_emitAll_cons_eq_ok {name : String} {names : List Json} {r r' : Resolver ε}
    (h : exec (emitAll (.str name :: names)) r = (.ok (), r')) :
    ∃ t r₁, exec (emitNamed name) (r.noted [.emitting name (Name.ofDefinition name)]) =
        (.ok t, r₁) ∧
      exec (emitAll names) r₁ = (.ok (), r') := by
  rw [emitAll, exec_bind_ok (exec_note _ r)] at h
  exact exec_bind_eq_ok h

/-- Emitting several lists of names is emitting one after the other. -/
theorem exec_emitAll_append (names rest : List Json) (r : Resolver ε) :
    exec (emitAll (names ++ rest)) r =
      match exec (emitAll names) r with
      | (.ok _, r') => exec (emitAll rest) r'
      | (.error e, r') => (.error e, r') := by
  induction names generalizing r with
  | nil => rfl
  | cons v names ih =>
    cases v with
    | str name =>
      rw [List.cons_append, exec_emitAll_cons, exec_emitAll_cons]
      rcases exec (emitNamed name) (r.noted [.emitting name (Name.ofDefinition name)])
        with ⟨e | t, r'⟩
      · rfl
      · exact ih r'
    | _ => rfl

theorem grows_emitAll (names : List Json) (r : Resolver ε) :
    Grows r (exec (emitAll names) r).2 := by
  induction names generalizing r with
  | nil => exact Grows.refl r
  | cons v names ih =>
    cases v with
    | str name =>
      let r₁ : Resolver ε := r.noted [.emitting name (Name.ofDefinition name)]
      have hg : Grows r (exec (emitNamed name) r₁).2 :=
        (Grows.noted r _).trans (grows_emitNamed name r₁)
      rw [exec_emitAll_cons]
      rcases hx : exec (emitNamed name) r₁ with ⟨e | t, r'⟩ <;> rw [hx] at hg
      · exact hg
      · exact hg.trans (ih r')
    | _ => exact Grows.refl r

theorem isUnwritten_emitAll (names : List Json) {r : Resolver ε} (h : IsUnwritten r) :
    IsUnwritten (exec (emitAll names) r).2 := by
  induction names generalizing r with
  | nil => exact h
  | cons v names ih =>
    cases v with
    | str name =>
      let r₁ : Resolver ε := r.noted [.emitting name (Name.ofDefinition name)]
      have hn : IsUnwritten r₁ := ⟨h.settled.of_eq rfl rfl rfl, h.written⟩
      have he := isUnwritten_emitNamed name hn
      rw [exec_emitAll_cons]
      -- a failure ends the list, and the state that it leaves is unwritten, too
      rcases hx : exec (emitNamed name) r₁ with ⟨e | t, r'⟩ <;> rw [hx] at he
      · exact he
      · exact ih he
    | _ => exact h

theorem isUnwritten_emitRequests (s : Settings) {r : Resolver ε} (h : IsUnwritten r) :
    IsUnwritten (exec (emitRequests s) r).2 := by
  unfold emitRequests
  cases s.aliases with
  | obj as =>
    have ha := isUnwritten_enterAliases as h
    rw [exec_bind]
    rcases hx : exec (enterAliases as) r with ⟨e | u, r'⟩ <;> rw [hx] at ha
    · exact ha
    · dsimp only
      rw [exec_bind_ok (exec_get r'), exec_bind, exec_lift]
      cases requests r' s.emitTypes with
      | error e => exact ha
      | ok names => exact isUnwritten_emitAll names ha
  | _ => exact h

/-- Before anything is written, what is known waits. -/
theorem IsUnwritten.exists_of_isKnown {r : Resolver ε} (h : IsUnwritten r) {name : String}
    (hk : r.queue.isKnown name = true) : ∃ c ∈ r.queue.declarations, c.name = name := by
  rw [Queue.isKnown, Queue.isWritten, h.written] at hk
  simp only [List.contains_nil, Bool.or_false, Queue.isWaiting] at hk
  obtain ⟨e, he, rfl⟩ := List.mem_map.mp (Table.contains_iff_mem_keys.mp hk)
  exact ⟨e.2, List.mem_map_of_mem he, h.settled.named e he⟩

/-- **Before anything is written, a field refers to waiting declarations only.** -/
theorem IsUnwritten.exists_declaration {r : Resolver ε} (h : IsUnwritten r)
    {d : Declaration ε} (hd : d ∈ r.queue.declarations) {f : Field} (hf : f ∈ d.body.fields)
    {name : String} (hn : name ∈ f.type.names) : ∃ c ∈ r.queue.declarations, c.name = name := by
  obtain ⟨e, he, rfl⟩ := List.mem_map.mp hd
  exact h.exists_of_isKnown (h.settled.closed.fields e he f hf name hn)

end

/-! ### The text -/

/-- The text is the comment and the declarations, written on one page. -/
def IsText (s : Settings) (commandLine : String) (ds : List (Declaration Empty)) (page : Page)
    (text : String) : Prop :=
  exec (writeHeader s commandLine >>= fun _ => Declaration.writeAll ds)
    (Page.blank s.indent.str?) = (.ok (), page) ∧ text = page.text

theorem exec_compose_eq_ok {s : Settings} {commandLine text : String} {r : Resolver Empty}
    {w : Workshop Empty} (hr : IsUnwritten r)
    (h : exec (compose s commandLine) (.ofResolver r) = (.ok text, w)) :
    (exec (emitRequests s) r).1 = .ok () ∧
      ∃ page, IsText s commandLine (exec (emitRequests s) r).2.queue.declarations page text := by
  obtain ⟨_, w₁, h₁, h⟩ := exec_bind_eq_ok h
  rw [Workshop.exec_resolving, Prod.mk.injEq] at h₁
  have hu : IsUnwritten w₁.resolver := by
    rw [← h₁.2]
    exact isUnwritten_emitRequests s hr
  rw [exec_bind_ok (exec_modify _ w₁)] at h
  obtain ⟨_, w₂, h₂, h⟩ := exec_bind_eq_ok h
  obtain ⟨p, hp, rfl⟩ := Workshop.exec_writing_eq_ok h₂
  obtain ⟨_, w₃, h₃, h⟩ := exec_bind_eq_ok h
  have hd : exec (Declaration.writeAll w₁.resolver.queue.declarations) p =
      (.ok (), w₃.shared) := by
    -- in a document there are no scripts at all
    refine Workshop.exec_drain_eq_ok (w := ⟨w₁.resolver, p, w₁.sheet⟩) (fun e _ => ?_)
      hu.settled.nodup h₃
    cases e.2.body.script? with
    | none => rfl
    | some v => exact v.elim
  rw [exec_bind_ok (exec_get w₃), exec_pure, Prod.mk.injEq] at h
  refine ⟨h₁.1, w₃.shared, ?_, (Except.ok.inj h.1).symm⟩
  rw [exec_bind_ok (show exec _ (Page.blank s.indent.str?) = (.ok (), p) from hp)]
  rw [← h₁.2] at hd
  exact hd

section

variable {compile : Compiler}

/-- The resolver of a document is one for exclusions and definitions that could be read. -/
theorem resolver_eq_ok {schema : Json} {s : Settings} {r : Resolver Empty}
    (h : resolver compile schema s = .ok r) :
    ∃ es ds, Exclusion.ofJson compile s.exclude = .ok es ∧
      Definitions.ofJson (schema.get "definitions") = .ok ds ∧ r = fresh es ds := by
  unfold resolver at h
  split at h
  · unfold Resolver.ofJsonWith at h
    cases hes : Exclusion.ofJson compile s.exclude with
    | error e =>
      rw [hes] at h
      cases h
    | ok es =>
      cases hds : Definitions.ofJson (schema.get "definitions") with
      | error e =>
        rw [hes, hds] at h
        cases h
      | ok ds =>
        rw [hes, hds] at h
        cases h
        exact ⟨es, ds, rfl, rfl, rfl⟩
  · cases h

theorem isUnwritten_of_resolver {schema : Json} {s : Settings} {r : Resolver Empty}
    (h : resolver compile schema s = .ok r) : IsUnwritten r := by
  obtain ⟨es, ds, -, -, rfl⟩ := resolver_eq_ok h
  exact isUnwritten_fresh es ds

/-- A text comes from requests that were all emitted. -/
theorem exists_of_generate {schema : Json} {s : Settings} {commandLine text : String}
    (h : (generateWith compile schema s commandLine).1 = .ok text) :
    ∃ r, resolver compile schema s = .ok r ∧ (exec (emitRequests s) r).1 = .ok () ∧
      ∃ page, IsText s commandLine (exec (emitRequests s) r).2.queue.declarations page text := by
  cases hr : resolver compile schema s with
  | error e =>
    simp only [generateWith, hr] at h
    cases h
  | ok r =>
    rcases hx : exec (compose s commandLine) (.ofResolver r) with ⟨o, w⟩
    simp only [generateWith, hr, hx] at h
    rw [h] at hx
    exact ⟨r, rfl, exec_compose_eq_ok (isUnwritten_of_resolver hr) hx⟩

/-- **What the text for a document is made of.**  Every name in the type of a field of a
declaration in it is the name of a declaration in it. -/
theorem generate_isText {schema : Json} {s : Settings} {commandLine text : String}
    (h : (generateWith compile schema s commandLine).1 = .ok text) :
    ∃ ds page, IsText s commandLine ds page text ∧
      ∀ d ∈ ds, ∀ f ∈ d.body.fields, ∀ name ∈ f.type.names, ∃ c ∈ ds, c.name = name := by
  obtain ⟨r, hr, -, page, ht⟩ := exists_of_generate h
  have hu := isUnwritten_emitRequests s (isUnwritten_of_resolver hr)
  exact ⟨_, page, ht, fun d hd f hf name hn => hu.exists_declaration hd hf hn⟩

end

/-! ### Heads of declarations -/

/-- A list of exclusions has items, or what is given has not the shape for it. -/
theorem not_isReported_of_header {commandLine : String} {exclude : Json} {e : Failure}
    (h : header commandLine exclude = .error e) : e.isReported = false := by
  unfold header headerText at h
  dsimp only at h
  split at h
  · cases hitems : exclude.items with
    | ok items =>
      rw [hitems] at h
      cases h
    | error e' =>
      rw [hitems] at h
      cases h
      exact Json.not_isReported_of_items hitems
  · cases h

theorem composed_writeHeader {P : ∀ ⦃α : Type⦄, Writing α → Prop} (hP : Page.IsComposed P)
    (s : Settings) (commandLine : String) : P (writeHeader s commandLine) := by
  have hheader : P (liftM (header commandLine s.exclude) : Writing (List String)) := by
    cases h : header commandLine s.exclude with
    | ok ls => exact hP.pure ls
    | error e => exact hP.throw (not_isReported_of_header h)
  unfold writeHeader
  split
  · refine hP.bind hheader fun ls => ?_
    exact hP.bind (Comment.composed_writeLines hP ls) fun _ => hP.line _
  · exact hP.pure ()

/-- Every declaration in a text has its head and its place there, each on a line of its
own. -/
theorem IsText.isOn {s : Settings} {commandLine text : String} {ds : List (Declaration Empty)}
    {page : Page} (h : IsText s commandLine ds page text) {d : Declaration Empty} (hd : d ∈ ds) :
    d.IsOn page := by
  obtain ⟨_, p, hp, hw⟩ := exec_bind_eq_ok h.1
  exact Declaration.isOn_writeAll
    (composed_writeHeader Page.isComposed_keeps s commandLine _ _ _ hp).depth hw hd

theorem IsText.exists_headLine {s : Settings} {commandLine text : String}
    {ds : List (Declaration Empty)} {page : Page} (h : IsText s commandLine ds page text)
    {d : Declaration Empty} (hd : d ∈ ds) :
    ∃ word, Declaration.headLine word d.name ∈ page.lines :=
  (h.isOn hd).1

end Document
end SchemaScript
