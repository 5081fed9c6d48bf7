import SchemaScript.Proofs.Emission.Invariants
import SchemaScript.Proofs.PublicRuns

/-!
# Admitted declarations

During a session of public commands no interface, enum or union ever comes into the queue
under a name that is no type name, or for a place that an exclusion hits, whatever the
exclusions test.

The queue itself does not tell all, for an interface of which a field fails is withdrawn
together with everything behind it.  The notes do: one is taken of every declaration that
enters, and none is ever taken back.

## Main definitions

* `Note.IsAdmitted` — the note tells of something that was let through.
* `Resolver.IsGated` — all that was ever queued was let through, and what waits has its note.

## Main results

* `isInvariant_isGated`, `isGated_operateAll` — what emissions and histories keep.
* `session_admits` — what the notes and the queue show in every state of a session.
-/

namespace SchemaScript

/-- The kinds of declarations that emissions make, as notes tell of them. -/
def emittedWords : List String :=
  [(Body.struct [] : Body Empty).word, (Body.enum [] : Body Empty).word,
    (Body.union [] : Body Empty).word]

/-- The note that is taken when the declaration enters the queue. -/
def Declaration.entry {ε : Type} (d : Declaration ε) : Note := .queued d.body.word d.name d.fqn

/-- If the note tells of a declaration that an emission made, then it was let through. -/
def Note.IsAdmitted (es : List Exclusion) : Note → Prop
  | .queued word name fqn => word ∈ emittedWords → IsLetThrough es name fqn
  | _ => True

theorem Note.isAdmitted_of_not_isEntry (es : List Exclusion) {n : Note} (h : n.isEntry = false) :
    n.IsAdmitted es := by
  cases n with
  | queued word name fqn => cases h
  | _ => trivial

namespace Resolver

open Stateful

variable {ε : Type} {es : List Exclusion}

/-- All that was ever queued was let through, and what waits has its note. -/
structure IsGated (es : List Exclusion) (r : Resolver ε) : Prop where
  exclusions : r.exclusions = es
  notes : ∀ n ∈ r.notes, n.IsAdmitted es
  waiting : ∀ e ∈ r.queue.waiting.entries, e.2.entry ∈ r.notes

theorem isGated_fresh (es : List Exclusion) (ds : Definitions) :
    IsGated es (fresh es ds : Resolver ε) where
  exclusions := rfl
  notes := fun _ h => absurd h List.not_mem_nil
  waiting := fun _ h => absurd h List.not_mem_nil

/-! ### Changes of the state -/

namespace IsGated

variable {r r' : Resolver ε}

theorem noted (h : r.IsGated es) {ns : List Note} (hns : ∀ n ∈ ns, n.isEntry = false) :
    (r.noted ns).IsGated es where
  exclusions := h.exclusions
  notes := by
    intro n hn
    rcases List.mem_append.mp hn with hn | hn
    · exact h.notes n hn
    · exact Note.isAdmitted_of_not_isEntry es (hns n hn)
  waiting := fun e he => List.mem_append_left ns (h.waiting e he)

/-- A declaration that enters takes its note along. -/
theorem declared (h : r.IsGated es) {d : Declaration ε} (hd : d.entry.IsAdmitted es) :
    (r.declared d).IsGated es where
  exclusions := h.exclusions
  notes := by
    intro n hn
    rcases List.mem_append.mp hn with hn | hn
    · exact h.notes n hn
    · rw [List.mem_singleton.mp hn]
      exact hd
  waiting := by
    intro e he
    rcases Table.mem_entries_insert he with he | rfl
    · exact List.mem_append_left _ (h.waiting e he)
    · exact List.mem_append_right _ List.mem_cons_self

/-- A declaration is completed under the note of its head. -/
theorem completed (h : r.IsGated es) {d : Declaration ε} (hd : d.entry ∈ r.notes) :
    (r.completed d).IsGated es where
  exclusions := h.exclusions
  notes := h.notes
  waiting := by
    intro e he
    rcases Table.mem_entries_insert he with he | rfl
    · exact h.waiting e he
    · exact hd

/-- What is withdrawn keeps its notes. -/
theorem reverted (hr : r.IsGated es) (h : r'.IsGated es) (hg : Grows r r') :
    (r'.reverted r).IsGated es where
  exclusions := h.exclusions
  notes := by
    intro n hn
    rcases List.mem_append.mp hn with hn | hn
    · exact h.notes n hn
    · split at hn
      · exact absurd hn List.not_mem_nil
      · rw [List.mem_singleton.mp hn]
        trivial
  waiting := by
    intro e he
    rw [hg.reverted_eq.1] at he
    exact List.mem_append_left _ (hg.notes.subset (hr.waiting e he))

theorem retired (h : r.IsGated es) (name : String) : (r.retired name).IsGated es where
  exclusions := h.exclusions
  notes := by
    intro n hn
    rcases List.mem_append.mp hn with hn | hn
    · exact h.notes n hn
    · rw [List.mem_singleton.mp hn]
      trivial
  waiting := by
    intro e he
    have hbefore := (r.queue.waiting.erase_entries_sublist name).subset he
    exact List.mem_append_left _ (h.waiting e hbefore)

end IsGated

/-- **Emissions let nothing past the test.** -/
theorem isInvariant_isGated (es : List Exclusion) :
    IsInvariant (IsGated es : Resolver ε → Prop) where
  marked := fun _ _ h => ⟨h.exclusions, h.notes, h.waiting⟩
  noted := fun h hns => h.noted hns
  declared := by
    intro r d h _ ha _
    rw [h.exclusions] at ha
    exact h.declared fun _ => ha
  completed := by
    intro r r' c fs h _ hc hg
    -- the note of the head is that of the complete interface, too
    have hentry : c.entry ∈ r'.notes :=
      hg.notes.subset (List.mem_append_right _ List.mem_cons_self)
    refine h.completed ?_
    rwa [Declaration.entry, hc] at hentry
  reverted := fun hr h hg => hr.reverted h hg

/-! ### Histories -/

/-- One operation.  A declaration made by hand is let in under any name. -/
theorem isGated_operate (op : Operation ε) {r : Resolver ε} (h : r.IsGated es) :
    (exec (operate op) r).2.IsGated es := by
  cases op with
  | emit typeName node fqn =>
    rw [exec_operate_emit]
    exact keeps_emit (isInvariant_isGated es) typeName node fqn h
  | takeOver name script =>
    rw [exec_operate_takeOver, exec_enqueueCustom]
    dsimp only
    split
    · refine h.declared fun hword => ?_
      simp [emittedWords, Body.word] at hword
    · exact h
  | define name node => exact ⟨h.exclusions, h.notes, h.waiting⟩
  | addAlias name target => exact ⟨h.exclusions, h.notes, h.waiting⟩
  | retire name =>
    rw [exec_operate_retire]
    split
    · exact h.retired name
    · exact h

/-- A whole history. -/
theorem isGated_operateAll (ops : List (Operation ε)) {r : Resolver ε} (h : r.IsGated es) :
    (operateAll ops r).2.IsGated es := by
  induction ops generalizing r with
  | nil => exact h
  | cons op ops ih => exact ih (isGated_operate op h)

end Resolver

/-! ### Sessions -/

namespace Workshop

open Machine Resolver

/-- **What an emission queues is let through.**  In every state of a session of public
commands, each note of an interface, an enum or a union that entered the queue tells of a
type name and of a place that no exclusion hits; each declaration that waits has such a
note, so the same is true of those that wait. -/
theorem session_admits (es : List Exclusion) (ds : Definitions) (cs : List Command)
    (hcs : ∀ c ∈ cs, isPublic c = true) (m : Machine)
    (hm : Reaches (Machine.ofSession cs (.ofResolver (.fresh es ds))) m) :
    (∀ word name fqn, .queued word name fqn ∈ m.workshop.resolver.notes →
      word ∈ emittedWords → Name.IsTypeName name ∧ ∀ e ∈ es, e.hits fqn = false) ∧
    ∀ d ∈ m.queue.declarations,
      .queued d.body.word d.name d.fqn ∈ m.workshop.resolver.notes ∧
        (d.body.word ∈ emittedWords →
          Name.IsTypeName d.name ∧ ∀ e ∈ es, e.hits d.fqn = false) := by
  obtain ⟨⟨ops, hops⟩, -⟩ := (respects_ofSession hcs es ds).exists_operations hm
  have hgated : m.workshop.resolver.IsGated es := by
    rw [← hops]
    exact isGated_operateAll ops (isGated_fresh es ds)
  have hnotes : ∀ word name fqn, .queued word name fqn ∈ m.workshop.resolver.notes →
      word ∈ emittedWords → Name.IsTypeName name ∧ ∀ e ∈ es, e.hits fqn = false :=
    fun word name fqn hn => hgated.notes (.queued word name fqn) hn
  refine ⟨hnotes, fun d hd => ?_⟩
  obtain ⟨e, he, rfl⟩ := List.mem_map.mp hd
  have hentry := hgated.waiting e he
  exact ⟨hentry, hnotes _ _ _ hentry⟩

/-- A session in which an interface fails behind one inside of it, and is emitted again. -/
def retrying : List Command :=
  [.define "a.Foo" (.given (.obj [("properties", .obj [
      ("inner", .obj [("properties", .obj [])]),
      ("other", .obj [("$ref", .str "#/definitions/a.Bar")]),
      ("last", .obj [("$ref", .str "#/definitions/a.Baz")])])])),
    .define "a.Bar" (.given (.obj [("properties", .obj [])])),
    .emitNamed "a.Foo",
    .define "a.Baz" (.given (.obj [("enum", .arr [.str "x"]), ("type", .str "string")])),
    .emitNamed "a.Foo"]

/-- Behind the failure nothing waits, and the notes tell that what was withdrawn was let
through; behind the second emission all but the excluded interface waits. -/
theorem session_admits_retrying :
    let es : List Exclusion := [⟨"Bar", fun name => name == "a.Bar"⟩]
    let failed := (session (retrying.take 3) (.ofResolver (.fresh es .empty))).2
    let emitted := (session retrying (.ofResolver (.fresh es .empty))).2
    (failed.resolver.queue.names = [] ∧
      .queued "StructDeclaration" "AFooInner" "a.Foo.inner" ∈ failed.resolver.notes ∧
        Name.IsTypeName "AFooInner" ∧ ∀ e ∈ es, e.hits "a.Foo.inner" = false) ∧
      emitted.resolver.queue.names = ["Foo", "AFooInner", "Baz"] ∧
        ∀ d ∈ emitted.resolver.queue.declarations, d.body.word ∈ emittedWords →
          Name.IsTypeName d.name ∧ ∀ e ∈ es, e.hits d.fqn = false := by
  intro es failed emitted
  have hfailed := session_admits es .empty (retrying.take 3) (by decide) (.finished failed)
    (reaches_session _ _)
  have hemitted := session_admits es .empty retrying (by decide) (.finished emitted)
    (reaches_session _ _)
  have hnote : .queued "StructDeclaration" "AFooInner" "a.Foo.inner" ∈ failed.resolver.notes := by
    decide +kernel
  refine ⟨⟨by decide +kernel, hnote, hfailed.1 _ _ _ hnote (by decide)⟩, by decide +kernel, ?_⟩
  intro d hd
  exact (hemitted.2 d hd).2

end Workshop
end SchemaScript
