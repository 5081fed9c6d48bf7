import SchemaScript.Proofs.Emission.Outcome
import SchemaScript.Proofs.Table

/-!
# Emission only adds

Whether it succeeds or fails, an emission leaves the definitions, the written names
and everything that was queued and resolved before in place; what is new stands
behind it.  A failing interface cuts the queue and the resolved definitions back to
the sizes they had, and because nothing before was touched this gives back exactly
what there was.

A definition is marked as open while it is emitted, and its expression is entered
when the mark is taken off.  That the entry is a new one, at the end, needs to be
known: `Grows.settled` says that a name that is still open was not resolved meanwhile.

## Main definitions

* `Resolver.Grows` — what an emission can do to the state.

## Main results

* `Grows.reverted_eq` — reverting after growth restores the queue.
* `grows_emitWith`, `grows_emit` — every emission only adds.
-/

namespace SchemaScript
namespace Resolver

open Stateful

variable {ε : Type}

/-- An entry of the queue that an emission can make: under its own name, and not made
by hand. -/
def IsBuilt (e : String × Declaration ε) : Prop :=
  e.2.name = e.1 ∧ e.2.body.script? = none

/-- What an emission can do to the state. -/
structure Grows (r r' : Resolver ε) : Prop where
  exclusions : r'.exclusions = r.exclusions
  definitions : r'.definitions = r.definitions
  written : r'.queue.written = r.queue.written
  /-- New declarations wait behind the old ones. -/
  waiting : ∃ es, r'.queue.waiting.entries = r.queue.waiting.entries ++ es ∧
    ∀ e ∈ es, IsBuilt e
  nodup : r.queue.names.Nodup → r'.queue.names.Nodup
  /-- New expressions stand behind the old ones. -/
  resolved : r.resolved.entries <+: r'.resolved.entries
  /-- No definition stays open that was not open. -/
  opening : ∀ name, r'.opening.contains name = true → r.opening.contains name = true
  /-- What is open now has not been resolved meanwhile. -/
  settled : ∀ name, r'.opening.contains name = true → r'.resolved.contains name = true →
    r.resolved.contains name = true
  notes : r.notes <+: r'.notes

namespace Grows

variable {r r' r'' : Resolver ε}

theorem refl (r : Resolver ε) : Grows r r where
  exclusions := rfl
  definitions := rfl
  written := rfl
  waiting := ⟨[], by simp, by simp⟩
  nodup := id
  resolved := List.prefix_rfl
  opening := fun _ h => h
  settled := fun _ _ h => h
  notes := List.prefix_rfl

theorem trans (h : Grows r r') (h' : Grows r' r'') : Grows r r'' where
  exclusions := h'.exclusions.trans h.exclusions
  definitions := h'.definitions.trans h.definitions
  written := h'.written.trans h.written
  waiting := by
    obtain ⟨es, he, hb⟩ := h.waiting
    obtain ⟨es', he', hb'⟩ := h'.waiting
    refine ⟨es ++ es', by rw [he', he, List.append_assoc], ?_⟩
    intro e hm
    rcases List.mem_append.mp hm with hm | hm
    · exact hb e hm
    · exact hb' e hm
  nodup := fun hn => h'.nodup (h.nodup hn)
  resolved := h.resolved.trans h'.resolved
  opening := fun name hn => h.opening name (h'.opening name hn)
  settled := fun name ho hr =>
    h.settled name (h'.opening name ho) (h'.settled name ho hr)
  notes := h.notes.trans h'.notes

theorem prefix_waiting (h : Grows r r') :
    r.queue.waiting.entries <+: r'.queue.waiting.entries := by
  obtain ⟨es, he, -⟩ := h.waiting
  exact ⟨es, he.symm⟩

/-- A known name stays known. -/
theorem isKnown (h : Grows r r') {name : String} (hk : r.queue.isKnown name = true) :
    r'.queue.isKnown name = true := by
  rw [Queue.isKnown, Bool.or_eq_true] at hk ⊢
  rcases hk with hk | hk
  · exact Or.inl (Table.contains_of_prefix h.prefix_waiting hk)
  · right
    rw [Queue.isWritten, h.written]
    exact hk

theorem noted (r : Resolver ε) (ns : List Note) : Grows r (r.noted ns) :=
  { refl r with notes := List.prefix_append _ _ }

/-- **Reverting restores the queue and the resolved definitions**, since growth leaves
what was there before in place. -/
theorem reverted_eq (h : Grows r r') :
    (r'.reverted r).queue = r.queue ∧ (r'.reverted r).resolved = r.resolved := by
  refine ⟨?_, Table.take_size_of_prefix h.resolved⟩
  have hw : r'.queue.waiting.take r.queue.waiting.size = r.queue.waiting :=
    Table.take_size_of_prefix h.prefix_waiting
  rw [Resolver.reverted, Queue.rollback, Queue.checkpoint, hw, h.written]

theorem reverted (h : Grows r r') : Grows r (r'.reverted r) where
  exclusions := h.exclusions
  definitions := h.definitions
  written := congrArg Queue.written h.reverted_eq.1
  waiting := ⟨[], by rw [h.reverted_eq.1, List.append_nil], by simp⟩
  nodup := fun hn => by rw [h.reverted_eq.1]; exact hn
  resolved := h.reverted_eq.2.symm ▸ List.prefix_rfl
  opening := h.opening
  settled := fun _ _ hr => by rwa [h.reverted_eq.2] at hr
  notes := h.notes.trans (List.prefix_append _ _)

end Grows

/-! ### Declarations -/

/-- A name that is not known does not wait. -/
theorem notMem_keys_of_not_isKnown {q : Queue ε} {name : String} (h : q.isKnown name = false) :
    name ∉ q.waiting.keys := by
  rw [Queue.isKnown, Bool.or_eq_false_iff] at h
  exact Table.contains_eq_false_iff.mp h.1

theorem entries_declared {r : Resolver ε} {d : Declaration ε}
    (h : r.queue.isKnown d.name = false) :
    (r.declared d).queue.waiting.entries = r.queue.waiting.entries ++ [(d.name, d)] :=
  Table.insert_of_notMem d (notMem_keys_of_not_isKnown h)

theorem grows_declared {r : Resolver ε} {d : Declaration ε}
    (h : r.queue.isKnown d.name = false) (hd : d.body.script? = none) :
    Grows r (r.declared d) :=
  { Grows.refl r with
    waiting := by
      refine ⟨_, entries_declared h, ?_⟩
      intro e he
      rw [List.mem_singleton.mp he]
      exact ⟨rfl, hd⟩
    nodup := fun hn => Table.nodup_keys_insert d.name d hn
    notes := List.prefix_append _ _ }

/-- The name of a declaration that entered is known. -/
theorem isKnown_declared (r : Resolver ε) (d : Declaration ε) :
    (r.declared d).queue.isKnown d.name = true := by
  simp [Queue.isKnown, Queue.isWaiting, declared]

/-- The entries after an interface is completed: its head is replaced where it stands. -/
theorem entries_completed {r r' : Resolver ε} {c d : Declaration ε}
    (hk : r.queue.isKnown d.name = false) (hn : c.name = d.name)
    (h : Grows (r.declared c) r') :
    ∃ es, r'.queue.waiting.entries = r.queue.waiting.entries ++ (d.name, c) :: es ∧
      (r'.completed d).queue.waiting.entries =
        r.queue.waiting.entries ++ (d.name, d) :: es ∧ ∀ e ∈ es, IsBuilt e := by
  obtain ⟨es, he, hb⟩ := h.waiting
  rw [entries_declared (hn ▸ hk), List.append_assoc, List.singleton_append, hn] at he
  exact ⟨es, he, Table.insert_of_split d he (notMem_keys_of_not_isKnown hk), hb⟩

theorem grows_completed {r r' : Resolver ε} {c d : Declaration ε}
    (hk : r.queue.isKnown d.name = false) (hn : c.name = d.name)
    (hc : c.body.script? = none) (hd : d.body.script? = none)
    (h : Grows (r.declared c) r') : Grows r (r'.completed d) := by
  obtain ⟨es, -, he, hb⟩ := entries_completed hk hn h
  have hg := (grows_declared (hn ▸ hk) hc).trans h
  exact { hg with
    waiting := by
      refine ⟨_, he, ?_⟩
      intro e hm
      rcases List.mem_cons.mp hm with rfl | hm
      · exact ⟨rfl, hd⟩
      · exact hb e hm
    nodup := fun hnd => Table.nodup_keys_insert d.name d (hg.nodup hnd) }

/-! ### Definitions -/

/-- What an emission inside an open definition did is growth from before the opening,
once the mark is off. -/
theorem grows_closed {r r' : Resolver ε} {typeName : String} {o : Opening}
    (h : Grows (r.opened typeName o) r') : Grows r (r'.closed typeName) := by
  have hopen : ∀ name, (r'.closed typeName).opening.contains name = true →
      name ≠ typeName ∧ r'.opening.contains name = true := by
    intro name hn
    simpa [Resolver.closed] using hn
  exact { h with
    opening := by
      intro name hn
      obtain ⟨hne, hn⟩ := hopen name hn
      simpa [Resolver.opened, hne, Ne.symm hne] using h.opening name hn
    settled := fun name hn hr => h.settled name (hopen name hn).2 hr }

/-- A mark that is gone already leaves nothing to take off. -/
theorem grows_of_gone {r r' : Resolver ε} {typeName : String} {o : Opening}
    (h : Grows (r.opened typeName o) r') (hgone : r'.opening.contains typeName = false) :
    Grows r r' :=
  { h with
    opening := by
      intro name hn
      have hne : name ≠ typeName := by
        rintro rfl
        rw [hgone] at hn
        exact Bool.false_ne_true hn
      simpa [Resolver.opened, hne, Ne.symm hne] using h.opening name hn
    settled := h.settled }

/-- A definition whose mark is still there has not been resolved inside. -/
theorem notMem_resolved_of_open {r r' : Resolver ε} {typeName : String} {o : Opening}
    (h : Grows (r.opened typeName o) r') (hopen : r'.opening.contains typeName = true)
    (hr : r.resolved.find? typeName = none) : typeName ∉ r'.resolved.keys := by
  intro hm
  have := h.settled typeName hopen (Table.contains_iff_mem_keys.mpr hm)
  rw [Table.contains_iff_mem_keys] at this
  exact Table.find?_eq_none_iff.mp hr this

theorem grows_remembered {r r' : Resolver ε} {typeName : String} {t : TypeExpr} {o : Opening}
    (h : Grows (r.opened typeName o) r') (hopen : r'.opening.contains typeName = true)
    (hr : r.resolved.find? typeName = none) :
    Grows r ((r'.closed typeName).remembered typeName t) := by
  have hg := grows_closed h
  have hnew : ((r'.closed typeName).remembered typeName t).resolved.entries =
      r'.resolved.entries ++ [(typeName, t)] :=
    Table.insert_of_notMem t (show typeName ∉ r'.resolved.keys from
      notMem_resolved_of_open h hopen hr)
  exact { hg with
    resolved := by
      rw [hnew]
      exact hg.resolved.trans (List.prefix_append _ _)
    settled := by
      intro name hn hm
      -- the name just remembered is closed, so the claim is about the others
      have hne : name ≠ typeName := by
        rintro rfl
        simp [Resolver.remembered, Resolver.closed] at hn
      refine hg.settled name hn ?_
      simpa [Resolver.remembered, Ne.symm hne] using hm }

/-! ### Emission -/

/-- Whatever it is asked to emit, the emission only adds. -/
def AlwaysGrows (emit : Emitting ε) : Prop :=
  ∀ typeName node fqn (r : Resolver ε), Grows r (exec (emit typeName node fqn) r).2

section

variable {emit : Emitting ε} (he : AlwaysGrows emit)

include he

theorem grows_emitRef (schema : Json) (fqn : String) (r : Resolver ε) :
    Grows r (exec (emitRef emit schema fqn) r).2 := by
  rw [exec_emitRef]
  cases r.read schema fqn with
  | failed e => exact Grows.refl r
  | answered t ns => exact Grows.noted r ns
  | followed name node place => exact he name node place r

theorem grows_emitArray (typeName : String) (schema : Json) (fqn : String) (r : Resolver ε) :
    Grows r (exec (emitArray emit typeName schema fqn) r).2 := by
  rw [exec_emitArray]
  split
  · exact he _ _ _ r
  · exact Grows.refl r

omit he in
theorem grows_emitUnion (typeName : String) (schema : Json) (fqn : String) (r : Resolver ε) :
    Grows r (exec (emitUnion typeName schema fqn) r).2 := by
  rw [exec_emitUnion]
  by_cases h : r.queue.isKnown typeName = true
  · simp only [h, if_true]
    exact Grows.refl r
  · rw [Bool.not_eq_true] at h
    simp only [h, Bool.false_eq_true, if_false]
    exact grows_declared h rfl

omit he in
theorem grows_emitEnum (typeName : String) (schema : Json) (fqn : String) (r : Resolver ε) :
    Grows r (exec (emitEnum typeName schema fqn) r).2 := by
  obtain ⟨ms, ns, -, h⟩ := exec_emitEnum (ε := ε) typeName schema fqn
  rw [h]
  by_cases hk : r.queue.isKnown typeName = true
  · simp only [hk, if_true]
    exact Grows.refl r
  · rw [Bool.not_eq_true] at hk
    simp only [hk, Bool.false_eq_true, if_false]
    cases ms with
    | error e => exact Grows.noted r ns
    | ok ms => exact (Grows.noted r ns).trans (grows_declared hk rfl)

theorem grows_fields (structFqn : String) (struct : Json) (ps : List (String × Json))
    (r : Resolver ε) : Grows r (exec (fields emit structFqn struct ps) r).2 := by
  induction ps generalizing r with
  | nil => exact Grows.refl r
  | cons p ps ih =>
    rw [exec_fields_cons]
    split
    · exact ih r
    · rw [exec_field]
      have h := he (Name.ofPath (structFqn ++ "." ++ Name.fieldName p.1)) (.inline p.2)
        (structFqn ++ "." ++ Name.fieldName p.1) r
      rw [emitInner]
      rcases hx : exec (emit (Name.ofPath (structFqn ++ "." ++ Name.fieldName p.1))
        (.inline p.2) (structFqn ++ "." ++ Name.fieldName p.1)) r with ⟨e | t, r'⟩ <;>
        rw [hx] at h
      · exact h
      · exact h.trans (ih r')

theorem grows_emitStruct (typeName : String) (schema : Json) (fqn : String) (r : Resolver ε) :
    Grows r (exec (emitStruct emit typeName schema fqn) r).2 := by
  rw [exec_emitStruct]
  by_cases hk : r.queue.isKnown typeName = true
  · simp only [hk, if_true]
    exact Grows.refl r
  · -- a new name: the head enters, then what the fields add
    rw [Bool.not_eq_true] at hk
    simp only [hk, Bool.false_eq_true, if_false]
    have h := grows_fields he fqn schema (schema.get "properties").fields
      (r.declared ⟨typeName, fqn, schema.get "description", some schema, .struct []⟩)
    rcases hx : exec (fields emit fqn schema (schema.get "properties").fields)
      (r.declared ⟨typeName, fqn, schema.get "description", some schema, .struct []⟩)
      with ⟨e | fs, r'⟩ <;> rw [hx] at h
    · -- a field failed, and growth up to there is cut back
      have hd := grows_declared (d := ⟨typeName, fqn, schema.get "description", some schema,
        .struct []⟩) hk rfl
      exact (hd.trans h).reverted
    · exact grows_completed (c := ⟨typeName, fqn, schema.get "description", some schema,
        .struct []⟩) (d := ⟨typeName, fqn, schema.get "description", some schema, .struct fs⟩)
        hk rfl rfl rfl h

theorem grows_emitKind (kind : Kind) (typeName : String) (schema : Json) (fqn : String)
    (r : Resolver ε) : Grows r (exec (emitKind emit kind typeName schema fqn) r).2 := by
  cases kind with
  | ref => exact grows_emitRef he schema fqn r
  | union => exact grows_emitUnion typeName schema fqn r
  | array => exact grows_emitArray he typeName schema fqn r
  | enumString => exact grows_emitEnum typeName schema fqn r
  | map =>
    rw [emitKind, exec_emitMap]
    exact he _ _ _ r
  | struct => exact grows_emitStruct he typeName schema fqn r
  | _ => exact Grows.refl r

theorem grows_emitDefinition (kind : Kind) (typeName : String) (schema : Json) (fqn : String)
    (r : Resolver ε) : Grows r (exec (emitDefinition emit kind typeName schema fqn) r).2 := by
  rw [exec_emitDefinition]
  cases hr : r.resolved.find? typeName with
  | some t => exact Grows.refl r
  | none =>
    have h := grows_emitKind he kind typeName schema fqn (r.opened typeName ⟨fqn, kind⟩)
    rcases hx : exec (emitKind emit kind typeName schema fqn) (r.opened typeName ⟨fqn, kind⟩)
      with ⟨o, r'⟩
    rw [hx] at h
    -- what was asked inside can have taken the mark off, as far as is known here
    by_cases hopen : r'.opening.contains typeName = true
    · simp only [hopen, if_true]
      cases o with
      | error e => exact grows_closed h
      | ok t => exact grows_remembered h hopen hr
    · rw [Bool.not_eq_true] at hopen
      simp only [hopen, Bool.false_eq_true, if_false]
      exact grows_of_gone h hopen

theorem alwaysGrows_emitStep : AlwaysGrows (emitStep emit) := by
  intro typeName node fqn r
  rw [exec_emitStep]
  split
  · exact Grows.refl r
  · split
    · exact Grows.refl r
    · split
      · exact Grows.noted r _
      · split
        · exact grows_emitDefinition he _ _ _ _ r
        · exact grows_emitKind he _ _ _ _ r

end

/-- **Every emission only adds**, down to any depth. -/
theorem grows_emitWith (n : Nat) : AlwaysGrows (emitWith n : Emitting ε) := by
  induction n with
  | zero => exact fun _ _ _ r => Grows.refl r
  | succ n ih => exact alwaysGrows_emitStep ih

theorem exec_emit (typeName : String) (node : Node) (fqn : Option String) (r : Resolver ε) :
    exec (emit typeName node fqn) r =
      exec (emitWith (r.fuelFor node) typeName node (fqn.getD typeName)) r := by
  simp only [emit, exec_bind, exec_get]

theorem grows_emit (typeName : String) (node : Node) (fqn : Option String) (r : Resolver ε) :
    Grows r (exec (emit typeName node fqn) r).2 := by
  rw [exec_emit]
  exact grows_emitWith _ _ _ _ r

theorem exec_emitNamed (name : String) (r : Resolver ε) :
    exec (emitNamed name) r =
      exec (emit (Name.ofDefinition name) (r.definitions.node name) (some name)) r := by
  rw [emitNamed, exec_bind_ok (exec_get r)]

theorem grows_emitNamed (name : String) (r : Resolver ε) :
    Grows r (exec (emitNamed name) r).2 := by
  rw [exec_emitNamed]
  exact grows_emit _ _ _ r

/-- Emission at a given place, as the emission to hand down. -/
def emitAt : Emitting ε := fun typeName node fqn => emit typeName node (some fqn)

theorem grows_emitAt : AlwaysGrows (emitAt : Emitting ε) :=
  fun typeName node fqn => grows_emit typeName node (some fqn)

end Resolver
end SchemaScript
