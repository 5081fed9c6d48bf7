import SchemaScript.Proofs.Emission.Growth

/-!
# Settled names

A reference is followed only to a name that is not settled: its definition is not
resolved, not open without a declaration, and the name is not known.  Emissions that
succeed settle names and unsettle none.

## Main definitions

* `Resolver.isSettled` — a reference to the name is answered at once.
* `Resolver.Advances` — settled names stay settled.

## Main results

* `not_isSettled_of_followed` — what a reference is followed to is not settled.
* `advances_emitWith` — an emission that succeeds advances.
-/

namespace SchemaScript
namespace Resolver

open Stateful

variable {ε : Type}

/-- A reference to the name is answered at once. -/
def isSettled (r : Resolver ε) (name : String) : Bool :=
  r.resolved.contains name || r.isOpenUnnamed name || r.queue.isKnown name

theorem isSettled_iff {r : Resolver ε} {name : String} :
    r.isSettled name = true ↔ r.resolved.contains name = true ∨ r.isOpenUnnamed name = true ∨
      r.queue.isKnown name = true := by
  rw [isSettled, Bool.or_eq_true, Bool.or_eq_true, or_assoc]

theorem isSettled_of_isKnown {r : Resolver ε} {name : String}
    (h : r.queue.isKnown name = true) : r.isSettled name = true :=
  isSettled_iff.mpr (Or.inr (Or.inr h))

/-- **A reference is followed only to a name that is not settled**, and to what is
defined under the path. -/
theorem of_followed {r : Resolver ε} {schema : Json} {fqn name : String} {node : Node}
    {place : String} (h : r.read schema fqn = .followed name node place) :
    r.isSettled name = false ∧ ∃ path, name = Name.ofDefinition path ∧
      place = Definitions.refTo path ∧ r.definitions.resolve (schema.get "$ref") = .ok node ∧
        Definitions.path? (schema.get "$ref") = some path := by
  -- only the last way of reading follows, behind the tests for a settled name
  unfold read at h
  split at h
  · cases h
  · next path hp =>
    split at h
    · cases h
    · split at h
      · cases h
      · next hr =>
        split at h
        · cases h
        · next hu =>
          split at h
          · cases h
          · next hk =>
            split at h
            · cases h
            · next hn =>
              cases h
              refine ⟨?_, path, rfl, rfl, hn, hp⟩
              rw [Bool.eq_false_iff, Ne, isSettled_iff, Table.contains, hr]
              rintro (hs | hs | hs)
              · exact Bool.false_ne_true hs
              · exact hu hs
              · exact hk hs

/-! ### Advancing -/

/-- Settled names stay settled. -/
def Advances (r r' : Resolver ε) : Prop :=
  ∀ name, r.isSettled name = true → r'.isSettled name = true

theorem Advances.refl (r : Resolver ε) : Advances r r := fun _ h => h

theorem Advances.trans {r r' r'' : Resolver ε} (h : Advances r r') (h' : Advances r' r'') :
    Advances r r'' :=
  fun name hn => h' name (h name hn)

theorem advances_noted (r : Resolver ε) (ns : List Note) : Advances r (r.noted ns) :=
  fun _ h => h

/-- Growth that leaves the open definitions as they are. -/
theorem Grows.advances {r r' : Resolver ε} (h : Grows r r') (ho : r'.opening = r.opening) :
    Advances r r' := by
  intro name hn
  rw [isSettled_iff] at hn ⊢
  rcases hn with hn | hn | hn
  · exact Or.inl (Table.contains_of_prefix h.resolved hn)
  · exact Or.inr (Or.inl (by rwa [isOpenUnnamed, ho]))
  · exact Or.inr (Or.inr (h.isKnown hn))

theorem advances_completed (r : Resolver ε) (d : Declaration ε) :
    Advances r (r.completed d) := by
  intro name hn
  rw [isSettled_iff] at hn ⊢
  refine hn.imp_right (Or.imp_right fun hk => ?_)
  simp only [Queue.isKnown, Queue.isWaiting, Queue.isWritten, completed, Table.contains_insert,
    Bool.or_eq_true] at hk ⊢
  exact hk.imp_left Or.inr

/-- Opening a definition settles or leaves alone every other name. -/
theorem isSettled_opened {r : Resolver ε} {typeName name : String} (o : Opening)
    (hne : name ≠ typeName) : (r.opened typeName o).isSettled name = r.isSettled name := by
  have hopen : (r.opened typeName o).isOpenUnnamed name = r.isOpenUnnamed name := by
    rw [isOpenUnnamed, isOpenUnnamed, opened, Table.find?_insert, if_neg (Ne.symm hne)]
  rw [isSettled, isSettled, hopen]
  rfl

/-- Opening a definition unsettles its own name only. -/
theorem eq_or_isSettled_opened {r : Resolver ε} {typeName name : String} (o : Opening)
    (h : typeName = name ∨ r.isSettled name = true) :
    typeName = name ∨ (r.opened typeName o).isSettled name = true := by
  by_cases hn : typeName = name
  · exact Or.inl hn
  · right
    rw [isSettled_opened o (Ne.symm hn)]
    exact h.resolve_left hn

/-- An open definition without a declaration settles its name. -/
theorem isSettled_opened_self {r : Resolver ε} {typeName : String} {o : Opening}
    (ho : o.kind.isNamed = false) : (r.opened typeName o).isSettled typeName = true := by
  rw [isSettled_iff]
  right
  left
  simp [isOpenUnnamed, opened, Table.find?_insert, ho]

/-- A definition that is resolved settles its name, and leaves the others settled. -/
theorem advances_remembered {r r' : Resolver ε} {typeName : String} {o : Opening} {t : TypeExpr}
    (h : Advances (r.opened typeName o) r') :
    Advances r ((r'.closed typeName).remembered typeName t) := by
  intro name hn
  rw [isSettled_iff]
  -- its own name is settled by being resolved, the others as they were inside
  by_cases hne : name = typeName
  · left
    simp [remembered, hne]
  · rw [← isSettled_opened o hne] at hn
    have hn' := isSettled_iff.mp (h name hn)
    rcases hn' with hr | ho | hk
    · left
      simp only [remembered, closed, Table.contains_insert, hr, Bool.or_true]
    · right
      left
      have hsame : ((r'.closed typeName).remembered typeName t).isOpenUnnamed name =
          r'.isOpenUnnamed name := by
        simp only [isOpenUnnamed, remembered, closed, Table.find?_erase, if_neg hne]
      rw [hsame]
      exact ho
    · exact Or.inr (Or.inr hk)

/-! ### Emission -/

/-- If it succeeds, the emission advances. -/
def AlwaysAdvances (emit : Emitting ε) : Prop :=
  ∀ typeName node fqn (r : Resolver ε) t, (exec (emit typeName node fqn) r).1 = .ok t →
    Advances r (exec (emit typeName node fqn) r).2

section

variable {emit : Emitting ε} (ha : AlwaysAdvances emit)

/-- What was made around a value succeeded if the value did. -/
theorem exists_of_mapValue_ok {α β σ : Type} {f : α → β} {o : Except Failure α × σ} {b : β}
    (h : (mapValue f o).1 = .ok b) : ∃ a, o.1 = .ok a := by
  obtain ⟨e | a, s⟩ := o
  · cases h
  · exact ⟨a, rfl⟩

include ha

theorem advances_emitRef (schema : Json) (fqn : String) (r : Resolver ε) {t : TypeExpr}
    (h : (exec (emitRef emit schema fqn) r).1 = .ok t) :
    Advances r (exec (emitRef emit schema fqn) r).2 := by
  rw [exec_emitRef] at h ⊢
  cases hr : r.read schema fqn with
  | failed e => exact Advances.refl r
  | answered t ns => exact advances_noted r ns
  | followed name node place =>
    rw [hr] at h
    exact ha name node place r t h

theorem advances_emitArray (typeName : String) (schema : Json) (fqn : String) (r : Resolver ε)
    {t : TypeExpr} (h : (exec (emitArray emit typeName schema fqn) r).1 = .ok t) :
    Advances r (exec (emitArray emit typeName schema fqn) r).2 := by
  rw [exec_emitArray] at h ⊢
  split at h
  · next hi =>
    rw [if_pos hi]
    obtain ⟨t', ht⟩ := exists_of_mapValue_ok h
    exact ha _ _ _ r t' ht
  · cases h

theorem advances_emitMap (typeName : String) (schema : Json) (fqn : String) (r : Resolver ε)
    {t : TypeExpr} (h : (exec (emitMap emit typeName schema fqn) r).1 = .ok t) :
    Advances r (exec (emitMap emit typeName schema fqn) r).2 := by
  rw [exec_emitMap] at h ⊢
  obtain ⟨t', ht⟩ := exists_of_mapValue_ok h
  exact ha _ _ _ r t' ht

omit ha in
theorem opening_emitUnion (typeName : String) (schema : Json) (fqn : String) (r : Resolver ε) :
    (exec (emitUnion typeName schema fqn) r).2.opening = r.opening := by
  rw [exec_emitUnion]
  dsimp only
  split <;> rfl

omit ha in
theorem opening_emitEnum (typeName : String) (schema : Json) (fqn : String) (r : Resolver ε) :
    (exec (emitEnum typeName schema fqn) r).2.opening = r.opening := by
  obtain ⟨ms, ns, -, h⟩ := exec_emitEnum (ε := ε) typeName schema fqn
  rw [h]
  split
  · rfl
  · cases ms <;> rfl

theorem advances_fields (structFqn : String) (struct : Json) (ps : List (String × Json))
    (r : Resolver ε) ⦃fs : List Field⦄ (h : (exec (fields emit structFqn struct ps) r).1 = .ok fs) :
    Advances r (exec (fields emit structFqn struct ps) r).2 := by
  induction ps generalizing r fs with
  | nil => exact Advances.refl r
  | cons p ps ih =>
    rw [exec_fields_cons] at h ⊢
    by_cases hx : isExtension p.1 = true
    · rw [if_pos hx] at h ⊢
      exact ih r h
    · rw [if_neg hx] at h ⊢
      rw [exec_field, emitInner] at h ⊢
      let place := structFqn ++ "." ++ Name.fieldName p.1
      have hp := ha (Name.ofPath place) (.inline p.2) place r
      rcases he : exec (emit (Name.ofPath place) (.inline p.2) place) r with ⟨e | t, r'⟩ <;>
        rw [he] at hp h
      · cases h
      · -- the first field advances to where the others begin
        obtain ⟨fs', hfs⟩ := exists_of_mapValue_ok h
        exact (hp t rfl).trans (ih r' hfs)

theorem advances_emitStruct (typeName : String) (schema : Json) (fqn : String) (r : Resolver ε)
    {t : TypeExpr} (h : (exec (emitStruct emit typeName schema fqn) r).1 = .ok t) :
    Advances r (exec (emitStruct emit typeName schema fqn) r).2 := by
  rw [exec_emitStruct] at h ⊢
  by_cases hk : r.queue.isKnown typeName = true
  · rw [if_pos hk]
    exact Advances.refl r
  · rw [if_neg hk] at h ⊢
    rw [Bool.not_eq_true] at hk
    let c : Declaration ε := ⟨typeName, fqn, schema.get "description", some schema, .struct []⟩
    have hf := advances_fields ha fqn schema (schema.get "properties").fields (r.declared c)
    have hc : Advances r (r.declared c) := (grows_declared (d := c) hk rfl).advances rfl
    rcases hx : exec (fields emit fqn schema (schema.get "properties").fields) (r.declared c)
      with ⟨e | fs, r'⟩ <;> rw [hx] at hf h
    · cases h
    · exact (hc.trans (hf rfl)).trans (advances_completed r' _)

theorem advances_emitKind (kind : Kind) (typeName : String) (schema : Json) (fqn : String)
    (r : Resolver ε) ⦃t : TypeExpr⦄
    (h : (exec (emitKind emit kind typeName schema fqn) r).1 = .ok t) :
    Advances r (exec (emitKind emit kind typeName schema fqn) r).2 := by
  cases kind with
  | ref => exact advances_emitRef ha schema fqn r h
  | union =>
    exact (grows_emitUnion typeName schema fqn r).advances (opening_emitUnion typeName schema fqn r)
  | array => exact advances_emitArray ha typeName schema fqn r h
  | enumString =>
    exact (grows_emitEnum typeName schema fqn r).advances (opening_emitEnum typeName schema fqn r)
  | map => exact advances_emitMap ha typeName schema fqn r h
  | struct => exact advances_emitStruct ha typeName schema fqn r h
  | _ => exact Advances.refl r

theorem advances_emitDefinition (kind : Kind) (typeName : String) (schema : Json) (fqn : String)
    (r : Resolver ε) {t : TypeExpr}
    (h : (exec (emitDefinition emit kind typeName schema fqn) r).1 = .ok t) :
    Advances r (exec (emitDefinition emit kind typeName schema fqn) r).2 := by
  rw [exec_emitDefinition] at h ⊢
  cases hr : r.resolved.find? typeName with
  | some t => exact Advances.refl r
  | none =>
    rw [hr] at h
    have hk := advances_emitKind ha kind typeName schema fqn (r.opened typeName ⟨fqn, kind⟩)
    rcases hx : exec (emitKind emit kind typeName schema fqn) (r.opened typeName ⟨fqn, kind⟩)
      with ⟨o, r'⟩
    rw [hx] at hk
    simp only [hx] at h ⊢
    by_cases hopen : r'.opening.contains typeName = true
    · simp only [hopen, if_true] at h ⊢
      cases o with
      | error e => cases h
      | ok t' => exact advances_remembered (hk rfl)
    · simp only [hopen, Bool.false_eq_true, if_false] at h
      cases h

theorem alwaysAdvances_emitStep : AlwaysAdvances (emitStep emit) := by
  intro typeName node fqn r t h
  rw [exec_emitStep] at h ⊢
  cases hn : r.nodeFor typeName node with
  | error e => exact Advances.refl r
  | ok n =>
    simp only [hn] at h ⊢
    cases had : r.admission typeName n (Definitions.withoutStart fqn) with
    | error e => exact Advances.refl r
    | ok kind =>
      simp only [had] at h ⊢
      cases hs : kind.scalar? with
      | some s => exact advances_noted r _
      | none =>
        simp only [hs] at h ⊢
        by_cases hd : r.isDefinition typeName n (Definitions.withoutStart fqn) = true
        · rw [if_pos hd] at h ⊢
          exact advances_emitDefinition ha _ _ _ _ r h
        · rw [if_neg hd] at h ⊢
          exact advances_emitKind ha _ _ _ _ r h

end

/-- **An emission that succeeds unsettles no name.** -/
theorem advances_emitWith (n : Nat) : AlwaysAdvances (emitWith n : Emitting ε) := by
  induction n with
  | zero => exact fun _ _ _ _ _ h => nomatch h
  | succ n ih => exact alwaysAdvances_emitStep ih

theorem advances_emitAt : AlwaysAdvances (emitAt : Emitting ε) := by
  intro typeName node fqn r t h
  rw [emitAt, exec_emit] at h ⊢
  exact advances_emitWith _ _ _ _ r t h

end Resolver
end SchemaScript
