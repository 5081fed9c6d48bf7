import SchemaScript.Proofs.Emission.Growth

/-!
# Invariants of emission

An emission does few things to the state: it takes notes, it declares something under a new
name that was let through, it completes an interface that it has declared, it takes back
all that came behind an interface of which a field failed, and it marks definitions and
remembers their expressions.  What all of these keep, every emission keeps, whether it
fails or not.

That a declaration was let through means that its name is a type name and that no exclusion
hits its place.  The test is made once, before a schema is emitted, but on the names and
places of every schema on the way down: the fields of interfaces, the items of arrays, the
values of maps and what references lead to.

## Main definitions

* `IsLetThrough` — a name and a place are let through.
* `Resolver.IsInvariant` — what the changes of the state keep.

## Main results

* `isInvariant_of_register` — invariants that speak of the queue only.
* `keeps_emitWith`, `keeps_emit` — emissions keep it.
-/

namespace SchemaScript

/-- The name is a type name, and no exclusion hits the place. -/
def IsLetThrough (es : List Exclusion) (name fqn : String) : Prop :=
  Name.IsTypeName name ∧ ∀ e ∈ es, e.hits fqn = false

/-- The note tells of a declaration that entered the queue. -/
def Note.isEntry : Note → Bool
  | .queued _ _ _ => true
  | _ => false

namespace Resolver

open Stateful

variable {ε : Type}

/-- What an emission does to the state keeps the predicate. -/
structure IsInvariant (Q : Resolver ε → Prop) : Prop where
  /-- Marks and expressions do not matter. -/
  marked : ∀ {r : Resolver ε} (opening : Table Opening) (resolved : Table TypeExpr), Q r →
    Q { r with opening := opening, resolved := resolved }
  noted : ∀ {r : Resolver ε} {ns : List Note}, Q r → (∀ n ∈ ns, n.isEntry = false) →
    Q (r.noted ns)
  declared : ∀ {r : Resolver ε} {d : Declaration ε}, Q r → r.queue.isKnown d.name = false →
    IsLetThrough r.exclusions d.name d.fqn → d.body.script? = none → Q (r.declared d)
  /-- An interface gets its fields. -/
  completed : ∀ {r r' : Resolver ε} {c : Declaration ε} (fs : List Field), Q r' →
    r.queue.isKnown c.name = false → c.body = .struct [] → Grows (r.declared c) r' →
      Q (r'.completed { c with body := .struct fs })
  /-- What came since a state is taken back. -/
  reverted : ∀ {r r' : Resolver ε}, Q r → Q r' → Grows r r' → Q (r'.reverted r)

/-! ### Invariants of the queue -/

/-- To declare something new is to register it. -/
theorem queue_declared {r : Resolver ε} {d : Declaration ε}
    (h : r.queue.isKnown d.name = false) :
    (r.declared d).queue = r.queue.register d false := by
  rw [Queue.register, if_pos (accepts_of_not_isKnown h)]
  rfl

/-- To complete an interface that was new is to replace its head. -/
theorem queue_completed {r r' : Resolver ε} {c d : Declaration ε}
    (h : r.queue.isKnown d.name = false) (hg : Grows (r.declared c) r') :
    (r'.completed d).queue = r'.queue.register d true := by
  have hnot : r'.queue.isWritten d.name = false := by
    rw [Queue.isWritten, hg.written]
    exact (Bool.or_eq_false_iff.mp h).2
  rw [Queue.register, if_pos (by simp [Queue.accepts, hnot])]
  rfl

/-- **What registering declarations without scripts keeps**, emissions keep. -/
theorem isInvariant_of_register {Q : Queue ε → Prop}
    (hQ : ∀ q d replace, Q q → d.body.script? = none → Q (q.register d replace)) :
    IsInvariant fun r : Resolver ε => Q r.queue where
  marked := fun _ _ h => h
  noted := fun h _ => h
  declared := fun h hk _ hd => queue_declared hk ▸ hQ _ _ false h hd
  completed := by
    intro r r' c fs h hk _ hg
    rw [queue_completed (d := { c with body := .struct fs }) hk hg]
    exact hQ _ _ true h rfl
  reverted := fun h _ hg => hg.reverted_eq.1.symm ▸ h

/-! ### Emissions -/

/-- Whatever it is asked to emit, the emission keeps the predicate. -/
def AlwaysKeeps (Q : Resolver ε → Prop) (emit : Emitting ε) : Prop :=
  ∀ typeName node fqn r, Q r → Q (exec (emit typeName node fqn) r).2

/-- No note about a reference tells of a declaration. -/
theorem isEntry_of_answered {r : Resolver ε} {schema : Json} {fqn : String} {t : TypeExpr}
    {ns : List Note} (h : r.read schema fqn = .answered t ns) : ∀ n ∈ ns, n.isEntry = false := by
  unfold read at h
  split at h
  · cases h
  · split at h
    · cases h
      simp [Note.isEntry]
    · split at h
      · cases h
        simp
      · split at h
        · cases h
          simp [Note.isEntry]
        · split at h
          · cases h
            simp
          · split at h <;> cases h

/-- What passed the test is let through, at a place of any kind. -/
theorem isLetThrough_of_admission {r : Resolver ε} {typeName : String} {node : Node} {fqn : String}
    {kind : Kind} (h : r.admission typeName node fqn = .ok kind) :
    IsLetThrough r.exclusions typeName fqn := by
  unfold admission at h
  split at h
  · cases h
  · next hname =>
    split at h
    · cases h
    · next hnone =>
      refine ⟨Decidable.not_not.mp hname, fun e he => ?_⟩
      rw [exclusionOf, List.find?_eq_none] at hnone
      simpa using hnone e he

section

variable {Q : Resolver ε → Prop} (hQ : IsInvariant Q) {emit : Emitting ε}
  (he : AlwaysKeeps Q emit) {r : Resolver ε} (hr : Q r)

include hQ he hr

theorem keeps_emitRef (schema : Json) (fqn : String) :
    Q (exec (emitRef emit schema fqn) r).2 := by
  rw [exec_emitRef]
  cases hread : r.read schema fqn with
  | failed e => exact hr
  | answered t ns => exact hQ.noted hr (isEntry_of_answered hread)
  | followed name node place => exact he name node place r hr

omit hQ in
theorem keeps_emitArray (typeName : String) (schema : Json) (fqn : String) :
    Q (exec (emitArray emit typeName schema fqn) r).2 := by
  rw [exec_emitArray]
  split
  · exact he _ _ _ r hr
  · exact hr

omit hQ in
theorem keeps_fields (structFqn : String) (struct : Json) (ps : List (String × Json)) :
    Q (exec (fields emit structFqn struct ps) r).2 := by
  induction ps generalizing r with
  | nil => exact hr
  | cons p ps ih =>
    rw [exec_fields_cons]
    split
    · exact ih hr
    · rw [exec_field, emitInner]
      let place := structFqn ++ "." ++ Name.fieldName p.1
      have h := he (Name.ofPath place) (.inline p.2) place r hr
      rcases hx : exec (emit (Name.ofPath place) (.inline p.2) place) r with ⟨e | t, r'⟩ <;>
        rw [hx] at h
      · exact h
      · exact ih h

variable {typeName fqn : String} (ha : IsLetThrough r.exclusions typeName fqn)

include ha

omit he in
theorem keeps_emitUnion (schema : Json) : Q (exec (emitUnion typeName schema fqn) r).2 := by
  rw [exec_emitUnion]
  dsimp only
  split
  · exact hr
  · next hnew =>
    rw [Bool.not_eq_true] at hnew
    exact hQ.declared (d := ⟨typeName, fqn, _, some schema, .union _⟩) hr hnew ha rfl

omit he in
theorem keeps_emitEnum (schema : Json) : Q (exec (emitEnum typeName schema fqn) r).2 := by
  obtain ⟨ms, ns, hns, h⟩ := exec_emitEnum (ε := ε) typeName schema fqn
  have hnoted : Q (r.noted ns) := by
    refine hQ.noted hr fun n hn => ?_
    have hrenaming := hns n hn
    cases n <;> first | rfl | cases hrenaming
  rw [h]
  split
  · exact hr
  · next hnew =>
    rw [Bool.not_eq_true] at hnew
    cases ms with
    | error e => exact hnoted
    | ok ms =>
      exact hQ.declared (d := ⟨typeName, fqn, _, some schema, .enum ms⟩) hnoted hnew ha rfl

theorem keeps_emitStruct (hgrow : AlwaysGrows emit) (schema : Json) :
    Q (exec (emitStruct emit typeName schema fqn) r).2 := by
  rw [exec_emitStruct]
  split
  · exact hr
  · next hnew =>
    rw [Bool.not_eq_true] at hnew
    let head : Declaration ε := ⟨typeName, fqn, schema.get "description", some schema, .struct []⟩
    have hhead : Q (r.declared head) := hQ.declared hr hnew ha rfl
    have hfields := keeps_fields he hhead fqn schema (schema.get "properties").fields
    have hg := grows_fields hgrow fqn schema (schema.get "properties").fields (r.declared head)
    rcases hx : exec (fields emit fqn schema (schema.get "properties").fields) (r.declared head)
      with ⟨e | fs, r'⟩ <;> rw [hx] at hfields hg
    · exact hQ.reverted hr hfields ((grows_declared (d := head) hnew rfl).trans hg)
    · exact hQ.completed (c := head) fs hfields hnew rfl hg

theorem keeps_emitKind (hgrow : AlwaysGrows emit) (kind : Kind) (schema : Json) :
    Q (exec (emitKind emit kind typeName schema fqn) r).2 := by
  cases kind with
  | ref => exact keeps_emitRef hQ he hr schema fqn
  | union => exact keeps_emitUnion hQ hr ha schema
  | array => exact keeps_emitArray he hr typeName schema fqn
  | enumString => exact keeps_emitEnum hQ hr ha schema
  | map =>
    rw [emitKind, exec_emitMap]
    exact he _ _ _ r hr
  | struct => exact keeps_emitStruct hQ he hr ha hgrow schema
  | _ => exact hr

theorem keeps_emitDefinition (hgrow : AlwaysGrows emit) (kind : Kind) (schema : Json) :
    Q (exec (emitDefinition emit kind typeName schema fqn) r).2 := by
  rw [exec_emitDefinition]
  cases r.resolved.find? typeName with
  | some t => exact hr
  | none =>
    have hopen : Q (r.opened typeName ⟨fqn, kind⟩) := hQ.marked _ r.resolved hr
    have hin := keeps_emitKind hQ he hopen ha hgrow kind schema
    rcases hx : exec (emitKind emit kind typeName schema fqn) (r.opened typeName ⟨fqn, kind⟩)
      with ⟨o, r'⟩
    rw [hx] at hin
    dsimp only
    split
    · cases o with
      | error e => exact hQ.marked (r := r') (r'.opening.erase typeName) r'.resolved hin
      | ok t =>
        exact hQ.marked (r := r') (r'.opening.erase typeName) (r'.resolved.insert typeName t) hin
    · exact hin

end

section

variable {Q : Resolver ε → Prop} (hQ : IsInvariant Q)

include hQ

theorem alwaysKeeps_emitStep {emit : Emitting ε} (he : AlwaysKeeps Q emit)
    (hgrow : AlwaysGrows emit) : AlwaysKeeps Q (emitStep emit) := by
  intro typeName node fqn r hr
  rw [exec_emitStep]
  split
  · exact hr
  · next n _ =>
    split
    · exact hr
    · next kind hadmission =>
      have ha := isLetThrough_of_admission hadmission
      split
      · refine hQ.noted hr ?_
        split <;> simp [Note.isEntry]
      · split
        · exact keeps_emitDefinition hQ he hr ha hgrow kind n.schema
        · exact keeps_emitKind hQ he hr ha hgrow kind n.schema

/-- **Emissions keep what their changes of the state keep**, down to any depth. -/
theorem keeps_emitWith (n : Nat) : AlwaysKeeps Q (emitWith n : Emitting ε) := by
  induction n with
  | zero => exact fun _ _ _ _ hr => hr
  | succ n ih => exact alwaysKeeps_emitStep hQ ih (grows_emitWith n)

theorem keeps_emit (typeName : String) (node : Node) (fqn : Option String) {r : Resolver ε}
    (hr : Q r) : Q (exec (emit typeName node fqn) r).2 := by
  rw [exec_emit]
  exact keeps_emitWith hQ _ _ _ _ r hr

end

end Resolver
end SchemaScript
