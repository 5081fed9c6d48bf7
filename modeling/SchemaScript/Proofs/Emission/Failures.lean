import SchemaScript.Proofs.Emission.Faults
import SchemaScript.Proofs.Emission.Termination

/-!
# How emissions fail

An emission fails for a fault of the schema or the request, or for a mark that is gone.
It never fails because the work set aside for it is used up.  And it fails for a name that is not
written as a type name only if that name was asked for: the emissions that it leads to are all
asked for under type names.

## Main definitions

* `Failure.isRejection` — the causes for which an emission fails.
* `Failure.isMisnaming` — the one that is about the name.
* `Resolver.FailsFor` — the cause is one of some, if there is no value.

## Main results

* `isRejection_of_emit` — an emission fails for no other cause.
* `emission_ends` — emissions end, as the function that steps into itself.
* `of_isMisnaming_of_emit` — the name that is not a type name is the one asked for.
-/

namespace SchemaScript

/-- The causes for which an emission fails. -/
def Failure.isRejection : Failure → Bool
  | unknownType _ => true
  | nameNotNormalized _ _ => true
  | typeExcluded _ _ => true
  | invalidReference _ => true
  | unresolvedReference _ _ => true
  | unsupportedArray _ _ => true
  | invalidEnum _ _ => true
  | nonStringEnumValue _ _ => true
  | illShaped _ => true
  | nameGone _ => true
  | _ => false

/-- The name is not written as a type name. -/
def Failure.isMisnaming : Failure → Bool
  | nameNotNormalized _ _ => true
  | _ => false

namespace Resolver

open Stateful

variable {ε : Type}

/-- If there is no value, the cause is one of these. -/
def FailsFor (P : Failure → Prop) {α : Type} (o : Except Failure α) : Prop :=
  ∀ e, o = .error e → P e

variable {P : Failure → Prop}

theorem failsFor_ok {α : Type} (a : α) : FailsFor P (.ok a) :=
  fun _ h => nomatch h

theorem failsFor_error {α : Type} {e : Failure} (h : P e) :
    FailsFor P (.error e : Except Failure α) := by
  rintro _ ⟨⟩
  exact h

theorem FailsFor.map {α β : Type} {o : Except Failure α} (h : FailsFor P o) (f : α → β) :
    FailsFor P (o.map f) := by
  cases o with
  | error e => exact failsFor_error (h e rfl)
  | ok a => exact failsFor_ok _

/-- All causes for which an emission fails are among these, but for names. -/
def CoversRejections (P : Failure → Prop) : Prop :=
  ∀ e, e.isRejection = true → e.isMisnaming = false → P e

theorem CoversRejections.of_isFault (hP : CoversRejections P) {e : Failure}
    (h : e.isFault = true) : P e := by
  refine hP e ?_ ?_ <;>
    cases e <;> simp_all [Failure.isFault, Failure.isRejection, Failure.isMisnaming]

/-- The name is a type name, or it is among the causes that it is not. -/
def Admits (P : Failure → Prop) (typeName : String) : Prop :=
  Name.IsTypeName typeName ∨ P (.nameNotNormalized typeName (Name.typeName typeName))

theorem failsFor_admission (hP : CoversRejections P) {typeName : String}
    (hname : Admits P typeName) (r : Resolver ε) (node : Node) (fqn : String) :
    FailsFor P (r.admission typeName node fqn) := by
  unfold admission
  split
  · next h => exact failsFor_error (hname.resolve_left h)
  · split
    · exact failsFor_error (hP _ rfl rfl)
    · exact fun e h => hP.of_isFault (Schema.isFault_of_classify h)

/-! ### Emission -/

/-- Under a type name, the emission fails for these causes only. -/
def AlwaysFailsFor (P : Failure → Prop) (emit : Emitting ε) : Prop :=
  ∀ typeName, Name.IsTypeName typeName → ∀ node fqn (r : Resolver ε),
    FailsFor P (exec (emit typeName node fqn) r).1

section

variable {emit : Emitting ε} (hP : CoversRejections P) (he : AlwaysFailsFor P emit)

include he in
/-- What a schema inside another one is emitted under is a type name. -/
theorem failsFor_emitInner (seed : String) (schema : Json) (fqn : String) (r : Resolver ε) :
    FailsFor P (exec (emitInner emit seed schema fqn) r).1 :=
  he _ (Name.isTypeName_ofPath seed) _ _ r

include hP he

/-- What a reference is followed to is emitted under a type name, too. -/
theorem failsFor_emitRef (schema : Json) (fqn : String) (r : Resolver ε) :
    FailsFor P (exec (emitRef emit schema fqn) r).1 := by
  rw [exec_emitRef]
  cases hr : r.read schema fqn with
  | failed e =>
    refine failsFor_error ?_
    rcases eq_of_failed hr with ⟨_, rfl⟩ | ⟨_, _, rfl⟩ <;> exact hP _ rfl rfl
  | answered t ns => exact failsFor_ok t
  | followed name node place =>
    obtain ⟨-, path, rfl, -⟩ := of_followed hr
    exact he _ (Name.isTypeName_ofDefinition path) node place r

theorem failsFor_emitArray (typeName : String) (schema : Json) (fqn : String)
    (r : Resolver ε) : FailsFor P (exec (emitArray emit typeName schema fqn) r).1 := by
  rw [exec_emitArray]
  split
  · exact (failsFor_emitInner he _ _ _ r).map _
  · exact failsFor_error (hP _ rfl rfl)

omit hP in
theorem failsFor_fields (structFqn : String) (struct : Json) (ps : List (String × Json))
    (r : Resolver ε) : FailsFor P (exec (fields emit structFqn struct ps) r).1 := by
  induction ps generalizing r with
  | nil => exact failsFor_ok _
  | cons p ps ih =>
    rw [exec_fields_cons]
    split
    · exact ih r
    · have hf : FailsFor P (exec (field emit structFqn struct p.1 p.2) r).1 := by
        rw [exec_field]
        exact (failsFor_emitInner he _ _ _ r).map _
      rcases hx : exec (field emit structFqn struct p.1 p.2) r with ⟨e | f, r'⟩ <;> rw [hx] at hf
      · exact failsFor_error (hf e rfl)
      · exact (ih r').map _

omit hP in
theorem failsFor_emitStruct (typeName : String) (schema : Json) (fqn : String)
    (r : Resolver ε) : FailsFor P (exec (emitStruct emit typeName schema fqn) r).1 := by
  rw [exec_emitStruct]
  split
  · exact failsFor_ok _
  · let c : Declaration ε := ⟨typeName, fqn, schema.get "description", some schema, .struct []⟩
    have hf := failsFor_fields he fqn schema (schema.get "properties").fields (r.declared c)
    rcases hx : exec (fields emit fqn schema (schema.get "properties").fields) (r.declared c)
      with ⟨e | fs, r'⟩ <;> rw [hx] at hf
    · exact failsFor_error (hf e rfl)
    · exact failsFor_ok _

theorem failsFor_emitKind (kind : Kind) (typeName : String) (schema : Json) (fqn : String)
    (r : Resolver ε) : FailsFor P (exec (emitKind emit kind typeName schema fqn) r).1 := by
  cases kind with
  | ref => exact failsFor_emitRef hP he schema fqn r
  | union =>
    rw [emitKind, exec_emitUnion]
    exact failsFor_ok _
  | array => exact failsFor_emitArray hP he typeName schema fqn r
  | enumString => exact fun e h => hP.of_isFault (isFault_of_emitEnum h)
  | map =>
    rw [emitKind, exec_emitMap]
    exact (failsFor_emitInner he _ _ _ r).map _
  | struct => exact failsFor_emitStruct he typeName schema fqn r
  | _ => exact failsFor_ok _

theorem failsFor_emitDefinition (kind : Kind) (typeName : String) (schema : Json)
    (fqn : String) (r : Resolver ε) :
    FailsFor P (exec (emitDefinition emit kind typeName schema fqn) r).1 := by
  rw [exec_emitDefinition]
  cases r.resolved.find? typeName with
  | some t => exact failsFor_ok t
  | none =>
    have hk := failsFor_emitKind hP he kind typeName schema fqn (r.opened typeName ⟨fqn, kind⟩)
    rcases hx : exec (emitKind emit kind typeName schema fqn) (r.opened typeName ⟨fqn, kind⟩)
      with ⟨o, r'⟩
    rw [hx] at hk
    dsimp only
    split
    · cases o with
      | ok t => exact failsFor_ok t
      | error e => exact failsFor_error (hk e rfl)
    · exact failsFor_error (hP _ rfl rfl)

/-- One step asks for no emission but under type names, so it can only be the name that it is
taken under itself that is none. -/
theorem failsFor_emitStep {typeName : String} (hname : Admits P typeName) (node : Node)
    (fqn : String) (r : Resolver ε) :
    FailsFor P (exec (emitStep emit typeName node fqn) r).1 := by
  rw [exec_emitStep]
  cases hn : r.nodeFor typeName node with
  | error e => exact failsFor_error (hP.of_isFault (isFault_of_nodeFor hn))
  | ok n =>
    dsimp only
    cases ha : r.admission typeName n (Definitions.withoutStart fqn) with
    | error e => exact failsFor_error (failsFor_admission hP hname r n _ e ha)
    | ok kind =>
      dsimp only
      split
      · exact failsFor_ok _
      · split
        · exact failsFor_emitDefinition hP he _ _ _ _ r
        · exact failsFor_emitKind hP he _ _ _ _ r

theorem alwaysFailsFor_emitOver (n : Nat) : AlwaysFailsFor P (emitOver emit n) := by
  induction n with
  | zero => exact he
  | succ n ih => exact fun typeName hname => failsFor_emitStep hP ih (Or.inl hname)

end

/-- **An emission fails for such causes only**, since nothing beyond the fuel is asked. -/
theorem failsFor_emit (hP : CoversRejections P) {typeName : String} (hname : Admits P typeName)
    (node : Node) (fqn : Option String) (r : Resolver ε) :
    FailsFor P (exec (emit typeName node fqn) r).1 := by
  -- an emission that always succeeds stands in for the depths never reached
  let beyond : Emitting ε := fun _ _ _ => pure .any
  have hbeyond : AlwaysFailsFor P beyond := fun _ _ _ _ _ => failsFor_ok _
  have hat : AlwaysFailsFor P (emitAt : Emitting ε) := by
    intro name hn n place s
    rw [emitAt, ← exec_emitOver beyond s name n (some place) (Nat.le_refl _)]
    exact alwaysFailsFor_emitOver hP hbeyond _ name hn n _ s
  rw [exec_emit_eq_step]
  exact failsFor_emitStep hP hat hname node _ r

/-- **An emission fails for a fault of the schema or the request only.** -/
theorem isRejection_of_emit {r : Resolver ε} {typeName : String} {node : Node}
    {fqn : Option String} {e : Failure} (h : (exec (emit typeName node fqn) r).1 = .error e) :
    e.isRejection = true :=
  failsFor_emit (P := (·.isRejection = true)) (fun _ hrejection _ => hrejection) (Or.inr rfl)
    node fqn r e h

/-- **No emission on the way fails for its name.**  If one fails for a name, then the name is the
one that was asked for, and it is no type name. -/
theorem of_isMisnaming_of_emit {r : Resolver ε} {typeName : String} {node : Node}
    {fqn : Option String} {e : Failure} (h : (exec (emit typeName node fqn) r).1 = .error e)
    (he : e.isMisnaming = true) :
    ¬ Name.IsTypeName typeName ∧ e = .nameNotNormalized typeName (Name.typeName typeName) := by
  let P : Failure → Prop := fun e => e.isMisnaming = true →
    ¬ Name.IsTypeName typeName ∧ e = .nameNotNormalized typeName (Name.typeName typeName)
  have hP : CoversRejections P := by
    intro e _ hno hyes
    rw [hno] at hyes
    cases hyes
  have hname : Admits P typeName := by
    by_cases hn : Name.IsTypeName typeName
    · exact Or.inl hn
    · exact Or.inr fun _ => ⟨hn, rfl⟩
  exact failsFor_emit hP hname node fqn r e h he

/-- **Emissions end.**  No emission is asked for at a depth beyond the fuel, whatever
would be done there; what is given is what stepping into emission itself gives; and a
failure is for a fault of the schema or the request. -/
theorem emission_ends (r : Resolver ε) (typeName : String) (node : Node) (fqn : Option String) :
    (∀ (beyond : Emitting ε) (n : Nat),
      exec (emitOver beyond (r.fuelFor node + n) typeName node (fqn.getD typeName)) r =
        exec (emit typeName node fqn) r) ∧
    exec (emit typeName node fqn) r =
      exec (emitStep emitAt typeName node (fqn.getD typeName)) r ∧
    ((∃ t, (exec (emit typeName node fqn) r).1 = .ok t) ∨
      ∃ e, (exec (emit typeName node fqn) r).1 = .error e ∧ e.isRejection = true) := by
  refine ⟨fun beyond n => exec_emitOver beyond r typeName node fqn (Nat.le_add_right _ n),
    exec_emit_eq_step r typeName node fqn, ?_⟩
  cases h : (exec (emit typeName node fqn) r).1 with
  | ok t => exact Or.inl ⟨t, rfl⟩
  | error e => exact Or.inr ⟨e, rfl, isRejection_of_emit h⟩

end Resolver
end SchemaScript
