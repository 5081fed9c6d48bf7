import SchemaScript.Proofs.Emission.Growth

/-!
# Expressions stand over known names

A name is handed out before its declaration is complete, and it is remembered in the
expressions of definitions; a failure takes declarations back.  Still every expression
that is kept anywhere, or given as an answer, refers to waiting and written names only.

## Main definitions

* `Resolver.Knows` — all names of an expression are waiting or written.
* `Resolver.IsClosed` — the expressions kept in a state stand over known names.

## Main results

* `isClosed_fresh` — nothing is kept at first.
* `sound_emit` — an emission keeps this up, and its answer stands over known names.
-/

namespace SchemaScript

/-- The fields of an interface; other declarations have none. -/
def Body.fields {ε : Type} : Body ε → List Field
  | struct fields => fields
  | _ => []

namespace Resolver

open Stateful

variable {ε : Type}

/-- The expression stands over names that are waiting or written. -/
def Knows (r : Resolver ε) (t : TypeExpr) : Prop :=
  ∀ name ∈ t.names, r.queue.isKnown name = true

/-- The expressions in the fields of waiting interfaces and those of resolved
definitions stand over known names. -/
structure IsClosed (r : Resolver ε) : Prop where
  fields : ∀ e ∈ r.queue.waiting.entries, ∀ f ∈ e.2.body.fields, r.Knows f.type
  resolved : ∀ e ∈ r.resolved.entries, r.Knows e.2

theorem isClosed_fresh (es : List Exclusion) (ds : Definitions) :
    IsClosed (fresh es ds : Resolver ε) where
  fields := fun _ h => absurd h List.not_mem_nil
  resolved := fun _ h => absurd h List.not_mem_nil

/-! ### Knowing -/

theorem knows_any (r : Resolver ε) : r.Knows .any :=
  fun _ h => absurd h List.not_mem_nil

theorem knows_scalar (r : Resolver ε) (s : Scalar) : r.Knows (.scalar s) :=
  fun _ h => absurd h List.not_mem_nil

theorem knows_named {r : Resolver ε} {name : String} :
    r.Knows (.named name) ↔ r.queue.isKnown name = true := by
  simp [Knows, TypeExpr.names]

theorem Knows.mono {r r' : Resolver ε} {t : TypeExpr} (h : r.Knows t)
    (hk : ∀ name, r.queue.isKnown name = true → r'.queue.isKnown name = true) : r'.Knows t :=
  fun name hn => hk name (h name hn)

theorem Grows.knows {r r' : Resolver ε} {t : TypeExpr} (h : Grows r r') (ht : r.Knows t) :
    r'.Knows t :=
  ht.mono fun _ => h.isKnown

/-- Queue and resolved definitions are all that matters. -/
theorem IsClosed.of_eq {r r' : Resolver ε} (h : r.IsClosed) (hq : r'.queue = r.queue)
    (hr : r'.resolved = r.resolved) : r'.IsClosed where
  fields := by
    intro e he f hf
    rw [hq] at he
    exact (h.fields e he f hf).mono fun name hn => by rwa [hq]
  resolved := by
    intro e he
    rw [hr] at he
    exact (h.resolved e he).mono fun name hn => by rwa [hq]

/-! ### Changes of the queue -/

theorem isKnown_insert {q : Queue ε} {d : Declaration ε} {name : String}
    (h : q.isKnown name = true) :
    ({ q with waiting := q.waiting.insert d.name d } : Queue ε).isKnown name = true := by
  simp only [Queue.isKnown, Queue.isWaiting, Queue.isWritten, Table.contains_insert,
    Bool.or_eq_true] at h ⊢
  exact h.imp_left Or.inr

/-- A declaration whose fields stand over known names can enter or be completed. -/
theorem IsClosed.insert {r r' : Resolver ε} {d : Declaration ε} (h : r.IsClosed)
    (hd : ∀ f ∈ d.body.fields, r.Knows f.type)
    (hq : r'.queue = { r.queue with waiting := r.queue.waiting.insert d.name d })
    (hr : r'.resolved = r.resolved) : r'.IsClosed := by
  have hk : ∀ name, r.queue.isKnown name = true → r'.queue.isKnown name = true := by
    intro name hn
    rw [hq]
    exact isKnown_insert hn
  constructor
  · intro e he f hf
    rw [hq] at he
    rcases Table.mem_entries_insert he with he | rfl
    · exact (h.fields e he f hf).mono hk
    · exact (hd f hf).mono hk
  · intro e he
    rw [hr] at he
    exact (h.resolved e he).mono hk

theorem IsClosed.declared {r : Resolver ε} {d : Declaration ε} (h : r.IsClosed)
    (hd : d.body.fields = []) : (r.declared d).IsClosed :=
  h.insert (d := d) (by simp [hd]) rfl rfl

/-! ### Emission -/

/-- The state after an emission is closed, and its answer stands over known names. -/
def IsSound (o : Except Failure TypeExpr × Resolver ε) : Prop :=
  o.2.IsClosed ∧ ∀ t, o.1 = .ok t → o.2.Knows t

theorem isSound_error {r : Resolver ε} (h : r.IsClosed) (e : Failure) :
    IsSound (.error e, r) :=
  ⟨h, fun _ ht => nomatch ht⟩

theorem isSound_ok {r : Resolver ε} {t : TypeExpr} (h : r.IsClosed) (ht : r.Knows t) :
    IsSound (.ok t, r) := by
  refine ⟨h, ?_⟩
  rintro t' ⟨⟩
  exact ht

/-- An expression built around an answer refers to the same names. -/
theorem IsSound.mapValue {o : Except Failure TypeExpr × Resolver ε} {f : TypeExpr → TypeExpr}
    (h : IsSound o) (hf : ∀ t, (f t).names = t.names) : IsSound (Stateful.mapValue f o) := by
  obtain ⟨e | t, r⟩ := o
  · exact isSound_error h.1 e
  · refine isSound_ok h.1 ?_
    intro name hn
    rw [hf] at hn
    exact h.2 t rfl name hn

/-- Asked in a closed state, the emission is sound. -/
def AlwaysSound (emit : Emitting ε) : Prop :=
  ∀ typeName node fqn (r : Resolver ε), r.IsClosed → IsSound (exec (emit typeName node fqn) r)

/-- What answers a reference is `any`, a remembered expression, or a known name. -/
theorem knows_of_answered {r : Resolver ε} {schema : Json} {fqn : String} {t : TypeExpr}
    {ns : List Note} (h : r.IsClosed) (hr : r.read schema fqn = .answered t ns) :
    r.Knows t := by
  unfold read at hr
  split at hr
  · simp at hr
  · split at hr
    · simp only [Reference.answered.injEq] at hr
      exact hr.1 ▸ knows_any r
    · split at hr
      · next hf =>
        simp only [Reference.answered.injEq] at hr
        exact hr.1 ▸ h.resolved _ (Table.mem_of_find? hf)
      · split at hr
        · simp only [Reference.answered.injEq] at hr
          exact hr.1 ▸ knows_any r
        · split at hr
          · next hk =>
            simp only [Reference.answered.injEq] at hr
            exact hr.1 ▸ knows_named.mpr hk
          · split at hr <;> simp at hr

section

variable {emit : Emitting ε} (hs : AlwaysSound emit)

include hs

theorem sound_emitRef (schema : Json) (fqn : String) {r : Resolver ε} (h : r.IsClosed) :
    IsSound (exec (emitRef emit schema fqn) r) := by
  rw [exec_emitRef]
  cases hr : r.read schema fqn with
  | failed e => exact isSound_error h e
  | answered t ns =>
    exact isSound_ok (h.of_eq rfl rfl) ((knows_of_answered h hr).mono fun _ hn => hn)
  | followed name node place => exact hs name node place r h

theorem sound_emitArray (typeName : String) (schema : Json) (fqn : String) {r : Resolver ε}
    (h : r.IsClosed) : IsSound (exec (emitArray emit typeName schema fqn) r) := by
  rw [exec_emitArray]
  split
  · exact (hs _ _ _ r h).mapValue fun _ => rfl
  · exact isSound_error h _

omit hs in
/-- An enum or a union enters without fields, unless its name is known. -/
theorem isSound_named {r : Resolver ε} {d : Declaration ε} (h : r.IsClosed)
    (hd : d.body.fields = []) : IsSound (.ok (.named d.name), r.declared d) :=
  isSound_ok (h.declared hd) (knows_named.mpr (isKnown_declared r d))

omit hs in
theorem sound_emitUnion (typeName : String) (schema : Json) (fqn : String) {r : Resolver ε}
    (h : r.IsClosed) : IsSound (exec (emitUnion typeName schema fqn) r) := by
  rw [exec_emitUnion]
  split
  · next hk => exact isSound_ok h (knows_named.mpr hk)
  · exact isSound_named (d := ⟨typeName, fqn, _, _, .union (optionTypes schema)⟩) h rfl

omit hs in
theorem sound_emitEnum (typeName : String) (schema : Json) (fqn : String) {r : Resolver ε}
    (h : r.IsClosed) : IsSound (exec (emitEnum typeName schema fqn) r) := by
  obtain ⟨ms, ns, -, he⟩ := exec_emitEnum (ε := ε) typeName schema fqn
  rw [he]
  split
  · next hk => exact isSound_ok h (knows_named.mpr hk)
  · have hn : (r.noted ns).IsClosed := h.of_eq rfl rfl
    cases ms with
    | error e => exact isSound_error hn e
    | ok ms => exact isSound_named (d := ⟨typeName, fqn, _, _, .enum ms⟩) hn rfl

/-- The fields made one after the other all stand over names known at the end. -/
theorem sound_fields (hg : AlwaysGrows emit) (structFqn : String) (struct : Json)
    (ps : List (String × Json)) {r : Resolver ε} (h : r.IsClosed) :
    (exec (fields emit structFqn struct ps) r).2.IsClosed ∧
      ∀ fs, (exec (fields emit structFqn struct ps) r).1 = .ok fs →
        ∀ f ∈ fs, (exec (fields emit structFqn struct ps) r).2.Knows f.type := by
  induction ps generalizing r with
  | nil =>
    refine ⟨h, ?_⟩
    rintro fs ⟨⟩ f hf
    exact absurd hf List.not_mem_nil
  | cons p ps ih =>
    rw [exec_fields_cons]
    split
    · exact ih h
    · rw [exec_field, emitInner]
      have hp := hs (Name.ofPath (structFqn ++ "." ++ Name.fieldName p.1)) (.inline p.2)
        (structFqn ++ "." ++ Name.fieldName p.1) r h
      rcases hx : exec (emit (Name.ofPath (structFqn ++ "." ++ Name.fieldName p.1))
        (.inline p.2) (structFqn ++ "." ++ Name.fieldName p.1)) r with ⟨e | t, r'⟩ <;>
        rw [hx] at hp
      · refine ⟨hp.1, fun fs hfs => ?_⟩
        cases hfs
      · -- later fields know what earlier ones refer to, since names stay known
        obtain ⟨hc, hf⟩ := ih hp.1
        have hgrow := grows_fields hg structFqn struct ps r'
        simp only [Stateful.mapValue, Except.map]
        rcases hy : exec (fields emit structFqn struct ps) r' with ⟨e | fs, r''⟩ <;>
          rw [hy] at hc hf hgrow
        · refine ⟨hc, fun fs hfs => ?_⟩
          cases hfs
        · refine ⟨hc, ?_⟩
          rintro _ ⟨⟩ f hm
          rcases List.mem_cons.mp hm with rfl | hm
          · exact hgrow.knows (hp.2 t rfl)
          · exact hf fs rfl f hm

theorem sound_emitStruct (hg : AlwaysGrows emit) (typeName : String) (schema : Json)
    (fqn : String) {r : Resolver ε} (h : r.IsClosed) :
    IsSound (exec (emitStruct emit typeName schema fqn) r) := by
  rw [exec_emitStruct]
  split
  · next hk => exact isSound_ok h (knows_named.mpr hk)
  · next hk =>
    rw [Bool.not_eq_true] at hk
    let c : Declaration ε := ⟨typeName, fqn, schema.get "description", some schema, .struct []⟩
    have hgrow := grows_fields hg fqn schema (schema.get "properties").fields (r.declared c)
    obtain ⟨hc, hf⟩ := sound_fields hs hg fqn schema (schema.get "properties").fields
      (h.declared (d := c) rfl)
    rcases hx : exec (fields emit fqn schema (schema.get "properties").fields) (r.declared c)
      with ⟨e | fs, r'⟩ <;> rw [hx] at hc hf hgrow
    · -- what refers to the interface is withdrawn together with it
      have hrev := ((grows_declared (d := c) hk rfl).trans hgrow).reverted_eq
      exact isSound_error (h.of_eq hrev.1 hrev.2) e
    · let d : Declaration ε :=
        ⟨typeName, fqn, schema.get "description", some schema, .struct fs⟩
      refine isSound_ok (hc.insert (d := d) (hf fs rfl) rfl rfl) (knows_named.mpr ?_)
      exact isKnown_insert (d := d) (hgrow.isKnown (isKnown_declared r c))

theorem sound_emitKind (hg : AlwaysGrows emit) (kind : Kind) (typeName : String)
    (schema : Json) (fqn : String) {r : Resolver ε} (h : r.IsClosed) :
    IsSound (exec (emitKind emit kind typeName schema fqn) r) := by
  cases kind with
  | ref => exact sound_emitRef hs schema fqn h
  | union => exact sound_emitUnion typeName schema fqn h
  | array => exact sound_emitArray hs typeName schema fqn h
  | enumString => exact sound_emitEnum typeName schema fqn h
  | map =>
    rw [emitKind, exec_emitMap]
    exact (hs _ _ _ r h).mapValue fun _ => rfl
  | struct => exact sound_emitStruct hs hg typeName schema fqn h
  | _ => exact isSound_ok h (knows_any r)

theorem sound_emitDefinition (hg : AlwaysGrows emit) (kind : Kind) (typeName : String)
    (schema : Json) (fqn : String) {r : Resolver ε} (h : r.IsClosed) :
    IsSound (exec (emitDefinition emit kind typeName schema fqn) r) := by
  rw [exec_emitDefinition]
  cases hr : r.resolved.find? typeName with
  | some t => exact isSound_ok h (h.resolved _ (Table.mem_of_find? hr))
  | none =>
    have hk := sound_emitKind hs hg kind typeName schema fqn
      (r := r.opened typeName ⟨fqn, kind⟩) (h.of_eq rfl rfl)
    rcases hx : exec (emitKind emit kind typeName schema fqn) (r.opened typeName ⟨fqn, kind⟩)
      with ⟨o, r'⟩
    rw [hx] at hk
    by_cases hopen : r'.opening.contains typeName = true
    · simp only [hopen, if_true]
      cases o with
      | error e => exact isSound_error (r := r'.closed typeName) (hk.1.of_eq rfl rfl) e
      | ok t =>
        -- the answer is sound inside, and it is what is remembered
        have ht : r'.Knows t := hk.2 t rfl
        refine isSound_ok ⟨hk.1.fields, ?_⟩ ht
        intro e he
        rcases Table.mem_entries_insert he with he | rfl
        · exact hk.1.resolved e he
        · exact ht
    · simp only [hopen, Bool.false_eq_true, if_false]
      exact isSound_error hk.1 _

theorem alwaysSound_emitStep (hg : AlwaysGrows emit) : AlwaysSound (emitStep emit) := by
  intro typeName node fqn r h
  rw [exec_emitStep]
  split
  · exact isSound_error h _
  · split
    · exact isSound_error h _
    · split
      · exact isSound_ok (h.of_eq rfl rfl) (knows_scalar _ _)
      · split
        · exact sound_emitDefinition hs hg _ _ _ _ h
        · exact sound_emitKind hs hg _ _ _ _ h

end

theorem sound_emitWith (n : Nat) : AlwaysSound (emitWith n : Emitting ε) := by
  induction n with
  | zero => exact fun _ _ _ _ h => isSound_error h _
  | succ n ih => exact alwaysSound_emitStep ih (grows_emitWith n)

/-- **An emission leaves no expression over unknown names**, neither in the state nor
in its answer, whether it succeeds or fails. -/
theorem sound_emit (typeName : String) (node : Node) (fqn : Option String) {r : Resolver ε}
    (h : r.IsClosed) : IsSound (exec (emit typeName node fqn) r) := by
  rw [exec_emit]
  exact sound_emitWith _ _ _ _ r h

end Resolver
end SchemaScript
