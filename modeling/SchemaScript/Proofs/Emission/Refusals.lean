import SchemaScript.Proofs.Emission.Failures
import SchemaScript.Proofs.Schemas

/-!
# What emissions refuse

If every schema gives its branches as a list, an emission asked for with a type name refuses
a schema or a request for one of five causes: nothing is defined under the name, an
exclusion hits the place, a reference is no reference to a definition, nothing is defined
under the path of a reference, or the items of an array are not described by one schema.

The other causes are ruled out along the way: the names handed down are type names, what is
classified as an enum lists texts, and the mark taken off a definition is there.

## Main definitions

* `Failure.isRefusal` — the five causes.
* `Schema.HasBranches` — branches are given as a list.
* `Resolver.IsRefused` — if there is no value, it was refused for one of the causes.

## Main results

* `isRefusal_of_emit` — an emission fails for one of the causes only.
-/

namespace SchemaScript

/-- The causes for which a schema or a request is refused. -/
def Failure.isRefusal : Failure → Bool
  | unknownType _ => true
  | typeExcluded _ _ => true
  | invalidReference _ => true
  | unresolvedReference _ _ => true
  | unsupportedArray _ _ => true
  | _ => false

namespace Schema

/-- What is given for branches is a list, or counts as nothing. -/
def HasBranches (schema : Json) : Prop :=
  ((schema.get "oneOf").truthy = true → ∃ options, schema.get "oneOf" = .arr options) ∧
    ((schema.get "anyOf").truthy = true → ∃ options, schema.get "anyOf" = .arr options)

/-- The branches are a list, so they can be looked through. -/
theorem exists_kind {schema : Json} (h : HasBranches schema) :
    ∃ kind, classify schema = .ok kind := by
  have hlist : ∃ options, unionOptions schema = .arr options := by
    unfold unionOptions
    split
    · next ho => exact h.1 ho
    · split
      · next ha => exact h.2 ha
      · exact ⟨[], rfl⟩
  obtain ⟨options, ho⟩ := hlist
  unfold classify
  split
  · exact ⟨_, rfl⟩
  · split
    · exact ⟨_, rfl⟩
    · rw [isPrimitiveUnion, ho]
      exact ⟨_, rfl⟩

/-- What is classified as an enum is an object that lists texts. -/
theorem of_classify_enumString {schema : Json} (h : classify schema = .ok .enumString) :
    schema.isObject = true ∧ (schema.get "type").isStr "string" = true ∧
      isStringEnum schema = true := by
  rcases of_classify h with ⟨hk, -⟩ | ⟨hk, -⟩ | ⟨hk, -⟩ | ⟨hk, ho⟩
  · cases hk
  · cases hk
  · cases hk
  · unfold plainKind at hk
    dsimp only at hk
    split_ifs at hk with _ _ _ _ _ he
    exact ⟨ho, (Bool.and_eq_true _ _).mp he⟩

end Schema

namespace Resolver

open Stateful

variable {ε : Type}

/-- If there is no value, a schema or a request was refused for one of the causes, or the
fuel was used up. -/
def IsRefused {α : Type} (o : Except Failure α) : Prop :=
  ∀ e, o = .error e → e = .outOfFuel ∨ e.isRefusal = true

theorem isRefused_ok {α : Type} (a : α) : IsRefused (.ok a) :=
  fun _ h => nomatch h

theorem isRefused_error {α : Type} {e : Failure} (h : e.isRefusal = true) :
    IsRefused (.error e : Except Failure α) := by
  rintro _ ⟨⟩
  exact Or.inr h

/-- A failure is handed on. -/
theorem IsRefused.error {α β : Type} {e : Failure}
    (h : IsRefused (.error e : Except Failure α)) : IsRefused (.error e : Except Failure β) := by
  rintro _ ⟨⟩
  exact h e rfl

theorem IsRefused.map {α β : Type} {o : Except Failure α} (h : IsRefused o) (f : α → β) :
    IsRefused (o.map f) := by
  cases o with
  | error e => exact h.error
  | ok a => exact isRefused_ok _

/-! ### Enums -/

/-- Texts make members. -/
theorem isRefused_members (typeName fqn : String) {values : List Json}
    (hv : values.all (·.str?.isSome) = true) (used seen : List String) (r : Resolver ε) :
    IsRefused (exec (members typeName fqn used seen values) r).1 := by
  induction values generalizing used seen r with
  | nil => exact isRefused_ok _
  | cons value values ih =>
    rw [List.all_cons, Bool.and_eq_true] at hv
    cases value with
    | str value =>
      rw [members]
      split
      · exact ih hv.2 used seen r
      · dsimp only
        split
        · rw [exec_bind_ok (exec_note _ r), exec_bind_pure]
          exact (ih hv.2 _ _ _).map _
        · rw [exec_bind_pure]
          exact (ih hv.2 _ _ _).map _
    | _ => cases hv.1

/-- What is classified as an enum has values for it. -/
theorem isRefused_emitEnum (typeName : String) {schema : Json}
    (hk : Schema.classify schema = .ok .enumString) (fqn : String) (r : Resolver ε) :
    IsRefused (exec (emitEnum typeName schema fqn) r).1 := by
  obtain ⟨hobj, htype, henum⟩ := Schema.of_classify_enumString hk
  obtain ⟨values, hvalues, hall⟩ : ∃ values, enumValues typeName schema = .ok values ∧
      values.all (·.str?.isSome) = true := by
    unfold Schema.isStringEnum at henum
    cases schema with
    | obj fs =>
      rw [enumValues, htype]
      split at henum
      · next values he =>
        rw [he]
        rw [Bool.and_eq_true] at henum
        cases values with
        | nil => cases henum.1
        | cons v vs => exact ⟨_, rfl, henum.2⟩
      · cases henum
    | _ => cases hobj
  have hm := isRefused_members typeName fqn hall [] [] r
  simp only [emitEnum, exec_bind, exec_get]
  by_cases h : r.queue.isKnown typeName = true
  · simp [h, isRefused_ok]
  · rcases hx : exec (members typeName fqn [] [] values) r with ⟨e | ms, r'⟩ <;> rw [hx] at hm
    · simpa [h, exec_bind, hvalues, hx] using IsRefused.error (β := TypeExpr) hm
    · by_cases ha : r'.queue.accepts typeName false = true <;>
        simp [h, exec_bind, hvalues, hx, exec_enqueue, ha, mapValue, isRefused_ok, Except.map]

/-! ### Emission -/

/-- Asked for with a type name, in a guarded state and for what fits there, the emission
refuses for one of the causes only. -/
def AlwaysRefuses (emit : Emitting ε) : Prop :=
  ∀ typeName node fqn (r : Resolver ε), r.definitions.Distinct →
    r.definitions.Each (Schema.Everywhere Schema.HasBranches) → r.Guarded →
      r.Fits typeName node fqn → Name.IsTypeName typeName →
        Schema.Everywhere Schema.HasBranches node.schema →
          IsRefused (exec (emit typeName node fqn) r).1

section

variable {emit : Emitting ε} (he : AlwaysRefuses emit) {r : Resolver ε}
  (hd : r.definitions.Distinct) (hr : r.definitions.Each (Schema.Everywhere Schema.HasBranches))
  {schema : Json} (hs : Schema.Everywhere Schema.HasBranches schema)

include he hd hr

/-- A reference leads nowhere, or to what is defined under its path. -/
theorem isRefused_emitRef (hg : r.Guarded) (fqn : String) :
    IsRefused (exec (emitRef emit schema fqn) r).1 := by
  rw [exec_emitRef]
  cases hread : r.read schema fqn with
  | failed e =>
    refine isRefused_error ?_
    rcases eq_of_failed hread with ⟨_, rfl⟩ | ⟨_, _, rfl⟩ <;> rfl
  | answered t ns => exact isRefused_ok t
  | followed name node place =>
    obtain ⟨-, path, rfl, rfl, hres, hp⟩ := of_followed hread
    refine he _ _ _ r hd hr hg (fits_of_followed hg hread) (Name.isTypeName_ofDefinition path) ?_
    rw [(Definitions.resolve_eq_ok hp hres).1]
    exact hr path

include hs

theorem isRefused_emitArray (hg : r.Guarded) (hk : Schema.classify schema = .ok .array)
    (typeName fqn : String) : IsRefused (exec (emitArray emit typeName schema fqn) r).1 := by
  rw [exec_emitArray]
  split
  · next hi =>
    exact (he _ _ _ r hd hr hg (fits_inline (isNull_of_isObject hi) _ _)
      (Name.isTypeName_ofPath typeName) (hs.items hk)).map _
  · exact isRefused_error rfl

theorem isRefused_emitMap (hg : r.Guarded) (hk : Schema.classify schema = .ok .map)
    (typeName fqn : String) : IsRefused (exec (emitMap emit typeName schema fqn) r).1 := by
  rw [exec_emitMap]
  exact (he _ _ _ r hd hr hg (fits_inline (isNull_of_isObject (isObject_of_classify_map hk)) _ _)
    (Name.isTypeName_ofPath typeName) (hs.values hk)).map _

section

variable (hgrow : AlwaysGrows emit) (hrestore : AlwaysRestores emit)

include hgrow hrestore

/-- Field after field, each in a state guarded as the one before. -/
theorem isRefused_fields (hk : Schema.classify schema = .ok .struct) (structFqn : String)
    {ps : List (String × Json)} (hps : ∀ p ∈ ps, p ∈ (schema.get "properties").fields)
    (hg : r.Guarded) : IsRefused (exec (fields emit structFqn schema ps) r).1 := by
  induction ps generalizing r with
  | nil => exact isRefused_ok _
  | cons p ps ih =>
    have hrest : ∀ q ∈ ps, q ∈ (schema.get "properties").fields :=
      fun q hq => hps q (List.mem_cons_of_mem p hq)
    rw [exec_fields_cons]
    split
    · exact ih hd hr hrest hg
    · next hx =>
      rw [Bool.not_eq_true] at hx
      let place := structFqn ++ "." ++ Name.fieldName p.1
      have hfits := fits_property hd p.2 (dot_mem_place structFqn (Name.fieldName p.1))
      have hfirst := he (Name.ofPath place) (.inline p.2) place r hd hr hg hfits
        (Name.isTypeName_ofPath place)
        (hs.property hk (Schema.mem_properties.mpr ⟨hps p List.mem_cons_self, hx⟩))
      have hgp := hgrow (Name.ofPath place) (.inline p.2) place r
      have hrp := hrestore (Name.ofPath place) (.inline p.2) place r hd hg hfits
      rw [exec_field, emitInner]
      rcases hexec : exec (emit (Name.ofPath place) (.inline p.2) place) r with ⟨e | t, r'⟩ <;>
        rw [hexec] at hfirst hgp hrp
      · exact IsRefused.error hfirst
      · exact (ih (r := r') (hgp.definitions.symm ▸ hd) (hgp.definitions.symm ▸ hr) hrest
          (hg.grows hgp hrp.opening)).map _

theorem isRefused_emitStruct (hk : Schema.classify schema = .ok .struct) {typeName : String}
    (hg : r.GuardedBut typeName) (fqn : String) :
    IsRefused (exec (emitStruct emit typeName schema fqn) r).1 := by
  rw [exec_emitStruct]
  split
  · exact isRefused_ok _
  · next hnew =>
    rw [Bool.not_eq_true] at hnew
    let c : Declaration ε := ⟨typeName, fqn, schema.get "description", some schema, .struct []⟩
    have hf : IsRefused (exec (fields emit fqn schema (schema.get "properties").fields)
        (r.declared c)).1 :=
      isRefused_fields he (r := r.declared c) hd hr hs hgrow hrestore hk fqn (fun _ hp => hp)
        (GuardedBut.declared (d := c) hg hnew rfl)
    rcases hexec : exec (fields emit fqn schema (schema.get "properties").fields) (r.declared c)
      with ⟨e | fs, r'⟩ <;> rw [hexec] at hf
    · exact IsRefused.error hf
    · exact isRefused_ok _

/-- The kind is the kind of the schema; only an interface may have left its own name
unguarded. -/
theorem isRefused_emitKind {kind : Kind} (hk : Schema.classify schema = .ok kind)
    {typeName : String} (hg : r.GuardedBut typeName) (hg' : kind.isNamed = false → r.Guarded)
    (fqn : String) : IsRefused (exec (emitKind emit kind typeName schema fqn) r).1 := by
  cases kind with
  | ref => exact isRefused_emitRef he hd hr (hg' rfl) fqn
  | union =>
    rw [emitKind, exec_emitUnion]
    exact isRefused_ok _
  | array => exact isRefused_emitArray he hd hr hs (hg' rfl) hk typeName fqn
  | enumString => exact isRefused_emitEnum typeName hk fqn r
  | map => exact isRefused_emitMap he hd hr hs (hg' rfl) hk typeName fqn
  | struct => exact isRefused_emitStruct he hd hr hs hgrow hrestore hk hg fqn
  | _ => exact isRefused_ok _

/-- The mark that is taken off is there. -/
theorem isRefused_emitDefinition {kind : Kind} (hk : Schema.classify schema = .ok kind)
    (hg : r.Guarded) (typeName fqn : String) :
    IsRefused (exec (emitDefinition emit kind typeName schema fqn) r).1 := by
  rw [exec_emitDefinition]
  cases r.resolved.find? typeName with
  | some t => exact isRefused_ok t
  | none =>
    have hin := isRefused_emitKind he (r := r.opened typeName ⟨fqn, kind⟩) hd hr hs hgrow hrestore
      hk (hg.openedBut typeName ⟨fqn, kind⟩) (fun hn => hg.opened (o := ⟨fqn, kind⟩) hn) fqn
    have hopened : (exec (emitKind emit kind typeName schema fqn)
        (r.opened typeName ⟨fqn, kind⟩)).2.opening.contains typeName = true :=
      (restores_opened hrestore hgrow hk hd hg).contains_opened
    rcases hexec : exec (emitKind emit kind typeName schema fqn) (r.opened typeName ⟨fqn, kind⟩)
      with ⟨o, r'⟩
    rw [hexec] at hin hopened
    dsimp only at hin hopened ⊢
    rw [if_pos hopened]
    cases o with
    | ok t => exact isRefused_ok t
    | error e => exact IsRefused.error hin

end
end

theorem alwaysRefuses_emitStep {emit : Emitting ε} (he : AlwaysRefuses emit)
    (hgrow : AlwaysGrows emit) (hrestore : AlwaysRestores emit) :
    AlwaysRefuses (emitStep emit) := by
  intro typeName node fqn r hd hr hg hfits hname hs
  rw [exec_emitStep]
  cases hn : r.nodeFor typeName node with
  | error e =>
    refine isRefused_error ?_
    unfold nodeFor at hn
    dsimp only at hn
    split at hn
    · split at hn
      · cases hn
        rfl
      · cases hn
    · cases hn
  | ok n =>
    have hn' : Schema.Everywhere Schema.HasBranches n.schema := by
      rcases of_nodeFor hn with rfl | ⟨-, rfl⟩
      · exact hs
      · exact hr typeName
    dsimp only
    cases ha : r.admission typeName n (Definitions.withoutStart fqn) with
    | error e =>
      refine isRefused_error ?_
      obtain ⟨kind, hkind⟩ := Schema.exists_kind hn'.here
      rw [admission, if_neg (not_not.mpr hname), hkind] at ha
      split at ha
      · cases ha
        rfl
      · cases ha
    | ok kind =>
      have hk := classify_of_admission ha
      dsimp only
      split
      · exact isRefused_ok _
      · split
        · exact isRefused_emitDefinition he hd hr hn' hgrow hrestore hk hg typeName _
        · exact isRefused_emitKind he hd hr hn' hgrow hrestore hk (hg.but typeName)
            (fun _ => hg) _

theorem alwaysRefuses_emitWith (n : Nat) : AlwaysRefuses (emitWith n : Emitting ε) := by
  induction n with
  | zero =>
    rintro _ _ _ _ _ _ _ _ _ _ _ ⟨⟩
    exact Or.inl rfl
  | succ n ih =>
    exact alwaysRefuses_emitStep ih (grows_emitWith n) (alwaysRestores_emitWith n)

/-- **An emission asked for with a type name fails for one of the five causes only**, if no
definition was open. -/
theorem isRefusal_of_emit {r : Resolver ε} (hd : r.definitions.Distinct)
    (hr : r.definitions.Each (Schema.Everywhere Schema.HasBranches)) (ho : r.opening = .empty)
    {typeName : String} (hname : Name.IsTypeName typeName) {node : Node}
    (hs : Schema.Everywhere Schema.HasBranches node.schema) {fqn : Option String} {e : Failure}
    (h : (exec (emit typeName node fqn) r).1 = .error e) : e.isRefusal = true := by
  have hrefused : IsRefused (exec (emit typeName node fqn) r).1 := by
    rw [exec_emit]
    exact alwaysRefuses_emitWith _ _ _ _ r hd hr (guarded_of_empty ho) (fits_of_empty ho _ _ _)
      hname hs
  rcases hrefused e h with rfl | he
  · -- the fuel is never used up
    cases isRejection_of_emit h
  · exact he

end Resolver
end SchemaScript
