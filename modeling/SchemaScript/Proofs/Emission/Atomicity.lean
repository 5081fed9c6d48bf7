import SchemaScript.Proofs.Definitions
import SchemaScript.Proofs.Emission.Growth

/-!
# Failed emissions leave no trace

An emission that fails leaves the state as it was, apart from the notes.  Only
interfaces and definitions put anything back: an interface cuts queue and resolved
definitions to the sizes they had, a definition takes its own mark off.  That the mark
taken off is the one put on needs an argument: a definition is not entered again while
it is open.

## Main definitions

* `Resolver.Guarded` — no reference leads back into an open definition.
* `Resolver.Fits` — the schema at hand is not the definition of an open name.
* `Resolver.Restores` — what is open stays open, and a failure leaves notes only.

## Main results

* `fits_of_followed`, `fits_inline` — the schemas that a schema leads to fit.
* `restores_emitWith` — every emission restores.
-/

namespace SchemaScript
namespace Resolver

open Stateful

variable {ε : Type}

/-! ### What is open -/

/-- An open definition that is to be declared is declared, but perhaps for the one
under a name. -/
def GuardedBut (typeName : String) (r : Resolver ε) : Prop :=
  ∀ name o, r.opening.find? name = some o → o.kind.isNamed = true →
    name = typeName ∨ r.queue.isKnown name = true

/-- Every open definition that is to be declared is declared. -/
def Guarded (r : Resolver ε) : Prop :=
  ∀ name o, r.opening.find? name = some o → o.kind.isNamed = true →
    r.queue.isKnown name = true

theorem guarded_of_empty {r : Resolver ε} (h : r.opening = .empty) : r.Guarded := by
  intro name o ho
  rw [h] at ho
  cases ho

theorem Guarded.but {r : Resolver ε} (h : r.Guarded) (typeName : String) :
    r.GuardedBut typeName :=
  fun name o ho hk => Or.inr (h name o ho hk)

/-- What is known stays known, and nothing else was opened. -/
theorem Guarded.grows {r r' : Resolver ε} (h : r.Guarded) (hg : Grows r r')
    (ho : r'.opening = r.opening) : r'.Guarded :=
  fun name o hf hk => hg.isKnown (h name o (ho ▸ hf) hk)

/-- Declaring the one that was left out guards all. -/
theorem GuardedBut.declared {r : Resolver ε} {d : Declaration ε} (h : r.GuardedBut d.name)
    (hk : r.queue.isKnown d.name = false) (hd : d.body.script? = none) :
    (r.declared d).Guarded := by
  intro name o ho hn
  rcases h name o ho hn with rfl | hname
  · exact isKnown_declared r d
  · exact (grows_declared hk hd).isKnown hname

theorem Guarded.openedBut {r : Resolver ε} (h : r.Guarded) (typeName : String) (o : Opening) :
    (r.opened typeName o).GuardedBut typeName := by
  intro name p hp hk
  rw [opened, Table.find?_insert] at hp
  by_cases hn : typeName = name
  · exact Or.inl hn.symm
  · rw [if_neg hn] at hp
    exact Or.inr (h name p hp hk)

/-- A definition that is not declared under its own name may be open. -/
theorem Guarded.opened {r : Resolver ε} (h : r.Guarded) {typeName : String} {o : Opening}
    (ho : o.kind.isNamed = false) : (r.opened typeName o).Guarded := by
  intro name p hp hk
  rw [Resolver.opened, Table.find?_insert] at hp
  by_cases hn : typeName = name
  · rw [if_pos hn, Option.some.injEq] at hp
    rw [← hp, ho] at hk
    exact absurd hk Bool.false_ne_true
  · rw [if_neg hn] at hp
    exact h name p hp hk

/-! ### Schemas that fit -/

/-- If the schema at hand is the definition of its place, emitted as itself, then it is
not open. -/
def Fits (r : Resolver ε) (typeName : String) (node : Node) (fqn : String) : Prop :=
  ∀ n, r.nodeFor typeName node = .ok n →
    r.isDefinition typeName n (Definitions.withoutStart fqn) = true →
    r.opening.contains typeName = false

theorem fits_of_empty {r : Resolver ε} (h : r.opening = .empty) (typeName : String)
    (node : Node) (fqn : String) : r.Fits typeName node fqn := by
  intro n _ _
  rw [h]
  rfl

/-- What a reference is followed to is not open: otherwise it would have been answered
at once, as a reference back or by the name. -/
theorem fits_of_followed {r : Resolver ε} (hg : r.Guarded) {schema : Json} {fqn name : String}
    {node : Node} {place : String} (h : r.read schema fqn = .followed name node place) :
    r.Fits name node place := by
  intro n _ _
  unfold read at h
  split at h
  · cases h
  · split at h
    · cases h
    · split at h
      · cases h
      · split at h
        · cases h
        · next hu =>
          split at h
          · cases h
          · next hk =>
            split at h
            · cases h
            · cases h
              cases ho : r.opening.find? (Name.ofDefinition _) with
              | none => rw [Table.contains, ho, Option.isSome_none]
              | some o =>
                -- open and to be declared, it would be declared and known
                refine absurd (hg _ o ho ?_) hk
                simpa [isOpenUnnamed, ho] using hu

/-- A schema written where it stands is no definition, unless it is `null`. -/
theorem not_isDefinition_inline {r : Resolver ε} {schema : Json} (hs : schema.isNull = false)
    {typeName : String} {n : Node} (hn : r.nodeFor typeName (.inline schema) = .ok n)
    (place : String) : r.isDefinition typeName n place = false := by
  rw [nodeFor_of_not_isNull r (n := .inline schema) hs] at hn
  cases hn
  rw [isDefinition, Definitions.holds_inline, Bool.false_and]

/-- In the place of a `null` property stands what is defined under the name made from
the place.  That is not the definition of the place, whose name has a dot. -/
theorem not_isDefinition_property {r : Resolver ε} (hd : r.definitions.Distinct) {schema : Json}
    {fqn : String} (hdot : '.' ∈ fqn.toList) {n : Node}
    (hn : r.nodeFor (Name.ofPath fqn) (.inline schema) = .ok n) :
    r.isDefinition (Name.ofPath fqn) n (Definitions.withoutStart fqn) = false := by
  by_cases hs : schema.isNull = true
  · rw [nodeFor, show (Node.inline schema).schema.isNull = true from hs] at hn
    simp only [if_true] at hn
    split at hn
    · cases hn
    · cases hn
      refine Bool.eq_false_iff.mpr fun h => ?_
      rw [isDefinition, Bool.and_eq_true] at h
      -- the place would be the looked-up name, which has no dot
      have heq := Definitions.eq_of_holds_node hd h.1
      have hmem := Definitions.dot_mem_withoutStart hdot
      rw [heq] at hmem
      exact Name.notMem_ofPath fqn hmem
  · exact not_isDefinition_inline (by rwa [Bool.not_eq_true] at hs) hn _

theorem fits_inline {r : Resolver ε} {schema : Json} (hs : schema.isNull = false)
    (typeName fqn : String) : r.Fits typeName (.inline schema) fqn := by
  intro n hn hd
  rw [not_isDefinition_inline hs hn] at hd
  cases hd

theorem isNull_of_isObject {v : Json} (h : v.isObject = true) : v.isNull = false := by
  cases v <;> first | rfl | cases h

theorem fits_property {r : Resolver ε} (hd : r.definitions.Distinct) (schema : Json)
    {fqn : String} (hdot : '.' ∈ fqn.toList) :
    r.Fits (Name.ofPath fqn) (.inline schema) fqn := by
  intro n hn h
  rw [not_isDefinition_property hd hdot hn] at h
  cases h

/-- The place of a property has a dot. -/
theorem dot_mem_place (structFqn name : String) : '.' ∈ (structFqn ++ "." ++ name).toList := by
  rw [String.toList_append, String.toList_append, List.mem_append, List.mem_append]
  exact Or.inl (Or.inr (by decide))

/-! ### Kinds at hand -/

/-- The kind admitted is the kind of the schema. -/
theorem classify_of_admission {r : Resolver ε} {typeName : String} {node : Node} {fqn : String}
    {kind : Kind} (h : r.admission typeName node fqn = .ok kind) :
    Schema.classify node.schema = .ok kind := by
  unfold admission at h
  split at h
  · cases h
  · split at h
    · cases h
    · exact h

/-- A map describes its values by a schema that is no `null`. -/
theorem isObject_of_classify_map {schema : Json} (h : Schema.classify schema = .ok .map) :
    (schema.get "additionalProperties").isObject = true := by
  unfold Schema.classify at h
  split at h
  · cases h
  · split at h
    · cases h
    · -- a union is told by its options before the plain kinds are tried
      cases hu : Schema.isPrimitiveUnion schema with
      | error e =>
        rw [hu] at h
        cases h
      | ok b =>
        rw [hu] at h
        cases b with
        | true => cases h
        | false =>
          have hk : Schema.plainKind schema = .map := Except.ok.inj h
          unfold Schema.plainKind at hk
          dsimp only at hk
          split_ifs at hk with _ _ _ _ _ _ _ hm
          rw [Schema.isMap, Bool.and_eq_true] at hm
          exact hm.2

/-! ### Emission -/

/-- What was open is open, and a failure left notes only. -/
structure Restores (r : Resolver ε) (o : Except Failure TypeExpr × Resolver ε) : Prop where
  opening : o.2.opening = r.opening
  failed : ∀ e, o.1 = .error e → ∃ ns, o.2 = r.noted ns

theorem restores_ok {r r' : Resolver ε} (h : r'.opening = r.opening) (t : TypeExpr) :
    Restores r (.ok t, r') :=
  ⟨h, fun _ he => nomatch he⟩

theorem restores_error (r : Resolver ε) (ns : List Note) (e : Failure) :
    Restores r (.error e, r.noted ns) :=
  ⟨rfl, fun _ _ => ⟨ns, rfl⟩⟩

theorem restores_error_same (r : Resolver ε) (e : Failure) : Restores r (.error e, r) := by
  have h := restores_error r [] e
  rwa [noted_nil] at h

/-- An expression built around an answer changes no state. -/
theorem Restores.mapValue {r : Resolver ε} {o : Except Failure TypeExpr × Resolver ε}
    (h : Restores r o) (f : TypeExpr → TypeExpr) : Restores r (Stateful.mapValue f o) := by
  obtain ⟨e | t, r'⟩ := o
  · exact ⟨h.opening, fun _ _ => h.failed e rfl⟩
  · exact restores_ok h.opening _

/-- A definition that was opened is open. -/
theorem Restores.contains_opened {r : Resolver ε} {typeName : String} {o : Opening}
    {x : Except Failure TypeExpr × Resolver ε} (h : Restores (r.opened typeName o) x) :
    x.2.opening.contains typeName = true := by
  rw [h.opening, opened, Table.contains_insert, decide_eq_true rfl, Bool.true_or]

/-- Reverting leaves only notes of what was done since. -/
theorem reverted_eq_noted {r r' : Resolver ε} (h : Grows r r') (ho : r'.opening = r.opening) :
    ∃ ns, r'.reverted r = r.noted ns := by
  obtain ⟨ns, hns⟩ := h.reverted.notes
  refine ⟨ns, ?_⟩
  have hd : (r'.reverted r).definitions = r.definitions := h.definitions
  have hx : (r'.reverted r).exclusions = r.exclusions := h.exclusions
  have ho' : (r'.reverted r).opening = r.opening := ho
  obtain ⟨hq, hr⟩ := h.reverted_eq
  rcases hrev : r'.reverted r with ⟨es, ds, q, res, op, notes⟩
  rw [hrev] at hd hx ho' hq hr hns
  subst hd hx ho' hq hr hns
  rfl

/-- Asked in a guarded state for what fits there, the emission restores. -/
def AlwaysRestores (emit : Emitting ε) : Prop :=
  ∀ typeName node fqn (r : Resolver ε), r.definitions.Distinct → r.Guarded →
    r.Fits typeName node fqn → Restores r (exec (emit typeName node fqn) r)

section

variable {emit : Emitting ε} (he : AlwaysRestores emit)

include he

theorem restores_emitRef (schema : Json) (fqn : String) {r : Resolver ε}
    (hd : r.definitions.Distinct) (hg : r.Guarded) :
    Restores r (exec (emitRef emit schema fqn) r) := by
  rw [exec_emitRef]
  cases hr : r.read schema fqn with
  | failed e => exact restores_error_same r e
  | answered t ns =>
    refine restores_ok ?_ t
    rfl
  | followed name node place => exact he name node place r hd hg (fits_of_followed hg hr)

theorem restores_emitArray (typeName : String) (schema : Json) (fqn : String) {r : Resolver ε}
    (hd : r.definitions.Distinct) (hg : r.Guarded) :
    Restores r (exec (emitArray emit typeName schema fqn) r) := by
  rw [exec_emitArray]
  split
  · next hi => exact (he _ _ _ r hd hg (fits_inline (isNull_of_isObject hi) _ _)).mapValue _
  · exact restores_error_same r _

theorem restores_emitMap (typeName : String) {schema : Json} (fqn : String) {r : Resolver ε}
    (hs : (schema.get "additionalProperties").isObject = true)
    (hd : r.definitions.Distinct) (hg : r.Guarded) :
    Restores r (exec (emitMap emit typeName schema fqn) r) := by
  rw [exec_emitMap]
  exact (he _ _ _ r hd hg (fits_inline (isNull_of_isObject hs) _ _)).mapValue _

omit he in
theorem restores_emitUnion (typeName : String) (schema : Json) (fqn : String)
    (r : Resolver ε) : Restores r (exec (emitUnion typeName schema fqn) r) := by
  rw [exec_emitUnion]
  refine restores_ok ?_ _
  split <;> rfl

omit he in
theorem restores_emitEnum (typeName : String) (schema : Json) (fqn : String)
    (r : Resolver ε) : Restores r (exec (emitEnum typeName schema fqn) r) := by
  obtain ⟨ms, ns, -, h⟩ := exec_emitEnum (ε := ε) typeName schema fqn
  rw [h]
  split
  · exact restores_ok rfl _
  · cases ms with
    | error e => exact restores_error r ns e
    | ok ms =>
      refine restores_ok ?_ _
      rfl

/-- Fields leave open what was open, whether they fail or not. -/
theorem opening_fields (hgrow : AlwaysGrows emit) (structFqn : String) (struct : Json)
    (ps : List (String × Json)) {r : Resolver ε} (hd : r.definitions.Distinct)
    (hg : r.Guarded) : (exec (fields emit structFqn struct ps) r).2.opening = r.opening := by
  induction ps generalizing r with
  | nil => rfl
  | cons p ps ih =>
    rw [exec_fields_cons]
    split
    · exact ih hd hg
    · rw [exec_field, emitInner]
      let place := structFqn ++ "." ++ Name.fieldName p.1
      -- the place of a field has a dot, so what stands there fits
      have hp := he (Name.ofPath place) (.inline p.2) place r hd hg
        (fits_property hd p.2 (dot_mem_place structFqn (Name.fieldName p.1)))
      have hgp := hgrow (Name.ofPath place) (.inline p.2) place r
      rcases hx : exec (emit (Name.ofPath place) (.inline p.2) place) r with ⟨e | t, r'⟩ <;>
        rw [hx] at hp hgp
      · exact hp.opening
      · exact (ih (hgp.definitions.symm ▸ hd) (hg.grows hgp hp.opening)).trans hp.opening

theorem restores_emitStruct (hgrow : AlwaysGrows emit) (typeName : String) (schema : Json)
    (fqn : String) {r : Resolver ε} (hd : r.definitions.Distinct)
    (hg : r.GuardedBut typeName) : Restores r (exec (emitStruct emit typeName schema fqn) r) := by
  rw [exec_emitStruct]
  split
  · exact restores_ok rfl _
  · next hk =>
    rw [Bool.not_eq_true] at hk
    let c : Declaration ε := ⟨typeName, fqn, schema.get "description", some schema, .struct []⟩
    have hopen := opening_fields he hgrow fqn schema (schema.get "properties").fields
      (r := r.declared c) hd (GuardedBut.declared (d := c) hg hk rfl)
    have hgf := grows_fields hgrow fqn schema (schema.get "properties").fields (r.declared c)
    rcases hx : exec (fields emit fqn schema (schema.get "properties").fields) (r.declared c)
      with ⟨e | fs, r'⟩ <;> rw [hx] at hopen hgf
    · -- the head and the fields before the failure are reverted, and their notes stay
      obtain ⟨ns, hns⟩ := reverted_eq_noted ((grows_declared (d := c) hk rfl).trans hgf) hopen
      have h := restores_error r ns e
      rwa [← hns] at h
    · refine restores_ok ?_ _
      exact hopen

/-- The kind is the kind of the schema; only an interface may have left its own name
unguarded. -/
theorem restores_emitKind (hgrow : AlwaysGrows emit) {kind : Kind} {typeName : String}
    {schema : Json} {fqn : String} {r : Resolver ε} (hc : Schema.classify schema = .ok kind)
    (hd : r.definitions.Distinct) (hg : r.GuardedBut typeName)
    (hg' : kind.isNamed = false → r.Guarded) :
    Restores r (exec (emitKind emit kind typeName schema fqn) r) := by
  cases kind with
  | ref => exact restores_emitRef he schema fqn hd (hg' rfl)
  | union => exact restores_emitUnion typeName schema fqn r
  | array => exact restores_emitArray he typeName schema fqn hd (hg' rfl)
  | enumString => exact restores_emitEnum typeName schema fqn r
  | map => exact restores_emitMap he typeName fqn (isObject_of_classify_map hc) hd (hg' rfl)
  | struct => exact restores_emitStruct he hgrow typeName schema fqn hd hg
  | _ => exact restores_ok rfl _

theorem restores_opened (hgrow : AlwaysGrows emit) {kind : Kind} {typeName : String}
    {schema : Json} {fqn : String} {r : Resolver ε} (hc : Schema.classify schema = .ok kind)
    (hd : r.definitions.Distinct) (hg : r.Guarded) :
    Restores (r.opened typeName ⟨fqn, kind⟩)
      (exec (emitKind emit kind typeName schema fqn) (r.opened typeName ⟨fqn, kind⟩)) :=
  restores_emitKind he hgrow hc hd (hg.openedBut typeName ⟨fqn, kind⟩) fun hn =>
    hg.opened (o := ⟨fqn, kind⟩) hn

/-- The mark taken off a definition is the one that was put on it. -/
theorem restores_emitDefinition (hgrow : AlwaysGrows emit) {kind : Kind} {typeName : String}
    {schema : Json} {fqn : String} {r : Resolver ε} (hc : Schema.classify schema = .ok kind)
    (hd : r.definitions.Distinct) (hg : r.Guarded)
    (hopen : r.opening.contains typeName = false) :
    Restores r (exec (emitDefinition emit kind typeName schema fqn) r) := by
  rw [exec_emitDefinition]
  cases hr : r.resolved.find? typeName with
  | some t => exact restores_ok rfl t
  | none =>
    have hnew : typeName ∉ r.opening.keys := Table.contains_eq_false_iff.mp hopen
    have hk : Restores (r.opened typeName ⟨fqn, kind⟩)
        (exec (emitKind emit kind typeName schema fqn) (r.opened typeName ⟨fqn, kind⟩)) :=
      restores_opened he hgrow hc hd hg
    have hopened := hk.contains_opened
    rcases hx : exec (emitKind emit kind typeName schema fqn) (r.opened typeName ⟨fqn, kind⟩)
      with ⟨o, r'⟩
    rw [hx] at hk hopened
    have hin : r'.opening = r.opening.insert typeName ⟨fqn, kind⟩ := hk.opening
    have hclosed : (r'.closed typeName).opening = r.opening := by
      rw [closed, hin]
      exact Table.erase_insert _ hnew
    dsimp only at hopened ⊢
    rw [if_pos hopened]
    cases o with
    | ok t =>
      refine restores_ok ?_ t
      exact hclosed
    | error e =>
      -- what failed inside left notes only, so the mark is all there is to undo
      obtain ⟨ns, hns⟩ := hk.failed e rfl
      have hc' : r'.closed typeName = r.noted ns := by
        have hns' : r' = (r.opened typeName ⟨fqn, kind⟩).noted ns := hns
        rw [hns', closed, opened, noted, noted, Table.erase_insert _ hnew]
      show Restores r (.error e, r'.closed typeName)
      rw [hc']
      exact restores_error r ns e

theorem alwaysRestores_emitStep (hgrow : AlwaysGrows emit) : AlwaysRestores (emitStep emit) := by
  intro typeName node fqn r hd hg hfits
  rw [exec_emitStep]
  cases hn : r.nodeFor typeName node with
  | error e => exact restores_error_same r e
  | ok n =>
    dsimp only
    cases ha : r.admission typeName n (Definitions.withoutStart fqn) with
    | error e => exact restores_error_same r e
    | ok kind =>
      dsimp only
      have hc := classify_of_admission ha
      split
      · refine restores_ok ?_ _
        rfl
      · split
        · next hdef =>
          exact restores_emitDefinition he hgrow hc hd hg (hfits n hn hdef)
        · exact restores_emitKind he hgrow hc hd (hg.but typeName) fun _ => hg

end

theorem alwaysRestores_emitWith (n : Nat) : AlwaysRestores (emitWith n : Emitting ε) := by
  induction n with
  | zero => exact fun _ _ _ r _ _ _ => restores_error_same r _
  | succ n ih => exact alwaysRestores_emitStep ih (grows_emitWith n)

theorem restores_emitAt : AlwaysRestores (emitAt : Emitting ε) := by
  intro typeName node fqn r hd hg hfits
  rw [emitAt, exec_emit]
  exact alwaysRestores_emitWith _ _ _ _ r hd hg hfits

/-- **A failed emission leaves nothing but notes**, if no definition was open. -/
theorem restores_emit {r : Resolver ε} (hd : r.definitions.Distinct) (ho : r.opening = .empty)
    (typeName : String) (node : Node) (fqn : Option String) :
    Restores r (exec (emit typeName node fqn) r) := by
  rw [exec_emit]
  exact alwaysRestores_emitWith _ _ _ _ r hd (guarded_of_empty ho) (fits_of_empty ho _ _ _)

end Resolver
end SchemaScript
