import SchemaScript.Proofs.Emission.Termination

/-!
# Two runs side by side

An emission with an alias open and the same emission without it go the same way.  They
part only at a reference to the alias: there the one run is stopped, while the other
follows the alias to its target, which is settled, and is back at once.

What the runs find is compared as far as it decides how they go on: the names that are
declared and the names that are resolved, but not the types of fields.  An expression
may differ only once something is declared or resolved; until then the runs give the
same one.

## Main definitions

* `IsAlias` — a definition that is a reference to another one.
* `Resolver.Beside` — the states of the two runs.
* `Resolver.Alike` — the outcomes of the two runs.

## Main results

* `exec_emit_definition` — a definition emitted as itself.
* `alike_emit` — the two runs have outcomes alike.
-/

namespace SchemaScript

/-- A reference as a schema. -/
def reference (name : String) : Json := .obj [("$ref", .str (Definitions.refTo name))]

/-- The name is defined as a reference to the target, and no exclusion hits it. -/
structure IsAlias (es : List Exclusion) (ds : Definitions) (synonym target : String) : Prop where
  schema : (ds.node synonym).schema = reference target
  admitted : es.find? (·.hits synonym) = none

namespace Resolver

open Stateful

variable {ε : Type}

/-! ### Definitions emitted as themselves -/

@[simp] theorem path?_reference (name : String) :
    Definitions.path? ((reference name).get "$ref") = some name :=
  Definitions.path?_refTo name

/-- What is defined under a name, emitted as the definition that it is. -/
theorem exec_emit_definition {r : Resolver ε} {name : String} {kind : Kind}
    (hs : (r.definitions.node name).schema.isNull = false)
    (ha : r.admission (Name.ofDefinition name) (r.definitions.node name) name = .ok kind)
    (hk : kind.scalar? = none) :
    exec (emitAt (Name.ofDefinition name) (r.definitions.node name) (Definitions.refTo name)) r =
      exec (emitDefinition emitAt kind (Name.ofDefinition name) (r.definitions.node name).schema
        name) r := by
  rw [emitAt, exec_emit_eq_step, exec_emitStep, nodeFor_of_not_isNull r hs]
  simp only [Option.getD_some, Definitions.withoutStart_refTo, ha, hk, isDefinition_node hs,
    if_true]

/-- A synonym, emitted as the definition that it is. -/
theorem exec_emit_synonym {r : Resolver ε} {synonym target : String}
    (hal : IsAlias r.exclusions r.definitions synonym target) :
    exec (emitAt (Name.ofDefinition synonym) (r.definitions.node synonym)
        (Definitions.refTo synonym)) r =
      exec (emitDefinition emitAt .ref (Name.ofDefinition synonym) (reference target) synonym)
        r := by
  have hadm : r.admission (Name.ofDefinition synonym) (r.definitions.node synonym) synonym =
      .ok .ref := by
    rw [admission, if_neg (not_not.mpr (Name.isTypeName_ofDefinition synonym)), exclusionOf,
      hal.admitted, hal.schema]
    rfl
  rw [exec_emit_definition (by rw [hal.schema]; rfl) hadm rfl, hal.schema]

/-- A reference to a settled name is answered. -/
theorem read_of_isSettled {r : Resolver ε} {schema : Json} {path : String}
    (hp : Definitions.path? (schema.get "$ref") = some path)
    (hs : r.isSettled (Name.ofDefinition path) = true) (fqn : String) :
    ∃ t ns, r.read schema fqn = .answered t ns := by
  cases hr : r.read schema fqn with
  | answered t ns => exact ⟨t, ns, rfl⟩
  | followed name node place =>
    obtain ⟨hu, path', rfl, -, -, hp'⟩ := of_followed hr
    rw [hp, Option.some.injEq] at hp'
    rw [← hp', hs] at hu
    cases hu
  | failed e =>
    -- reading fails only behind all the tests for a settled name
    rw [isSettled_iff, Table.contains] at hs
    unfold read at hr
    rw [hp] at hr
    dsimp only at hr
    split at hr
    · cases hr
    · split at hr
      · cases hr
      · next hres =>
        rw [hres] at hs
        rcases hs with hs | hs | hs
        · cases hs
        · rw [if_pos hs] at hr
          cases hr
        · split at hr
          · cases hr
          · cases hr

/-- A reference to an open definition without a declaration, which is not resolved, is
answered by `any`. -/
theorem read_of_isOpenUnnamed {r : Resolver ε} {schema : Json} {path : String}
    (hp : Definitions.path? (schema.get "$ref") = some path)
    (hr : r.resolved.find? (Name.ofDefinition path) = none)
    (ho : r.isOpenUnnamed (Name.ofDefinition path) = true) (fqn : String) :
    ∃ ns, r.read schema fqn = .answered .any ns := by
  unfold read
  rw [hp]
  dsimp only
  split
  · exact ⟨_, rfl⟩
  · rw [hr]
    exact ⟨_, rfl⟩

/-! ### States of the two runs -/

/-- The first state has the synonym open, the second has not; what decides how a run goes
on is the same otherwise. -/
structure Beside (es : List Exclusion) (ds : Definitions) (synonym : String)
    (a b : Resolver ε) : Prop where
  exclusions : a.exclusions = es ∧ b.exclusions = es
  definitions : a.definitions = ds ∧ b.definitions = ds
  names : a.queue.waiting.keys = b.queue.waiting.keys
  written : a.queue.written = b.queue.written
  resolved : ∀ name, name ≠ Name.ofDefinition synonym →
    a.resolved.contains name = b.resolved.contains name
  opening : ∀ name, name ≠ Name.ofDefinition synonym →
    a.opening.find? name = b.opening.find? name
  unresolved : a.resolved.find? (Name.ofDefinition synonym) = none
  barred : a.isOpenUnnamed (Name.ofDefinition synonym) = true
  free : b.opening.find? (Name.ofDefinition synonym) = none

/-- Nothing is resolved or declared yet. -/
def IsEarly (a b : Resolver ε) : Prop :=
  a.resolved = .empty ∧ b.resolved = .empty ∧ b.queue = .empty

namespace Beside

variable {es : List Exclusion} {ds : Definitions} {synonym : String} {a b : Resolver ε}

theorem isExcluded (h : Beside es ds synonym a b) (name : String) :
    a.isExcluded name = b.isExcluded name := by
  rw [Resolver.isExcluded, Resolver.isExcluded, exclusionOf, exclusionOf, h.exclusions.1,
    h.exclusions.2]

theorem isKnown (h : Beside es ds synonym a b) (name : String) :
    a.queue.isKnown name = b.queue.isKnown name := by
  have hw : a.queue.isWaiting name = b.queue.isWaiting name := by
    rw [Queue.isWaiting, Queue.isWaiting, Bool.eq_iff_iff, Table.contains_iff_mem_keys,
      Table.contains_iff_mem_keys, h.names]
  rw [Queue.isKnown, Queue.isKnown, hw, Queue.isWritten, Queue.isWritten, h.written]

theorem isOpenUnnamed (h : Beside es ds synonym a b) {name : String}
    (hn : name ≠ Name.ofDefinition synonym) : a.isOpenUnnamed name = b.isOpenUnnamed name := by
  rw [Resolver.isOpenUnnamed, Resolver.isOpenUnnamed, h.opening name hn]

theorem nodeFor (h : Beside es ds synonym a b) (typeName : String) (node : Node) :
    a.nodeFor typeName node = b.nodeFor typeName node := by
  rw [Resolver.nodeFor, Resolver.nodeFor, h.definitions.1, h.definitions.2]

theorem admission (h : Beside es ds synonym a b) (typeName : String) (node : Node)
    (fqn : String) : a.admission typeName node fqn = b.admission typeName node fqn := by
  rw [Resolver.admission, Resolver.admission, exclusionOf, exclusionOf, h.exclusions.1,
    h.exclusions.2]

theorem isDefinition (h : Beside es ds synonym a b) (typeName : String) (node : Node)
    (fqn : String) : a.isDefinition typeName node fqn = b.isDefinition typeName node fqn := by
  rw [Resolver.isDefinition, Resolver.isDefinition, h.definitions.1, h.definitions.2]

theorem noted (h : Beside es ds synonym a b) (ns ns' : List Note) :
    Beside es ds synonym (a.noted ns) (b.noted ns') :=
  { h with }

/-- Declarations of one name enter, or take the place of those that wait. -/
theorem insert (h : Beside es ds synonym a b) {d d' : Declaration ε} (hn : d.name = d'.name) :
    (a.queue.waiting.insert d.name d).keys = (b.queue.waiting.insert d'.name d').keys := by
  rw [Table.keys_insert, Table.keys_insert, h.names, hn]

theorem declared (h : Beside es ds synonym a b) {d d' : Declaration ε} (hn : d.name = d'.name) :
    Beside es ds synonym (a.declared d) (b.declared d') :=
  { h with names := h.insert hn }

theorem completed (h : Beside es ds synonym a b) {d d' : Declaration ε} (hn : d.name = d'.name) :
    Beside es ds synonym (a.completed d) (b.completed d') :=
  { h with names := h.insert hn }

theorem opened (h : Beside es ds synonym a b) {typeName : String} (o : Opening)
    (hn : typeName ≠ Name.ofDefinition synonym) :
    Beside es ds synonym (a.opened typeName o) (b.opened typeName o) :=
  { h with
    opening := by
      intro name hname
      rw [Resolver.opened, Resolver.opened, Table.find?_insert, Table.find?_insert,
        h.opening name hname]
    barred := by
      rw [Resolver.isOpenUnnamed, Resolver.opened, Table.find?_insert, if_neg hn]
      exact h.barred
    free := by
      rw [Resolver.opened, Table.find?_insert, if_neg hn]
      exact h.free }

/-- A definition other than the synonym is closed, and its expressions are remembered. -/
theorem remembered (h : Beside es ds synonym a b) {typeName : String}
    (hn : typeName ≠ Name.ofDefinition synonym) (t u : TypeExpr) :
    Beside es ds synonym ((a.closed typeName).remembered typeName t)
      ((b.closed typeName).remembered typeName u) :=
  { h with
    resolved := by
      intro name hname
      simp only [Resolver.remembered, Resolver.closed, Table.contains_insert,
        h.resolved name hname]
    opening := by
      intro name hname
      simp only [Resolver.remembered, Resolver.closed, Table.find?_erase, h.opening name hname]
    unresolved := by
      simp only [Resolver.remembered, Resolver.closed, Table.find?_insert, if_neg hn]
      exact h.unresolved
    barred := by
      simp only [Resolver.isOpenUnnamed, Resolver.remembered, Resolver.closed,
        Table.find?_erase, if_neg (Ne.symm hn)]
      exact h.barred
    free := by
      simp only [Resolver.remembered, Resolver.closed, Table.find?_erase, if_neg (Ne.symm hn)]
      exact h.free }

/-- The second run went to the target by the synonym and came back. -/
theorem back (h : Beside es ds synonym a b) (o : Opening) (ns ns' : List Note) (u : TypeExpr) :
    Beside es ds synonym (a.noted ns)
      ((((b.opened (Name.ofDefinition synonym) o).noted ns').closed
        (Name.ofDefinition synonym)).remembered (Name.ofDefinition synonym) u) :=
  { h with
    resolved := by
      intro name hname
      rw [Resolver.remembered, Table.contains_insert, decide_eq_false (Ne.symm hname),
        Bool.false_or]
      exact h.resolved name hname
    opening := by
      intro name hname
      simp only [Resolver.remembered, Resolver.closed, Resolver.noted, Resolver.opened,
        Table.find?_erase, Table.find?_insert, if_neg hname, if_neg (Ne.symm hname)]
      exact h.opening name hname
    free := by
      simp only [Resolver.remembered, Resolver.closed, Table.find?_erase, if_true] }

/-- What is guarded in the first run is guarded in the second. -/
theorem guarded (h : Beside es ds synonym a b) (hg : a.Guarded) : b.Guarded := by
  intro name o ho hk
  have hn : name ≠ Name.ofDefinition synonym := by
    rintro rfl
    rw [h.free] at ho
    cases ho
  rw [← h.isKnown]
  exact hg name o ((h.opening name hn).trans ho) hk

/-- What is not open in the first run is not the synonym, nor is it open in the second. -/
theorem contains_opening (h : Beside es ds synonym a b) {name : String}
    (ho : a.opening.contains name = false) :
    name ≠ Name.ofDefinition synonym ∧ b.opening.contains name = false := by
  have hn : name ≠ Name.ofDefinition synonym := by
    rintro rfl
    have hb := h.barred
    rw [Table.contains, Option.isSome_eq_false_iff, Option.isNone_iff_eq_none] at ho
    rw [Resolver.isOpenUnnamed, ho] at hb
    cases hb
  refine ⟨hn, ?_⟩
  rw [← ho, Table.contains, Table.contains, h.opening name hn]

/-- Another name is resolved in both runs or in neither. -/
theorem find?_resolved (h : Beside es ds synonym a b) {name : String}
    (hn : name ≠ Name.ofDefinition synonym) :
    (a.resolved.find? name = none ∧ b.resolved.find? name = none) ∨
      ∃ t u, a.resolved.find? name = some t ∧ b.resolved.find? name = some u ∧
        ¬ IsEarly a b := by
  have hr := h.resolved name hn
  rw [Table.contains, Table.contains] at hr
  cases ha : a.resolved.find? name with
  | none =>
    rw [ha, Option.isSome_none, eq_comm, Option.isSome_eq_false_iff,
      Option.isNone_iff_eq_none] at hr
    exact Or.inl ⟨rfl, hr⟩
  | some t =>
    rw [ha, Option.isSome_some] at hr
    obtain ⟨u, hu⟩ := Option.isSome_iff_exists.mp hr.symm
    refine Or.inr ⟨t, u, rfl, hu, fun he => ?_⟩
    rw [he.1] at ha
    cases ha

/-- A reference to another name is read alike. -/
theorem read_of_ne (h : Beside es ds synonym a b) {schema : Json} {path : String}
    (hp : Definitions.path? (schema.get "$ref") = some path)
    (hn : Name.ofDefinition path ≠ Name.ofDefinition synonym) (fqn : String) :
    (∃ e, a.read schema fqn = .failed e ∧ b.read schema fqn = .failed e) ∨
      (∃ t u ns ns', a.read schema fqn = .answered t ns ∧ b.read schema fqn = .answered u ns' ∧
        (IsEarly a b → t = u)) ∨
      ∃ name node place, a.read schema fqn = .followed name node place ∧
        b.read schema fqn = .followed name node place := by
  unfold Resolver.read
  simp only [hp, h.isExcluded, h.isOpenUnnamed hn, h.isKnown, h.definitions.1, h.definitions.2]
  split
  · exact Or.inr (Or.inl ⟨_, _, _, _, rfl, rfl, fun _ => rfl⟩)
  · rcases h.find?_resolved hn with ⟨ha, hb⟩ | ⟨t, u, ha, hb, hlate⟩
    · rw [ha, hb]
      dsimp only
      split
      · exact Or.inr (Or.inl ⟨_, _, _, _, rfl, rfl, fun _ => rfl⟩)
      · split
        · exact Or.inr (Or.inl ⟨_, _, _, _, rfl, rfl, fun _ => rfl⟩)
        · cases ds.resolve (schema.get "$ref") with
          | error e => exact Or.inl ⟨e, rfl, rfl⟩
          | ok node => exact Or.inr (Or.inr ⟨_, _, _, rfl, rfl⟩)
    · rw [ha, hb]
      exact Or.inr (Or.inl ⟨_, _, _, _, rfl, rfl, fun he => absurd he hlate⟩)

/-- Under the type name of the synonym the first run is stopped, unless an exclusion hits
and stops both. -/
theorem read_barred (h : Beside es ds synonym a b) {schema : Json} {path : String}
    (hp : Definitions.path? (schema.get "$ref") = some path)
    (hn : Name.ofDefinition path = Name.ofDefinition synonym) (fqn : String) :
    (∃ ns, a.read schema fqn = .answered .any ns ∧ b.read schema fqn = .answered .any ns) ∨
      a.read schema fqn =
        .answered .any [.recursiveReference (Definitions.refTo path) a.opening.entries] := by
  unfold Resolver.read
  simp only [hp, h.isExcluded, hn, h.unresolved, h.barred, if_true]
  split
  · exact Or.inl ⟨_, rfl, rfl⟩
  · exact Or.inr rfl

/-- The second run has an answer to a reference to the synonym, or follows it. -/
theorem read_synonym (h : Beside es ds synonym a b) {schema : Json}
    (hp : Definitions.path? (schema.get "$ref") = some synonym)
    (hd : (ds.node synonym).schema.isNull = false) (fqn : String) :
    (∃ u ns, b.read schema fqn = .answered u ns ∧ (IsEarly a b → .any = u)) ∨
      b.resolved.find? (Name.ofDefinition synonym) = none ∧
      b.read schema fqn = .followed (Name.ofDefinition synonym) (ds.node synonym)
        (Definitions.refTo synonym) := by
  have hres : ds.resolve (schema.get "$ref") = .ok (ds.node synonym) := by
    rw [Definitions.resolve, hp]
    dsimp only
    rw [hd]
    rfl
  have hfree : b.isOpenUnnamed (Name.ofDefinition synonym) = false := by
    rw [Resolver.isOpenUnnamed, h.free]
    rfl
  unfold Resolver.read
  simp only [hp, h.definitions.2, hfree, hres]
  split
  · exact Or.inl ⟨_, _, rfl, fun _ => rfl⟩
  · cases hb : b.resolved.find? (Name.ofDefinition synonym) with
    | some u =>
      refine Or.inl ⟨_, _, rfl, fun he => ?_⟩
      rw [he.2.1] at hb
      cases hb
    | none =>
      dsimp only
      split
      · next hk => cases hk
      · split
        · next hk =>
          refine Or.inl ⟨_, _, rfl, fun he => ?_⟩
          rw [he.2.2] at hk
          cases hk
        · exact Or.inr ⟨rfl, rfl⟩

end Beside

/-- A reference to another definition of the synonym's type name was stopped. -/
def stopsOther (synonym : String) : Note → Bool
  | .recursiveReference ref _ =>
    Name.ofDefinition (Definitions.withoutStart ref) == Name.ofDefinition synonym &&
      Definitions.withoutStart ref != synonym
  | _ => false

/-- Only references to the synonym itself were stopped under its type name. -/
def StopsAtOnly (synonym : String) (ns : List Note) : Prop :=
  ∀ n ∈ ns, stopsOther synonym n = false

instance (synonym : String) (ns : List Note) : Decidable (StopsAtOnly synonym ns) :=
  inferInstanceAs (Decidable (∀ n ∈ ns, stopsOther synonym n = false))

theorem StopsAtOnly.of_prefix {synonym : String} {ns ns' : List Note}
    (h : StopsAtOnly synonym ns') (hp : ns <+: ns') : StopsAtOnly synonym ns :=
  fun n hn => h n (hp.subset hn)

/-- What was stopped under the type name of the synonym was the synonym. -/
theorem StopsAtOnly.eq_synonym {synonym path : String} {ns : List Note}
    {opening : List (String × Opening)} (h : StopsAtOnly synonym ns)
    (hm : .recursiveReference (Definitions.refTo path) opening ∈ ns)
    (hn : Name.ofDefinition path = Name.ofDefinition synonym) : path = synonym := by
  have hs := h _ hm
  simpa [stopsOther, hn] using hs

/-- The second run is at the synonym: it goes on to the target, which is settled, and
comes back. -/
theorem exec_emitAt_synonym {es : List Exclusion} {ds : Definitions} {synonym target : String}
    (hal : IsAlias es ds synonym target) {a b : Resolver ε} (h : Beside es ds synonym a b)
    (hs : b.isSettled (Name.ofDefinition target) = true)
    (hr : b.resolved.find? (Name.ofDefinition synonym) = none) :
    ∃ u ns, exec (emitAt (Name.ofDefinition synonym) (ds.node synonym)
        (Definitions.refTo synonym)) b =
      (.ok u, (((b.opened (Name.ofDefinition synonym) ⟨synonym, .ref⟩).noted ns).closed
        (Name.ofDefinition synonym)).remembered (Name.ofDefinition synonym) u) ∧
      (IsEarly a b → .any = u) := by
  obtain ⟨-, rfl⟩ := h.exclusions
  obtain ⟨-, rfl⟩ := h.definitions
  let inside := b.opened (Name.ofDefinition synonym) ⟨synonym, .ref⟩
  -- what settled the target still does so with the synonym open
  have hs' : inside.isSettled (Name.ofDefinition target) = true := by
    by_cases ht : Name.ofDefinition target = Name.ofDefinition synonym
    · rw [ht]
      exact isSettled_opened_self rfl
    · rw [isSettled_opened _ ht]
      exact hs
  obtain ⟨u, ns, hread⟩ := read_of_isSettled (path?_reference target) hs' synonym
  have hopen : (inside.noted ns).opening.contains (Name.ofDefinition synonym) = true := by
    simp [inside, noted, opened]
  refine ⟨u, ns, ?_, fun he => ?_⟩
  · rw [exec_emit_synonym hal, exec_emitDefinition, hr]
    dsimp only
    rw [emitKind, exec_emitRef, hread]
    dsimp only
    rw [if_pos hopen]
  · -- nothing else can have settled the target yet
    have hopen : inside.isOpenUnnamed (Name.ofDefinition target) = true := by
      rw [isSettled_iff] at hs'
      rcases hs' with hs' | hs' | hs'
      · rw [show inside.resolved = .empty from he.2.1] at hs'
        cases hs'
      · exact hs'
      · rw [show inside.queue = .empty from he.2.2] at hs'
        cases hs'
    have hnone : inside.resolved.find? (Name.ofDefinition target) = none := by
      rw [show inside.resolved = .empty from he.2.1]
      rfl
    obtain ⟨ns', hany⟩ := read_of_isOpenUnnamed (path?_reference target) hnone hopen synonym
    rw [hread] at hany
    exact (Reference.answered.inj hany).1.symm

/-! ### Outcomes of the two runs -/

/-- The first run is out of fuel, or both fail for the same cause, or both succeed; then
the expressions are the same if nothing was resolved or declared before. -/
inductive Alike (es : List Exclusion) (ds : Definitions) (synonym : String) (early : Prop)
    {α : Type} : Except Failure α × Resolver ε → Except Failure α × Resolver ε → Prop
  | spent {a : Resolver ε} {y : Except Failure α × Resolver ε} :
    Alike es ds synonym early (.error .outOfFuel, a) y
  | failed (e : Failure) {a b : Resolver ε} : Alike es ds synonym early (.error e, a) (.error e, b)
  | done {t u : α} {a b : Resolver ε} (h : Beside es ds synonym a b) (heq : early → t = u) :
    Alike es ds synonym early (.ok t, a) (.ok u, b)

theorem Alike.mapValue {es : List Exclusion} {ds : Definitions} {synonym : String}
    {early : Prop} {α β : Type} {x y : Except Failure α × Resolver ε}
    (h : Alike es ds synonym early x y) {f g : α → β} (hfg : early → f = g) :
    Alike es ds synonym early (Stateful.mapValue f x) (Stateful.mapValue g y) := by
  cases h with
  | spent => exact .spent
  | failed e => exact .failed e
  | done h heq => exact .done h fun he => by rw [hfg he, heq he]

/-- The emission, with the synonym open, goes the way that emission goes without it. -/
def Lockstep (es : List Exclusion) (ds : Definitions) (synonym target : String)
    (emit : Emitting ε) : Prop :=
  ∀ typeName node fqn (a b : Resolver ε) (early : Prop), Beside es ds synonym a b →
    b.isSettled (Name.ofDefinition target) = true → a.Guarded → a.Fits typeName node fqn →
    (early → IsEarly a b) → StopsAtOnly synonym (exec (emit typeName node fqn) a).2.notes →
    Alike es ds synonym early (exec (emit typeName node fqn) a)
      (exec (emitAt typeName node fqn) b)

section

variable {es : List Exclusion} {ds : Definitions} {synonym target : String} {early : Prop}
  {emit : Emitting ε} (hal : IsAlias es ds synonym target) (hd : ds.Distinct)
  (he : Lockstep es ds synonym target emit)

include hal he

theorem alike_emitRef (schema : Json) (fqn : String) {a b : Resolver ε}
    (h : Beside es ds synonym a b) (hs : b.isSettled (Name.ofDefinition target) = true)
    (hg : a.Guarded) (hearly : early → IsEarly a b)
    (hstop : StopsAtOnly synonym (exec (emitRef emit schema fqn) a).2.notes) :
    Alike es ds synonym early (exec (emitRef emit schema fqn) a)
      (exec (emitRef emitAt schema fqn) b) := by
  rw [exec_emitRef] at hstop ⊢
  rw [exec_emitRef]
  cases hp : Definitions.path? (schema.get "$ref") with
  | none =>
    have hread : ∀ r : Resolver ε,
        r.read schema fqn = .failed (.invalidReference (schema.get "$ref")) := by
      intro r
      rw [read, hp]
    rw [hread, hread]
    exact .failed _
  | some path =>
    by_cases hn : Name.ofDefinition path = Name.ofDefinition synonym
    · rcases h.read_barred hp hn fqn with ⟨ns, ha, hb⟩ | ha
      · rw [ha, hb]
        exact .done (h.noted ns ns) fun _ => rfl
      · rw [ha] at hstop ⊢
        -- the first run is stopped, and only at the synonym itself
        have hpath : path = synonym :=
          hstop.eq_synonym (List.mem_append_right _ List.mem_cons_self) hn
        subst hpath
        rcases h.read_synonym hp (by rw [hal.schema]; rfl) fqn with
          ⟨u, ns, hb, hany⟩ | ⟨hr, hb⟩
        · rw [hb]
          exact .done (h.noted _ ns) fun hq => hany (hearly hq)
        · rw [hb]
          obtain ⟨u, ns, hu, hany⟩ := exec_emitAt_synonym hal h hs hr
          dsimp only
          rw [hu]
          exact .done (h.back _ _ ns u) fun hq => hany (hearly hq)
    · rcases h.read_of_ne hp hn fqn with
        ⟨e, ha, hb⟩ | ⟨t, u, ns, ns', ha, hb, heq⟩ | ⟨name, node, place, ha, hb⟩
      · rw [ha, hb]
        exact .failed e
      · rw [ha, hb]
        exact .done (h.noted ns ns') fun hq => heq (hearly hq)
      · rw [ha] at hstop ⊢
        rw [hb]
        exact he name node place a b early h hs hg (fits_of_followed hg ha) hearly hstop

omit hal in
/-- A schema that is no `null` where it stands. -/
theorem alike_emitInner {schema : Json} (hnull : schema.isNull = false) (typeName fqn : String)
    {a b : Resolver ε} (h : Beside es ds synonym a b)
    (hs : b.isSettled (Name.ofDefinition target) = true) (hg : a.Guarded)
    (hearly : early → IsEarly a b)
    (hstop : StopsAtOnly synonym (exec (emitInner emit typeName schema fqn) a).2.notes) :
    Alike es ds synonym early (exec (emitInner emit typeName schema fqn) a)
      (exec (emitInner emitAt typeName schema fqn) b) :=
  he _ _ _ a b early h hs hg (fits_inline hnull _ _) hearly hstop

omit hal in
theorem alike_emitArray (typeName : String) (schema : Json) (fqn : String) {a b : Resolver ε}
    (h : Beside es ds synonym a b) (hs : b.isSettled (Name.ofDefinition target) = true)
    (hg : a.Guarded) (hearly : early → IsEarly a b)
    (hstop : StopsAtOnly synonym (exec (emitArray emit typeName schema fqn) a).2.notes) :
    Alike es ds synonym early (exec (emitArray emit typeName schema fqn) a)
      (exec (emitArray emitAt typeName schema fqn) b) := by
  rw [exec_emitArray] at hstop ⊢
  rw [exec_emitArray]
  by_cases hi : (schema.get "items").isObject = true
  · rw [if_pos hi] at hstop ⊢
    rw [if_pos hi]
    exact (alike_emitInner he (isNull_of_isObject hi) typeName fqn h hs hg hearly hstop).mapValue
      fun _ => rfl
  · rw [if_neg hi, if_neg hi]
    exact .failed _

omit hal in
theorem alike_emitMap (typeName : String) {schema : Json} (fqn : String) {a b : Resolver ε}
    (hi : (schema.get "additionalProperties").isObject = true)
    (h : Beside es ds synonym a b) (hs : b.isSettled (Name.ofDefinition target) = true)
    (hg : a.Guarded) (hearly : early → IsEarly a b)
    (hstop : StopsAtOnly synonym (exec (emitMap emit typeName schema fqn) a).2.notes) :
    Alike es ds synonym early (exec (emitMap emit typeName schema fqn) a)
      (exec (emitMap emitAt typeName schema fqn) b) := by
  rw [exec_emitMap] at hstop ⊢
  rw [exec_emitMap]
  exact (alike_emitInner he (isNull_of_isObject hi) typeName fqn h hs hg hearly hstop).mapValue
    fun _ => rfl

omit hal he in
theorem alike_emitUnion (typeName : String) (schema : Json) (fqn : String) {a b : Resolver ε}
    (h : Beside es ds synonym a b) :
    Alike es ds synonym early (exec (emitUnion typeName schema fqn) a)
      (exec (emitUnion typeName schema fqn) b) := by
  rw [exec_emitUnion, exec_emitUnion, h.isKnown]
  split
  · exact .done h fun _ => rfl
  · exact .done (h.declared rfl) fun _ => rfl

omit hal he in
theorem alike_emitEnum (typeName : String) (schema : Json) (fqn : String) {a b : Resolver ε}
    (h : Beside es ds synonym a b) :
    Alike es ds synonym early (exec (emitEnum typeName schema fqn) a)
      (exec (emitEnum typeName schema fqn) b) := by
  obtain ⟨ms, ns, -, hexec⟩ := exec_emitEnum (ε := ε) typeName schema fqn
  rw [hexec, hexec, h.isKnown]
  split
  · exact .done h fun _ => rfl
  · cases ms with
    | error e => exact .failed e
    | ok ms => exact .done ((h.noted ns ns).declared rfl) fun _ => rfl

include hd

omit hal in
/-- Something is declared by now, so the types of the fields may differ. -/
theorem alike_fields (hgrow : AlwaysGrows emit) (hres : AlwaysRestores emit) (structFqn : String)
    (struct : Json) (ps : List (String × Json)) {a b : Resolver ε} (h : Beside es ds synonym a b)
    (hs : b.isSettled (Name.ofDefinition target) = true) (hg : a.Guarded)
    (hstop : StopsAtOnly synonym (exec (fields emit structFqn struct ps) a).2.notes) :
    Alike es ds synonym False (exec (fields emit structFqn struct ps) a)
      (exec (fields emitAt structFqn struct ps) b) := by
  induction ps generalizing a b with
  | nil => exact .done h False.elim
  | cons p ps ih =>
    rw [exec_fields_cons] at hstop ⊢
    rw [exec_fields_cons]
    by_cases hx : isExtension p.1 = true
    · rw [if_pos hx] at hstop ⊢
      rw [if_pos hx]
      exact ih h hs hg hstop
    · rw [if_neg hx] at hstop ⊢
      rw [if_neg hx]
      rw [exec_field, emitInner] at hstop ⊢
      rw [exec_field, emitInner]
      let place := structFqn ++ "." ++ Name.fieldName p.1
      have hda : a.definitions.Distinct := h.definitions.1.symm ▸ hd
      have hfits := fits_property hda p.2 (dot_mem_place structFqn (Name.fieldName p.1))
      have hfirst := he (Name.ofPath place) (.inline p.2) place a b False h hs hg hfits False.elim
      have hkept := hres (Name.ofPath place) (.inline p.2) place a hda hg hfits
      have hgrown := hgrow (Name.ofPath place) (.inline p.2) place a
      have hadv := advances_emitAt (Name.ofPath place) (.inline p.2) place b
      rcases hxa : exec (emit (Name.ofPath place) (.inline p.2) place) a with ⟨e | t, a'⟩ <;>
        rw [hxa] at hfirst hstop hkept hgrown <;>
        rcases hxb : exec (emitAt (Name.ofPath place) (.inline p.2) place) b with ⟨oy, b'⟩ <;>
        rw [hxb] at hfirst hadv
      · cases hfirst hstop with
        | spent => exact .spent
        | failed e => exact .failed e
      · -- what was stopped at this field is noted at the end, too
        have hrest := grows_fields hgrow structFqn struct ps a'
        cases hfirst (hstop.of_prefix hrest.notes) with
        | done h' _ =>
          have hg' := hg.grows hgrown hkept.opening
          exact (ih h' (hadv _ rfl _ hs) hg' hstop).mapValue False.elim

omit hal in
theorem alike_emitStruct (hgrow : AlwaysGrows emit) (hres : AlwaysRestores emit)
    (typeName : String) (schema : Json) (fqn : String) {a b : Resolver ε}
    (h : Beside es ds synonym a b)
    (hs : typeName = Name.ofDefinition target ∨ b.isSettled (Name.ofDefinition target) = true)
    (hg : a.GuardedBut typeName)
    (hstop : StopsAtOnly synonym (exec (emitStruct emit typeName schema fqn) a).2.notes) :
    Alike es ds synonym early (exec (emitStruct emit typeName schema fqn) a)
      (exec (emitStruct emitAt typeName schema fqn) b) := by
  rw [exec_emitStruct] at hstop ⊢
  rw [exec_emitStruct]
  by_cases hk : b.queue.isKnown typeName = true
  · rw [if_pos (by rwa [h.isKnown]), if_pos hk]
    exact .done h fun _ => rfl
  · rw [if_neg (by rwa [h.isKnown])] at hstop ⊢
    rw [if_neg hk]
    rw [Bool.not_eq_true] at hk
    let c : Declaration ε := ⟨typeName, fqn, schema.get "description", some schema, .struct []⟩
    have hs' : (b.declared c).isSettled (Name.ofDefinition target) = true := by
      rcases hs with hs | hs
      · -- the target itself is settled by being declared
        exact isSettled_of_isKnown (hs ▸ isKnown_declared b c)
      · exact (grows_declared (d := c) hk rfl).advances rfl _ hs
    have hg' : (a.declared c).Guarded := hg.declared (d := c) ((h.isKnown _).trans hk) rfl
    have hdeclared : Beside es ds synonym (a.declared c) (b.declared c) := h.declared rfl
    have hfields := alike_fields hd he hgrow hres fqn schema (schema.get "properties").fields
      hdeclared hs' hg'
    rcases hxa : exec (fields emit fqn schema (schema.get "properties").fields) (a.declared c)
      with ⟨e | fs, a'⟩ <;> rw [hxa] at hfields hstop <;>
      rcases hxb : exec (fields emitAt fqn schema (schema.get "properties").fields) (b.declared c)
        with ⟨e' | fs', b'⟩ <;> rw [hxb] at hfields
    · -- a field failed: both runs revert, and the notes of the first only grow by that
      cases hfields (hstop.of_prefix (List.prefix_append _ _)) with
      | spent => exact .spent
      | failed e => exact .failed e
    · cases hfields (hstop.of_prefix (List.prefix_append _ _)) with
      | spent => exact .spent
    · nomatch hfields hstop
    · cases hfields hstop with
      | done h' _ => exact .done (h'.completed rfl) fun _ => rfl

/-- Only the target itself may be emitted before it is settled, and only if it is to be
declared. -/
theorem alike_emitKind (hgrow : AlwaysGrows emit) (hres : AlwaysRestores emit) {kind : Kind}
    {typeName : String} {schema : Json} {fqn : String} {a b : Resolver ε}
    (hc : Schema.classify schema = .ok kind) (h : Beside es ds synonym a b)
    (hs : typeName = Name.ofDefinition target ∨ b.isSettled (Name.ofDefinition target) = true)
    (hg : a.GuardedBut typeName)
    (hplain : kind.isNamed = false →
      b.isSettled (Name.ofDefinition target) = true ∧ a.Guarded)
    (hearly : early → IsEarly a b)
    (hstop : StopsAtOnly synonym (exec (emitKind emit kind typeName schema fqn) a).2.notes) :
    Alike es ds synonym early (exec (emitKind emit kind typeName schema fqn) a)
      (exec (emitKind emitAt kind typeName schema fqn) b) := by
  cases kind with
  | ref =>
    obtain ⟨hs, hg⟩ := hplain rfl
    exact alike_emitRef hal he schema fqn h hs hg hearly hstop
  | union => exact alike_emitUnion typeName schema fqn h
  | array =>
    obtain ⟨hs, hg⟩ := hplain rfl
    exact alike_emitArray he typeName schema fqn h hs hg hearly hstop
  | enumString => exact alike_emitEnum typeName schema fqn h
  | map =>
    obtain ⟨hs, hg⟩ := hplain rfl
    exact alike_emitMap he typeName fqn (isObject_of_classify_map hc) h hs hg hearly hstop
  | struct => exact alike_emitStruct hd he hgrow hres typeName schema fqn h hs hg hstop
  | _ => exact .done h fun _ => rfl

theorem alike_emitDefinition (hgrow : AlwaysGrows emit) (hres : AlwaysRestores emit)
    {kind : Kind} {typeName : String} {schema : Json} {fqn : String} {a b : Resolver ε}
    (hc : Schema.classify schema = .ok kind) (ho : a.opening.contains typeName = false)
    (h : Beside es ds synonym a b)
    (hs : typeName = Name.ofDefinition target ∨ b.isSettled (Name.ofDefinition target) = true)
    (hg : a.Guarded) (hearly : early → IsEarly a b)
    (hstop : StopsAtOnly synonym
      (exec (emitDefinition emit kind typeName schema fqn) a).2.notes) :
    Alike es ds synonym early (exec (emitDefinition emit kind typeName schema fqn) a)
      (exec (emitDefinition emitAt kind typeName schema fqn) b) := by
  obtain ⟨hne, hob⟩ := h.contains_opening ho
  rw [exec_emitDefinition] at hstop ⊢
  rw [exec_emitDefinition]
  rcases h.find?_resolved hne with ⟨ha, hb⟩ | ⟨t, u, ha, hb, hlate⟩
  · rw [ha] at hstop ⊢
    rw [hb]
    dsimp only at hstop ⊢
    let o : Opening := ⟨fqn, kind⟩
    have hs' := eq_or_isSettled_opened o hs
    have hplain : kind.isNamed = false →
        (b.opened typeName o).isSettled (Name.ofDefinition target) = true ∧
          (a.opened typeName o).Guarded := by
      intro hk
      refine ⟨hs'.elim (fun ht => ?_) id, hg.opened hk⟩
      exact ht ▸ isSettled_opened_self (o := o) hk
    have hin : StopsAtOnly synonym
          (exec (emitKind emit kind typeName schema fqn) (a.opened typeName o)).2.notes →
        Alike es ds synonym early
          (exec (emitKind emit kind typeName schema fqn) (a.opened typeName o))
          (exec (emitKind emitAt kind typeName schema fqn) (b.opened typeName o)) :=
      alike_emitKind hal hd he hgrow hres hc (h.opened o hne) hs' (hg.openedBut typeName o)
        hplain hearly
    -- in both runs the mark is there to be taken off, so neither fails for it
    have hma : (exec (emitKind emit kind typeName schema fqn)
        (a.opened typeName o)).2.opening.contains typeName = true :=
      (restores_opened hres hgrow hc (h.definitions.1.symm ▸ hd) hg).contains_opened
    have hmb : (exec (emitKind emitAt kind typeName schema fqn)
        (b.opened typeName o)).2.opening.contains typeName = true :=
      (restores_opened restores_emitAt grows_emitAt hc (h.definitions.2.symm ▸ hd)
        (h.guarded hg)).contains_opened
    rcases hxa : exec (emitKind emit kind typeName schema fqn) (a.opened typeName o)
      with ⟨oa, a'⟩
    rcases hxb : exec (emitKind emitAt kind typeName schema fqn) (b.opened typeName o)
      with ⟨ob, b'⟩
    rw [hxa] at hstop hin hma
    rw [hxb] at hin hmb
    dsimp only at hstop ⊢
    rw [if_pos hma] at hstop ⊢
    rw [if_pos hmb]
    cases oa with
    | error e =>
      cases hin hstop with
      | spent => exact .spent
      | failed e => exact .failed e
    | ok t =>
      cases hin hstop with
      | done h' heq => exact .done (h'.remembered hne _ _) heq
  · rw [ha, hb]
    -- resolved before in both runs, though perhaps not to the same expression
    exact .done h fun hq => absurd (hearly hq) hlate

/-- One step of both runs, at a settled target or at the definition of the target. -/
theorem alike_emitStep (hgrow : AlwaysGrows emit) (hres : AlwaysRestores emit)
    {typeName : String} {node : Node} {fqn : String} {a b : Resolver ε}
    (h : Beside es ds synonym a b)
    (hs : b.isSettled (Name.ofDefinition target) = true ∨
      typeName = Name.ofDefinition target ∧ ∀ n, a.nodeFor typeName node = .ok n →
        a.isDefinition typeName n (Definitions.withoutStart fqn) = true)
    (hg : a.Guarded) (hfits : a.Fits typeName node fqn) (hearly : early → IsEarly a b)
    (hstop : StopsAtOnly synonym (exec (emitStep emit typeName node fqn) a).2.notes) :
    Alike es ds synonym early (exec (emitStep emit typeName node fqn) a)
      (exec (emitAt typeName node fqn) b) := by
  rw [emitAt, exec_emit_eq_step, Option.getD_some]
  rw [exec_emitStep] at hstop ⊢
  rw [exec_emitStep, ← h.nodeFor]
  cases hn : a.nodeFor typeName node with
  | error e => exact .failed e
  | ok n =>
    rw [hn] at hstop
    dsimp only at hstop ⊢
    rw [← h.admission]
    cases ha : a.admission typeName n (Definitions.withoutStart fqn) with
    | error e => exact .failed e
    | ok kind =>
      rw [ha] at hstop
      dsimp only at hstop ⊢
      have hc := classify_of_admission ha
      cases hk : kind.scalar? with
      | some s => exact .done (h.noted _ _) fun _ => rfl
      | none =>
        rw [hk] at hstop
        dsimp only at hstop ⊢
        rw [← h.isDefinition]
        by_cases hdef : a.isDefinition typeName n (Definitions.withoutStart fqn) = true
        · rw [if_pos hdef] at hstop ⊢
          rw [if_pos hdef]
          exact alike_emitDefinition hal hd he hgrow hres hc (hfits n hn hdef) h
            (hs.symm.imp_left And.left) hg hearly hstop
        · rw [if_neg hdef] at hstop ⊢
          rw [if_neg hdef]
          -- emitted as something else, so the target was settled before
          have hs := hs.resolve_right fun ht => hdef (ht.2 n hn)
          exact alike_emitKind hal hd he hgrow hres hc h (Or.inr hs) (hg.but typeName)
            (fun _ => ⟨hs, hg⟩) hearly hstop

end

/-- **The two runs go the same way**, down to any depth of the first. -/
theorem lockstep_emitWith {es : List Exclusion} {ds : Definitions} {synonym target : String}
    (hal : IsAlias es ds synonym target) (hd : ds.Distinct) (n : Nat) :
    Lockstep es ds synonym target (emitWith n : Emitting ε) := by
  induction n with
  | zero => exact fun _ _ _ _ _ _ _ _ _ _ _ _ => .spent
  | succ n ih =>
    intro typeName node fqn a b early h hs
    exact alike_emitStep hal hd ih (grows_emitWith n) (alwaysRestores_emitWith n) h (Or.inl hs)

theorem lockstep_emitAt {es : List Exclusion} {ds : Definitions} {synonym target : String}
    (hal : IsAlias es ds synonym target) (hd : ds.Distinct) :
    Lockstep es ds synonym target (emitAt : Emitting ε) := by
  intro typeName node fqn a b early h hs hg hfits hearly hstop
  have ha : exec (emitAt typeName node fqn) a =
      exec (emitWith (a.fuelFor node) typeName node fqn) a := exec_emit typeName node (some fqn) a
  rw [ha] at hstop ⊢
  exact lockstep_emitWith hal hd _ _ _ _ a b early h hs hg hfits hearly hstop

end Resolver
end SchemaScript
