import SchemaScript.Proofs.Emission.Failures
import SchemaScript.Proofs.Emission.Lockstep

/-!
# What aliases resolve to

An alias is a definition that is a reference.  While its target is resolved, the alias
is open under its own type name, as a definition without a declaration.  So the answer
for the alias is the answer for the target as long as no reference on the way runs into
that mark.  If the target has the same type name, the first step does.

## Main definitions

* `Resolver.ask` — a reference, emitted under a type name.
* `Resolver.withAlias` — a fresh resolver to which an alias was added.

## Main results

* `ask_synonym` — the answer for an alias, in terms of its target.
* `alias_resolution` — when the two answers are the same.
-/

namespace SchemaScript
namespace Resolver

open Stateful

variable {ε : Type}

/-- Asks for a reference to a name. -/
def ask (r : Resolver ε) (typeName name : String) (fqn : Option String) :
    Except Failure TypeExpr × Resolver ε :=
  exec (emit typeName (.inline (reference name)) fqn) r

/-- Nothing was resolved, but a name was made to stand for another one. -/
def withAlias (es : List Exclusion) (fs : List (String × Json)) (synonym target : String) :
    Resolver ε :=
  fresh es ((Definitions.empty.defineAll fs).addAlias synonym target)

/-! ### Asking -/

/-- The place of a reference matters for the notes only. -/
theorem exec_emitRef_place (emit : Emitting ε) (schema : Json) (fqn fqn' : String)
    (r : Resolver ε) :
    (exec (emitRef emit schema fqn) r).1 = (exec (emitRef emit schema fqn') r).1 := by
  rw [exec_emitRef, exec_emitRef]
  unfold read
  cases Definitions.path? (schema.get "$ref") with
  | none => rfl
  | some path =>
    by_cases hx : (r.isExcluded (Definitions.refTo path) || r.isExcluded path) = true
    · simp only [hx, if_true]
    · simp only [hx, Bool.false_eq_true, if_false]

/-- If the request is admitted, the reference is emitted. -/
theorem ask_eq {r : Resolver ε} {typeName : String} (hname : Name.IsTypeName typeName)
    {fqn : Option String}
    (hplace : r.isExcluded (Definitions.withoutStart (fqn.getD typeName)) = false)
    (name : String) :
    r.ask typeName name fqn = exec (emitRef emitAt (reference name)
      (Definitions.withoutStart (fqn.getD typeName))) r := by
  have hnode : r.nodeFor typeName (.inline (reference name)) = .ok (.inline (reference name)) := rfl
  have hadm : r.admission typeName (.inline (reference name))
      (Definitions.withoutStart (fqn.getD typeName)) = .ok .ref := by
    rw [isExcluded, Option.isSome_eq_false_iff, Option.isNone_iff_eq_none] at hplace
    rw [admission, if_neg (not_not.mpr hname), hplace]
    rfl
  have hdef : r.isDefinition typeName (.inline (reference name))
      (Definitions.withoutStart (fqn.getD typeName)) = false :=
    not_isDefinition_inline rfl hnode _
  rw [ask, exec_emit_eq_step, exec_emitStep, hnode]
  simp only [hadm, hdef, Kind.scalar?, Bool.false_eq_true, if_false]
  rfl

/-- If the request is not admitted, it does not matter which name is asked for. -/
theorem exists_ask_eq_error {r : Resolver ε} {typeName : String}
    (hname : Name.IsTypeName typeName) {fqn : Option String}
    (hplace : r.isExcluded (Definitions.withoutStart (fqn.getD typeName)) = true) :
    ∃ e, ∀ (r' : Resolver ε) (name : String), r'.exclusions = r.exclusions →
      (r'.ask typeName name fqn).1 = .error e := by
  obtain ⟨x, hx⟩ := Option.isSome_iff_exists.mp hplace
  refine ⟨.typeExcluded (Definitions.withoutStart (fqn.getD typeName)) x.text, ?_⟩
  intro r' name hr
  have hnode : r'.nodeFor typeName (.inline (reference name)) =
      .ok (.inline (reference name)) := rfl
  have hadm : r'.admission typeName (.inline (reference name))
      (Definitions.withoutStart (fqn.getD typeName)) =
        .error (.typeExcluded (Definitions.withoutStart (fqn.getD typeName)) x.text) := by
    rw [exclusionOf] at hx
    rw [admission, if_neg (not_not.mpr hname), exclusionOf, hr, hx]
  rw [ask, exec_emit_eq_step, exec_emitStep, hnode]
  simp only [hadm]

/-! ### A synonym and its target -/

/-- Nothing was resolved, declared or opened yet. -/
structure IsUnused (r : Resolver ε) : Prop where
  queue : r.queue = .empty
  resolved : r.resolved = .empty
  opening : r.opening = .empty
  distinct : r.definitions.Distinct

/-- The resolver while it is at the synonym. -/
def marked (r : Resolver ε) (synonym : String) : Resolver ε :=
  r.opened (Name.ofDefinition synonym) ⟨synonym, .ref⟩

section

variable {r : Resolver ε} {synonym target : String} (hr : r.IsUnused)
  (hal : IsAlias r.exclusions r.definitions synonym target)

theorem isOpenUnnamed_marked (r : Resolver ε) (synonym : String) :
    (r.marked synonym).isOpenUnnamed (Name.ofDefinition synonym) = true := by
  simp [isOpenUnnamed, marked, opened, Table.find?_insert, Kind.isNamed]

include hal in
theorem isExcluded_synonym : r.isExcluded synonym = false := by
  rw [isExcluded, exclusionOf, hal.admitted]
  rfl

include hr

theorem guarded_marked : (r.marked synonym).Guarded := by
  refine Guarded.opened (fun name o ho _ => ?_) rfl
  rw [hr.opening] at ho
  cases ho

/-- With the synonym open and without, the resolver is beside itself. -/
theorem beside_marked : Beside r.exclusions r.definitions synonym (r.marked synonym) r where
  exclusions := ⟨rfl, rfl⟩
  definitions := ⟨rfl, rfl⟩
  names := rfl
  written := rfl
  resolved := fun _ _ => rfl
  opening := by
    intro name hname
    rw [marked, opened, Table.find?_insert, if_neg (Ne.symm hname)]
  unresolved := by
    rw [marked, opened, hr.resolved]
    rfl
  barred := isOpenUnnamed_marked r synonym
  free := by
    rw [hr.opening]
    rfl

include hal

/-- A reference to the synonym is followed, unless its text is excluded. -/
theorem read_synonym (ht : r.isExcluded (Definitions.refTo synonym) = false) (fqn : String) :
    r.read (reference synonym) fqn = .followed (Name.ofDefinition synonym)
      (r.definitions.node synonym) (Definitions.refTo synonym) := by
  have hnull : (r.definitions.node synonym).schema.isNull = false := by
    rw [hal.schema]
    rfl
  have hres : r.definitions.resolve ((reference synonym).get "$ref") =
      .ok (r.definitions.node synonym) := by
    rw [Definitions.resolve, path?_reference]
    dsimp only
    rw [hnull]
    rfl
  unfold read
  rw [path?_reference, hres]
  dsimp only
  rw [isExcluded_synonym hal, ht, isOpenUnnamed, hr.resolved, hr.opening, hr.queue]
  rfl

/-- **Emitting the synonym emits the target**, with the synonym open. -/
theorem exec_emitRef_synonym (ht : r.isExcluded (Definitions.refTo synonym) = false)
    (fqn : String) :
    ∃ o r', exec (emitRef emitAt (reference target) synonym) (r.marked synonym) = (o, r') ∧
      (exec (emitRef emitAt (reference synonym) fqn) r).1 = o ∧
      (exec (emitRef emitAt (reference synonym) fqn) r).2.notes = r'.notes := by
  have hkept := restores_emitRef restores_emitAt (reference target) synonym
    (r := r.marked synonym) hr.distinct (guarded_marked hr)
  rcases hin : exec (emitRef emitAt (reference target) synonym) (r.marked synonym) with ⟨o, r'⟩
  rw [hin] at hkept
  -- the mark put on the synonym is still there
  have hopen : r'.opening.contains (Name.ofDefinition synonym) = true := by
    rw [show r'.opening = _ from hkept.opening]
    simp [marked, opened]
  have hnone : r.resolved.find? (Name.ofDefinition synonym) = none := by
    rw [hr.resolved]
    rfl
  refine ⟨o, r', rfl, ?_⟩
  rw [marked] at hin
  rw [exec_emitRef_followed _ (read_synonym hr hal ht fqn), exec_emit_synonym hal,
    exec_emitDefinition, hnone]
  dsimp only
  rw [emitKind, hin]
  dsimp only
  rw [if_pos hopen]
  cases o <;> exact ⟨rfl, rfl⟩

/-- The answer for a synonym whose reference is excluded, or whose target has its type
name. -/
theorem exec_emitRef_eq_any (h : Name.ofDefinition synonym = Name.ofDefinition target ∨
      r.isExcluded (Definitions.refTo synonym) = true) (fqn : String) :
    (exec (emitRef emitAt (reference synonym) fqn) r).1 = .ok .any := by
  by_cases ht : r.isExcluded (Definitions.refTo synonym) = true
  · have hread : r.read (reference synonym) fqn =
        .answered .any [.excludedReference fqn synonym] := by
      unfold read
      rw [path?_reference]
      dsimp only
      rw [ht]
      rfl
    rw [exec_emitRef_answered _ hread]
  · have hsame := h.resolve_right ht
    rw [Bool.not_eq_true] at ht
    have hmark : (r.marked synonym).isOpenUnnamed (Name.ofDefinition target) = true :=
      hsame ▸ isOpenUnnamed_marked r synonym
    have hnone : (r.marked synonym).resolved.find? (Name.ofDefinition target) = none := by
      rw [marked, opened, hr.resolved]
      rfl
    obtain ⟨ns, hread⟩ := read_of_isOpenUnnamed (path?_reference target) hnone hmark synonym
    obtain ⟨o, r', hin, hout, -⟩ := exec_emitRef_synonym hr hal ht fqn
    rw [exec_emitRef_answered _ hread] at hin
    rw [hout, ← (Prod.mk.inj hin).1]

/-- **The target is emitted alike** with the synonym open and without. -/
theorem alike_emitRef_target (hne : Name.ofDefinition target ≠ Name.ofDefinition synonym)
    (fqn : String) (hstop : StopsAtOnly synonym
      (exec (emitRef emitAt (reference target) fqn) (r.marked synonym)).2.notes) :
    Alike r.exclusions r.definitions synonym True
      (exec (emitRef emitAt (reference target) fqn) (r.marked synonym))
      (exec (emitRef emitAt (reference target) fqn) r) := by
  have h : Beside r.exclusions r.definitions synonym (r.marked synonym) r := beside_marked hr
  have hg : (r.marked synonym).Guarded := guarded_marked hr
  have hearly : IsEarly (r.marked synonym) r := ⟨hr.resolved, hr.resolved, hr.queue⟩
  rw [exec_emitRef] at hstop ⊢
  rw [exec_emitRef]
  rcases h.read_of_ne (path?_reference target) hne fqn with
    ⟨e, ha, hb⟩ | ⟨t, u, ns, ns', ha, hb, heq⟩ | ⟨name, node, place, ha, hb⟩
  · rw [ha, hb]
    exact .failed e
  · rw [ha, hb]
    exact .done (h.noted ns ns') fun _ => heq hearly
  · rw [ha] at hstop ⊢
    rw [hb]
    -- the target is followed in both runs: it is not settled yet, but it is the definition
    have hfits := fits_of_followed hg ha
    obtain ⟨-, path, rfl, rfl, hres, hp⟩ := of_followed ha
    rw [path?_reference, Option.some.injEq] at hp
    subst hp
    obtain ⟨rfl, hnull⟩ := Definitions.resolve_eq_ok (path?_reference target) hres
    have hdef : ∀ n, (r.marked synonym).nodeFor (Name.ofDefinition target)
          ((r.marked synonym).definitions.node target) = .ok n →
        (r.marked synonym).isDefinition (Name.ofDefinition target) n
          (Definitions.withoutStart (Definitions.refTo target)) = true := by
      intro n hn
      rw [nodeFor_of_not_isNull _ hnull] at hn
      cases hn
      rw [Definitions.withoutStart_refTo]
      exact isDefinition_node hnull
    dsimp only at hstop ⊢
    rw [emitAt, exec_emit_eq_step] at hstop
    rw [show exec (emitAt (Name.ofDefinition target) ((r.marked synonym).definitions.node target)
        (Definitions.refTo target)) (r.marked synonym) = _ from exec_emit_eq_step ..]
    exact alike_emitStep hal hr.distinct (lockstep_emitAt hal hr.distinct) grows_emitAt
      restores_emitAt h (Or.inr ⟨rfl, hdef⟩) hg hfits (fun _ => hearly) hstop

end

/-! ### Adding an alias -/

theorem isUnused_withAlias (es : List Exclusion) (fs : List (String × Json))
    (synonym target : String) : (withAlias es fs synonym target : Resolver ε).IsUnused where
  queue := rfl
  resolved := rfl
  opening := rfl
  distinct := (Definitions.isStamped_define
    (Definitions.isStamped_defineAll Definitions.isStamped_empty fs) _ _).distinct

theorem isAlias_withAlias {es : List Exclusion} {fs : List (String × Json)}
    {synonym target : String}
    (hx : (withAlias es fs synonym target : Resolver ε).isExcluded synonym = false) :
    IsAlias es ((Definitions.empty.defineAll fs).addAlias synonym target) synonym target where
  schema := by
    rw [Definitions.addAlias, Definitions.define, Definitions.node, Table.find?_insert, if_pos rfl]
    rfl
  admitted := by rwa [isExcluded, Option.isSome_eq_false_iff, Option.isNone_iff_eq_none] at hx

/-- Outcomes alike, of which the first is not out of fuel, are the same. -/
theorem Alike.fst_eq {es : List Exclusion} {ds : Definitions} {synonym : String} {α : Type}
    {x y : Except Failure α × Resolver ε} (h : Alike es ds synonym True x y)
    (hx : x.1 ≠ .error .outOfFuel) : x.1 = y.1 := by
  cases h with
  | spent => exact absurd rfl hx
  | failed e => rfl
  | done _ heq => rw [heq trivial]

/-- **When an alias is answered as its target.**  If the two have one type name, or the
text of a reference to the alias is excluded, only if the answer for the target is `any`,
or the request fails by itself.  Otherwise the answer for the alias is that for the target
with the alias open, and it is the answer for the target unless a reference to another
definition of the type name of the alias was stopped. -/
theorem alias_resolution (es : List Exclusion) (fs : List (String × Json))
    (synonym target typeName : String) (fqn : Option String) (hname : Name.IsTypeName typeName)
    (hx : (withAlias es fs synonym target : Resolver ε).isExcluded synonym = false) :
    let r : Resolver ε := withAlias es fs synonym target
    (Name.ofDefinition synonym = Name.ofDefinition target ∨
        r.isExcluded (Definitions.refTo synonym) = true →
      ((r.ask typeName synonym fqn).1 = (r.ask typeName target fqn).1 ↔
        r.isExcluded (Definitions.withoutStart (fqn.getD typeName)) = true ∨
          (r.ask typeName target fqn).1 = .ok .any)) ∧
    (Name.ofDefinition synonym ≠ Name.ofDefinition target →
      r.isExcluded (Definitions.refTo synonym) = false →
      (r.ask typeName synonym fqn).1 = ((r.marked synonym).ask typeName target fqn).1 ∧
      (StopsAtOnly synonym (r.ask typeName synonym fqn).2.notes →
        (r.ask typeName synonym fqn).1 = (r.ask typeName target fqn).1)) := by
  intro r
  have hr : r.IsUnused := isUnused_withAlias es fs synonym target
  have hal : IsAlias r.exclusions r.definitions synonym target := isAlias_withAlias hx
  by_cases hplace : r.isExcluded (Definitions.withoutStart (fqn.getD typeName)) = true
  · -- the request is refused for its place, whatever it asks for
    obtain ⟨e, he⟩ := exists_ask_eq_error hname hplace
    have hsame : (r.ask typeName synonym fqn).1 = (r.ask typeName target fqn).1 := by
      rw [he r synonym rfl, he r target rfl]
    refine ⟨fun _ => iff_of_true hsame (Or.inl hplace), fun _ _ => ⟨?_, fun _ => hsame⟩⟩
    rw [he r synonym rfl, he (r.marked synonym) target rfl]
  · rw [Bool.not_eq_true] at hplace
    have hask := ask_eq hname hplace
    refine ⟨fun h => ?_, fun hne ht => ?_⟩
    · have hany := exec_emitRef_eq_any hr hal h
        (Definitions.withoutStart (fqn.getD typeName))
      rw [hask synonym, hany, hplace]
      simp [eq_comm]
    · obtain ⟨o, r', hin, hout, hnotes⟩ := exec_emitRef_synonym hr hal ht
        (Definitions.withoutStart (fqn.getD typeName))
      rw [← hask synonym] at hout hnotes
      have htarget : (r.ask typeName target fqn).1 =
          (exec (emitRef emitAt (reference target) synonym) r).1 := by
        rw [hask target]
        exact exec_emitRef_place ..
      have hmarked : ((r.marked synonym).ask typeName target fqn).1 = o := by
        rw [ask_eq (r := r.marked synonym) hname hplace target,
          exec_emitRef_place _ _ _ synonym, hin]
      refine ⟨hout.trans hmarked.symm, fun hstop => ?_⟩
      have halike := alike_emitRef_target hr hal (Ne.symm hne) synonym
      rw [hin] at halike
      rw [htarget, hout]
      refine (halike (hnotes ▸ hstop)).fst_eq fun hspent => ?_
      -- running out of fuel is no failure of an emission
      have hfail : (exec (emit typeName (.inline (reference synonym)) fqn) r).1 =
          .error .outOfFuel := hout.trans hspent
      cases isRejection_of_emit hfail

/-- Two definitions, of which the first refers to the other one and to an alias of itself. -/
def referringDefinitions : List (String × Json) :=
  [("b.Bar", .obj [("properties", .obj [("x", reference "a.Foo"), ("y", reference "c.Baz")])]),
    ("c.Baz", .obj [("type", .str "array"), ("items", reference "b.Bar")])]

/-- An alias of `b.Bar` to which a field of `b.Bar` refers back. -/
theorem alias_resolution_referringDefinitions :
    let r : Resolver Empty := withAlias [] referringDefinitions "a.Foo" "b.Bar"
    Name.IsTypeName "X" ∧ r.isExcluded "a.Foo" = false ∧
      Name.ofDefinition "a.Foo" ≠ Name.ofDefinition "b.Bar" ∧
        r.isExcluded (Definitions.refTo "a.Foo") = false ∧
          StopsAtOnly "a.Foo" (r.ask "X" "a.Foo" none).2.notes ∧
            (r.ask "X" "a.Foo" none).1 = (r.ask "X" "b.Bar" none).1 ∧
              (r.ask "X" "b.Bar" none).1 = .ok (.named "Bar") := by
  intro r
  have hname : Name.IsTypeName "X" := by decide +kernel
  have hne : Name.ofDefinition "a.Foo" ≠ Name.ofDefinition "b.Bar" := by decide +kernel
  have hstop : StopsAtOnly "a.Foo" (r.ask "X" "a.Foo" none).2.notes := by decide +kernel
  have hbar : (r.ask "X" "b.Bar" none).1.toOption = some (.named "Bar") := by decide +kernel
  have hx : r.isExcluded "a.Foo" = false := rfl
  have ht : r.isExcluded (Definitions.refTo "a.Foo") = false := rfl
  have hsame := ((alias_resolution [] referringDefinitions "a.Foo" "b.Bar" "X" none hname hx).2
    hne ht).2 hstop
  exact ⟨hname, hx, hne, ht, hstop, hsame, eq_ok_of_toOption hbar⟩

/-- An alias of `b.Foo` of the same type name: neither is excluded and the target is no
reference, but the alias is `any`, and the target is not. -/
theorem alias_ne_target_of_same_typeName :
    let r : Resolver Empty :=
      withAlias [] [("b.Foo", .obj [("type", .str "object"), ("properties", .obj [])])]
        "a.Foo" "b.Foo"
    r.isExcluded "a.Foo" = false ∧ r.isExcluded "b.Foo" = false ∧ Name.IsTypeName "X" ∧
      (Schema.classify (r.definitions.get "b.Foo")).toOption = some .struct ∧
        (r.ask "X" "a.Foo" none).1 = .ok .any ∧
          (r.ask "X" "b.Foo" none).1 = .ok (.named "Foo") ∧
            (r.ask "X" "a.Foo" none).1 ≠ (r.ask "X" "b.Foo" none).1 := by
  intro r
  have hsynonym : (r.ask "X" "a.Foo" none).1 = .ok .any :=
    eq_ok_of_toOption (by decide +kernel)
  have htarget : (r.ask "X" "b.Foo" none).1 = .ok (.named "Foo") :=
    eq_ok_of_toOption (by decide +kernel)
  refine ⟨rfl, rfl, by decide +kernel, by decide +kernel, hsynonym, htarget, ?_⟩
  rw [hsynonym, htarget]
  intro h
  cases h

end Resolver
end SchemaScript
