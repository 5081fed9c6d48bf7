import SchemaScript.Proofs.Emission.Atomicity
import SchemaScript.Proofs.Emission.Measure

/-!
# Emissions end

Emissions lead to emissions of less cost, so whatever was put in the place of those at
the depth of the cost is never asked.  With the fuel set aside, which covers the cost,
emission is the function that steps into itself.

## Main definitions

* `Resolver.emitOver` — emissions down to a depth, with those beyond it given.
* `Resolver.AgreeBelow` — two emissions agree where the cost is small enough.

## Main results

* `agreeBelow_emitStep` — one step more at one more cost.
* `exec_emitOver` — beyond the cost of an emission nothing is asked.
* `exec_emit_eq_step` — emission steps into itself.
-/

namespace SchemaScript
namespace Resolver

open Stateful

variable {ε : Type}

/-- Emission with nested emissions down to a depth; those beyond are given. -/
def emitOver (beyond : Emitting ε) : Nat → Emitting ε
  | 0 => beyond
  | n + 1 => emitStep (emitOver beyond n)

theorem emitWith_eq_emitOver (n : Nat) :
    (emitWith n : Emitting ε) = emitOver (fun _ _ _ => throw .outOfFuel) n := by
  induction n with
  | zero => rfl
  | succ n ih => rw [emitWith_succ, emitOver, ih]

/-- Going down by two depths in turn. -/
theorem emitOver_add (beyond : Emitting ε) (m n : Nat) :
    emitOver beyond (m + n) = emitOver (emitOver beyond m) n := by
  induction n with
  | zero => rfl
  | succ n ih => rw [← Nat.add_assoc, emitOver, emitOver, ih]

/-- The emissions agree at costs up to a bound. -/
def AgreeBelow (ds : Definitions) (height bound : Nat) (emit emit' : Emitting ε) : Prop :=
  ∀ typeName node fqn (r : Resolver ε), r.definitions = ds →
    r.cost height typeName node fqn ≤ bound →
      exec (emit typeName node fqn) r = exec (emit' typeName node fqn) r

section

variable {ds : Definitions} {height bound : Nat} {emit emit' : Emitting ε}
  (hag : AgreeBelow ds height bound emit emit')

include hag

theorem agree_emitRef (hh : ds.height < height) (schema : Json) (fqn : String)
    {r : Resolver ε} (hd : r.definitions = ds)
    (hc : (2 * r.unsettled none + r.undeclared) * height ≤ bound) :
    exec (emitRef emit schema fqn) r = exec (emitRef emit' schema fqn) r := by
  rw [exec_emitRef, exec_emitRef]
  cases hr : r.read schema fqn with
  | failed e => rfl
  | answered t ns => rfl
  | followed name node place =>
    exact hag name node place r hd
      (Nat.le_trans (cost_followed (by rwa [hd]) hr) hc)

theorem agree_emitInner {schema : Json} (hs : schema.isNull = false) (typeName fqn : String)
    {r : Resolver ε} (hd : r.definitions = ds)
    (hc : r.rank none typeName * height + schema.height + 1 ≤ bound) :
    exec (emitInner emit typeName schema fqn) r =
      exec (emitInner emit' typeName schema fqn) r := by
  refine hag _ _ _ r hd ?_
  rw [cost_inline r height hs]
  have := Nat.mul_le_mul_right height (r.rank_ofPath_le none typeName)
  omega

theorem agree_emitArray (typeName : String) (schema : Json) (fqn : String) {r : Resolver ε}
    (hd : r.definitions = ds) (hc : r.rank none typeName * height + schema.height ≤ bound) :
    exec (emitArray emit typeName schema fqn) r =
      exec (emitArray emit' typeName schema fqn) r := by
  rw [exec_emitArray, exec_emitArray]
  split
  · next hi =>
    have hnull := isNull_of_isObject hi
    have hlt := Json.height_get_lt hnull
    rw [agree_emitInner hag hnull typeName fqn hd (by omega)]
  · rfl

theorem agree_emitMap (typeName : String) {schema : Json} (fqn : String) {r : Resolver ε}
    (hs : (schema.get "additionalProperties").isObject = true) (hd : r.definitions = ds)
    (hc : r.rank none typeName * height + schema.height ≤ bound) :
    exec (emitMap emit typeName schema fqn) r = exec (emitMap emit' typeName schema fqn) r := by
  have hnull := isNull_of_isObject hs
  have hlt := Json.height_get_lt hnull
  rw [exec_emitMap, exec_emitMap, agree_emitInner hag hnull typeName fqn hd (by omega)]

/-- Fields are emitted one after the other; what one of them settles and declares only
makes the next ones cheaper. -/
theorem agree_fields (hh : ds.height < height) (hg : AlwaysGrows emit')
    (ha : AlwaysAdvances emit') (structFqn : String) (struct : Json)
    {ps : List (String × Json)} {h : Nat} (hps : ∀ p ∈ ps, p.2.height < h) {r : Resolver ε}
    (hd : r.definitions = ds)
    (hc : (2 * r.unsettled none + r.undeclared + 1) * height + h ≤ bound) :
    exec (fields emit structFqn struct ps) r = exec (fields emit' structFqn struct ps) r := by
  induction ps generalizing r with
  | nil => rfl
  | cons p ps ih =>
    have hps' : ∀ q ∈ ps, q.2.height < h := fun q hq => hps q (List.mem_cons_of_mem p hq)
    rw [exec_fields_cons, exec_fields_cons]
    split
    · exact ih hps' hd hc
    · let place := structFqn ++ "." ++ Name.fieldName p.1
      have hfirst : exec (emit (Name.ofPath place) (.inline p.2) place) r =
          exec (emit' (Name.ofPath place) (.inline p.2) place) r :=
        hag _ _ _ r hd (Nat.le_trans
          (cost_property (by rwa [hd]) (hps p List.mem_cons_self) place) hc)
      have hgrow := hg (Name.ofPath place) (.inline p.2) place r
      have hadv := ha (Name.ofPath place) (.inline p.2) place r
      rw [exec_field, exec_field, emitInner, emitInner, hfirst]
      rcases hx : exec (emit' (Name.ofPath place) (.inline p.2) place) r with ⟨e | t, r'⟩ <;>
        rw [hx] at hgrow hadv
      · rfl
      · -- the state of the next field has settled at least as much
        have hu : r'.unsettled none ≤ r.unsettled none :=
          (hadv t rfl).unsettled_le hgrow.definitions none
        have hb : r'.undeclared ≤ r.undeclared :=
          undeclared_le hgrow.definitions fun _ => hgrow.isKnown
        have hmul := Nat.mul_le_mul_right height
          (show 2 * r'.unsettled none + r'.undeclared + 1 ≤
            2 * r.unsettled none + r.undeclared + 1 by omega)
        have hrest := ih hps' (r := r') (hgrow.definitions.trans hd) (by omega)
        exact congrArg (mapValue _) hrest

theorem agree_emitStruct (hh : ds.height < height) (hg : AlwaysGrows emit')
    (ha : AlwaysAdvances emit') (typeName : String) (schema : Json) (fqn : String)
    {r : Resolver ε} (hd : r.definitions = ds)
    (hc : r.rank (some typeName) typeName * height + schema.height ≤ bound) :
    exec (emitStruct emit typeName schema fqn) r =
      exec (emitStruct emit' typeName schema fqn) r := by
  rw [exec_emitStruct, exec_emitStruct]
  split
  · rfl
  · -- the declaration makes room for the fields; see `rank_declared`
    next hk =>
    rw [Bool.not_eq_true] at hk
    let c : Declaration ε := ⟨typeName, fqn, schema.get "description", some schema, .struct []⟩
    have hroom := Nat.mul_le_mul_right height (rank_declared (d := c) hk rfl)
    have hheight : (schema.get "properties").height ≤ schema.height := by
      by_cases hnull : (schema.get "properties").isNull = true
      · cases hp : schema.get "properties" with
        | null => exact Nat.zero_le _
        | _ =>
          rw [hp] at hnull
          cases hnull
      · rw [Bool.not_eq_true] at hnull
        exact Nat.le_of_lt (Json.height_get_lt hnull)
    have hfields := agree_fields hag hh hg ha fqn schema
      (fun p hp => Json.height_lt_of_mem_fields hp) (r := r.declared c) hd
      (Nat.le_trans (Nat.add_le_add hroom hheight) hc)
    rw [hfields]

theorem agree_emitKind (hh : ds.height < height) (hg : AlwaysGrows emit')
    (ha : AlwaysAdvances emit') {kind : Kind} {typeName : String} {schema : Json} {fqn : String}
    {r : Resolver ε} (hk : Schema.classify schema = .ok kind) (hd : r.definitions = ds)
    (hs : r.rank (some typeName) typeName * height + schema.height ≤ bound)
    (hu : kind.isNamed = false → r.rank none typeName * height + schema.height ≤ bound) :
    exec (emitKind emit kind typeName schema fqn) r =
      exec (emitKind emit' kind typeName schema fqn) r := by
  cases kind with
  | ref =>
    refine agree_emitRef hag hh schema fqn hd ?_
    -- a reference asks for what is left, whatever the name at hand
    have hle : 2 * r.unsettled none + r.undeclared ≤ r.rank none typeName := by
      rw [rank]
      omega
    have := Nat.mul_le_mul_right height hle
    have := hu rfl
    omega
  | array => exact agree_emitArray hag typeName schema fqn hd (hu rfl)
  | map => exact agree_emitMap hag typeName fqn (isObject_of_classify_map hk) hd (hu rfl)
  | struct => exact agree_emitStruct hag hh hg ha typeName schema fqn hd hs
  | _ => rfl

theorem agree_emitDefinition (hh : ds.height < height) (hg : AlwaysGrows emit')
    (ha : AlwaysAdvances emit') {kind : Kind} {typeName : String} {schema : Json} {fqn : String}
    {r : Resolver ε} (hk : Schema.classify schema = .ok kind) (hd : r.definitions = ds)
    (hc : r.rank (some typeName) typeName * height + schema.height ≤ bound) :
    exec (emitDefinition emit kind typeName schema fqn) r =
      exec (emitDefinition emit' kind typeName schema fqn) r := by
  rw [exec_emitDefinition, exec_emitDefinition]
  have hsome := Nat.mul_le_mul_right height (r.rank_opened_some typeName ⟨fqn, kind⟩)
  have hinside : exec (emitKind emit kind typeName schema fqn) (r.opened typeName ⟨fqn, kind⟩) =
      exec (emitKind emit' kind typeName schema fqn) (r.opened typeName ⟨fqn, kind⟩) := by
    refine agree_emitKind hag hh hg ha hk hd (by omega) fun hn => ?_
    have hrank : (r.opened typeName ⟨fqn, kind⟩).rank none typeName ≤
        r.rank (some typeName) typeName := rank_opened hn
    have := Nat.mul_le_mul_right height hrank
    omega
  rw [hinside]

/-- **One step more at one more cost.** -/
theorem agreeBelow_emitStep (hh : ds.height < height) (hg : AlwaysGrows emit')
    (ha : AlwaysAdvances emit') :
    AgreeBelow ds height (bound + 1) (emitStep emit) (emitStep emit') := by
  intro typeName node fqn r hd hc
  rw [exec_emitStep, exec_emitStep]
  cases hn : r.nodeFor typeName node with
  | error e => rfl
  | ok n =>
    dsimp only
    cases had : r.admission typeName n (Definitions.withoutStart fqn) with
    | error e => rfl
    | ok kind =>
      dsimp only
      cases kind.scalar? with
      | some s => rfl
      | none =>
        dsimp only
        have hk := classify_of_admission had
        -- whether the emission opens a definition decides which name is left out
        rw [cost, ← schema_of_nodeFor hn, entered, hn] at hc
        dsimp only at hc
        by_cases hdef : r.isDefinition typeName n (Definitions.withoutStart fqn) = true
        · rw [if_pos hdef] at hc
          rw [if_pos hdef, if_pos hdef]
          exact agree_emitDefinition hag hh hg ha hk hd (by omega)
        · rw [if_neg hdef] at hc
          rw [if_neg hdef, if_neg hdef]
          have hle : r.rank (some typeName) typeName ≤ r.rank none typeName := by
            have := r.unsettled_le_none (some typeName)
            rw [rank, rank]
            omega
          have := Nat.mul_le_mul_right height hle
          exact agree_emitKind hag hh hg ha hk hd (by omega) fun _ => by omega

end

/-- Down to the cost, what lies beyond is not asked. -/
theorem agreeBelow_emitOver {ds : Definitions} {height : Nat} (hh : ds.height < height)
    (beyond : Emitting ε) (bound : Nat) :
    AgreeBelow ds height bound (emitOver beyond bound) (emitWith bound) := by
  induction bound with
  | zero =>
    intro typeName node fqn r _ hc
    -- no cost is zero
    exact absurd hc (by rw [cost]; omega)
  | succ bound ih =>
    exact agreeBelow_emitStep ih hh (grows_emitWith bound) (advances_emitWith bound)

/-- Two depths that cover the cost, each by a height of its own, make no difference. -/
theorem exec_emitWith_eq {r : Resolver ε} {typeName : String} {node : Node} {fqn : String}
    {height height' m n : Nat} (hh : r.definitions.height < height)
    (hh' : r.definitions.height < height') (hm : r.cost height typeName node fqn ≤ m)
    (hn : r.cost height' typeName node fqn ≤ n) :
    exec (emitWith m typeName node fqn) r = exec (emitWith n typeName node fqn) r := by
  -- each depth is run with the other one beyond it, which is one run over both
  have hleft := agreeBelow_emitOver hh (emitWith n) m typeName node fqn r rfl hm
  have hright := agreeBelow_emitOver hh' (emitWith m) n typeName node fqn r rfl hn
  rw [← hleft, ← hright, emitWith_eq_emitOver, emitWith_eq_emitOver, ← emitOver_add,
    ← emitOver_add, Nat.add_comm]

theorem height_lt_fuelHeight (r : Resolver ε) (node : Node) :
    r.definitions.height < max r.definitions.height node.schema.height + 2 := by
  omega

/-- **Emissions end.**  Nested more deeply than the fuel, no emission is asked for. -/
theorem exec_emitOver (beyond : Emitting ε) (r : Resolver ε) (typeName : String) (node : Node)
    (fqn : Option String) {n : Nat} (hn : r.fuelFor node ≤ n) :
    exec (emitOver beyond n typeName node (fqn.getD typeName)) r =
      exec (emit typeName node fqn) r := by
  have hc := r.cost_le_fuelFor typeName node (fqn.getD typeName)
  have hh := r.height_lt_fuelHeight node
  rw [exec_emit, ← Nat.sub_add_cancel hn, emitOver_add]
  exact agreeBelow_emitOver hh _ _ typeName node _ r rfl hc

/-- **Emission steps into itself.** -/
theorem exec_emit_eq_step (r : Resolver ε) (typeName : String) (node : Node)
    (fqn : Option String) :
    exec (emit typeName node fqn) r =
      exec (emitStep emitAt typeName node (fqn.getD typeName)) r := by
  have hh := r.height_lt_fuelHeight node
  have hc := r.cost_le_fuelFor typeName node (fqn.getD typeName)
  -- with one more fuel, so that a step can be taken
  rw [exec_emit, exec_emitWith_eq hh hh hc (Nat.le_succ_of_le hc), emitWith_succ]
  refine agreeBelow_emitStep (fun name n place s hs hcost => ?_) hh grows_emitAt advances_emitAt
    typeName node _ r rfl (Nat.le_succ_of_le hc)
  rw [emitAt, exec_emit]
  exact exec_emitWith_eq (by rwa [hs]) (s.height_lt_fuelHeight n) hcost
    (s.cost_le_fuelFor name n place)

end Resolver
end SchemaScript
