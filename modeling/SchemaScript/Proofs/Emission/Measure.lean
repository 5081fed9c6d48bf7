import SchemaScript.Proofs.Definitions
import SchemaScript.Proofs.Emission.Settling
import SchemaScript.Proofs.Height

/-!
# How deep emissions go

Going into a schema makes it less high.  Following a reference goes to a definition,
which can be higher, but settles a name of a definition.  Looking a `null` property up
goes to a definition too; its name is made from itself, and so are the names of what
the definition holds, down to an interface that declares the name.

Put together, an emission costs a multiple of a height above all definitions, and the
emissions that it leads to cost less.

## Main definitions

* `Resolver.unsettled`, `Resolver.undeclared` — what is left to follow and to look up.
* `Resolver.isLookedUp` — the name is that of a definition, and made from itself.
* `Resolver.cost` — the bound on the depth of an emission.

## Main results

* `cost_followed`, `cost_inline`, `cost_property` — the emissions led to.
* `rank_declared` — an interface makes room for its fields.
* `cost_le_fuelFor` — the fuel covers the cost.
-/

namespace SchemaScript

/-- If the one condition implies the other and some item tells them apart, then it
counts fewer. -/
theorem countP_lt_of_imp {α : Type} {p q : α → Bool} {l : List α}
    (h : ∀ a ∈ l, p a = true → q a = true) {a : α} (ha : a ∈ l) (hp : p a = false)
    (hq : q a = true) : l.countP p + 1 ≤ l.countP q := by
  induction l with
  | nil => exact absurd ha List.not_mem_nil
  | cons b l ih =>
    have htail : ∀ c ∈ l, p c = true → q c = true := fun c hc => h c (List.mem_cons_of_mem b hc)
    have hle := List.countP_mono_left htail
    rw [List.countP_cons, List.countP_cons]
    rcases List.mem_cons.mp ha with rfl | ha
    · -- the item at hand counts in the second only
      rw [hp, hq]
      simpa using hle
    · have hlt := ih htail ha
      by_cases hb : p b = true
      · rw [hb, h b List.mem_cons_self hb]
        simpa using hlt
      · rw [if_neg hb]
        split <;> omega

namespace Resolver

variable {ε : Type}

/-! ### What is left -/

/-- The number of definitions whose names are not settled, one name left out. -/
def unsettled (r : Resolver ε) (but : Option String) : Nat :=
  r.definitions.names.countP fun path =>
    !r.isSettled (Name.ofDefinition path) && but != some (Name.ofDefinition path)

/-- The number of definitions with nothing declared under their own names. -/
def undeclared (r : Resolver ε) : Nat :=
  r.definitions.names.countP fun name => !r.queue.isKnown name

theorem unsettled_le {r r' : Resolver ε} {but but' : Option String}
    (hd : r'.definitions = r.definitions)
    (h : ∀ name, r'.isSettled name = false → but' ≠ some name →
      r.isSettled name = false ∧ but ≠ some name) :
    r'.unsettled but' ≤ r.unsettled but := by
  rw [unsettled, unsettled, hd]
  refine List.countP_mono_left fun path _ hp => ?_
  simp only [Bool.and_eq_true, Bool.not_eq_true', bne_iff_ne] at hp ⊢
  exact h _ hp.1 hp.2

theorem Advances.unsettled_le {r r' : Resolver ε} (h : Advances r r')
    (hd : r'.definitions = r.definitions) (but : Option String) :
    r'.unsettled but ≤ r.unsettled but := by
  refine Resolver.unsettled_le hd fun name hn hb => ⟨?_, hb⟩
  rw [Bool.eq_false_iff] at hn ⊢
  exact fun hs => hn (h name hs)

/-- Leaving a name out can only take from the number. -/
theorem unsettled_le_none (r : Resolver ε) (but : Option String) :
    r.unsettled but ≤ r.unsettled none :=
  unsettled_le rfl fun _ hn _ => ⟨hn, by simp⟩

/-- Leaving the name of a definition out that is not settled takes from it. -/
theorem unsettled_some_lt {r : Resolver ε} {path : String} (hp : path ∈ r.definitions.names)
    (hs : r.isSettled (Name.ofDefinition path) = false) :
    r.unsettled (some (Name.ofDefinition path)) + 1 ≤ r.unsettled none := by
  refine countP_lt_of_imp (fun q _ h => ?_) hp ?_ ?_
  · simp only [Bool.and_eq_true] at h ⊢
    exact ⟨h.1, by simp⟩
  · simp
  · simp [hs]

theorem undeclared_le {r r' : Resolver ε} (hd : r'.definitions = r.definitions)
    (hk : ∀ name, r.queue.isKnown name = true → r'.queue.isKnown name = true) :
    r'.undeclared ≤ r.undeclared := by
  rw [undeclared, undeclared, hd]
  refine List.countP_mono_left fun name _ hn => ?_
  rw [Bool.not_eq_true', Bool.eq_false_iff] at hn ⊢
  exact fun h => hn (hk name h)

/-- Declaring the own name of a definition takes from the number. -/
theorem undeclared_lt {r r' : Resolver ε} (hd : r'.definitions = r.definitions)
    (hk : ∀ name, r.queue.isKnown name = true → r'.queue.isKnown name = true) {name : String}
    (hn : name ∈ r.definitions.names) (hold : r.queue.isKnown name = false)
    (hnew : r'.queue.isKnown name = true) : r'.undeclared + 1 ≤ r.undeclared := by
  rw [undeclared, undeclared, hd]
  refine countP_lt_of_imp (fun k _ h => ?_) hn (by simp [hnew]) (by simp [hold])
  rw [Bool.not_eq_true', Bool.eq_false_iff] at h ⊢
  exact fun h' => h (hk k h')

/-! ### The cost of an emission -/

/-- The name is that of a definition, and made from itself. -/
def isLookedUp (r : Resolver ε) (typeName : String) : Bool :=
  r.definitions.names.contains typeName && Name.ofPath typeName == typeName

/-- What is left at the emission of a name, one name left out. -/
def rank (r : Resolver ε) (but : Option String) (typeName : String) : Nat :=
  2 * r.unsettled but + r.undeclared + if r.isLookedUp typeName then 0 else 1

/-- The name that an emission opens a definition under, if it does. -/
def entered (r : Resolver ε) (typeName : String) (node : Node) (fqn : String) : Option String :=
  match r.nodeFor typeName node with
  | .ok n =>
    if r.isDefinition typeName n (Definitions.withoutStart fqn) then some typeName else none
  | .error _ => none

/-- The schema to emit, `null` if there is none. -/
def schemaFor (r : Resolver ε) (typeName : String) (node : Node) : Json :=
  if node.schema.isNull then r.definitions.get typeName else node.schema

/-- A bound on the depth of an emission, given a height above all definitions. -/
def cost (height : Nat) (r : Resolver ε) (typeName : String) (node : Node) (fqn : String) : Nat :=
  r.rank (r.entered typeName node fqn) typeName * height +
    (r.schemaFor typeName node).height + 1

theorem schema_of_nodeFor {r : Resolver ε} {typeName : String} {node n : Node}
    (h : r.nodeFor typeName node = .ok n) : n.schema = r.schemaFor typeName node := by
  rw [nodeFor] at h
  rw [schemaFor]
  split at h
  · next hs =>
    rw [if_pos hs]
    dsimp only at h
    split at h
    · cases h
    · cases h
      rfl
  · next hs =>
    rw [if_neg hs]
    cases h
    rfl

/-- The name of what an array or a map holds is looked up if that of the array or the
map is. -/
theorem rank_ofPath_le (r : Resolver ε) (but : Option String) (typeName : String) :
    r.rank but (Name.ofPath typeName) ≤ r.rank but typeName := by
  rw [rank, rank]
  by_cases h : r.isLookedUp typeName = true
  · have heq : Name.ofPath typeName = typeName := by
      rw [isLookedUp, Bool.and_eq_true, beq_iff_eq] at h
      exact h.2
    rw [heq]
  · rw [if_neg h]
    split <;> omega

theorem rank_le_succ (r : Resolver ε) (but : Option String) (typeName : String) :
    r.rank but typeName ≤ 2 * r.unsettled none + r.undeclared + 1 := by
  have := r.unsettled_le_none but
  rw [rank]
  split <;> omega

/-- An interface makes room for the fields behind it: either its name was not looked
up, or it is declared now. -/
theorem rank_declared {r : Resolver ε} {d : Declaration ε}
    (hk : r.queue.isKnown d.name = false) (hd : d.body.script? = none) :
    2 * (r.declared d).unsettled none + (r.declared d).undeclared + 1 ≤
      r.rank (some d.name) d.name := by
  have hg := grows_declared (d := d) hk hd
  have hadv : Advances r (r.declared d) := hg.advances rfl
  have hu : (r.declared d).unsettled none ≤ r.unsettled (some d.name) := by
    refine unsettled_le rfl fun name hn _ => ⟨?_, ?_⟩
    · rw [Bool.eq_false_iff] at hn ⊢
      exact fun hs => hn (hadv name hs)
    · -- the declared name is settled now, so leaving it out is no loss
      rw [Ne, Option.some.injEq]
      rintro rfl
      rw [isSettled_of_isKnown (isKnown_declared r d)] at hn
      exact Bool.false_ne_true hn.symm
  rw [rank]
  by_cases hl : r.isLookedUp d.name = true
  · -- the name was looked up: declaring it takes from what is undeclared
    have hm : d.name ∈ r.definitions.names := by
      rw [isLookedUp, Bool.and_eq_true, List.contains_iff_mem] at hl
      exact hl.1
    have hb : (r.declared d).undeclared + 1 ≤ r.undeclared :=
      undeclared_lt rfl (fun _ => hg.isKnown) hm hk (isKnown_declared r d)
    rw [if_pos hl]
    omega
  · -- the name was not looked up: this is the one that is free
    have hb : (r.declared d).undeclared ≤ r.undeclared :=
      undeclared_le rfl fun _ => hg.isKnown
    rw [if_neg hl]
    omega

/-- An open definition without a declaration leaves what was left without its name. -/
theorem rank_opened {r : Resolver ε} {typeName : String} {o : Opening}
    (ho : o.kind.isNamed = false) :
    (r.opened typeName o).rank none typeName ≤ r.rank (some typeName) typeName := by
  have hu : (r.opened typeName o).unsettled none ≤ r.unsettled (some typeName) := by
    refine unsettled_le rfl fun name hn _ => ?_
    have hne : name ≠ typeName := by
      rintro rfl
      rw [isSettled_opened_self ho] at hn
      exact Bool.false_ne_true hn.symm
    rw [isSettled_opened o hne] at hn
    exact ⟨hn, by simpa using Ne.symm hne⟩
  have hl : (r.opened typeName o).isLookedUp typeName = r.isLookedUp typeName := rfl
  have hb : (r.opened typeName o).undeclared = r.undeclared := rfl
  rw [rank, rank, hl, hb]
  omega

/-- Opening a definition of any kind adds nothing but its own name. -/
theorem rank_opened_some (r : Resolver ε) (typeName : String) (o : Opening) :
    (r.opened typeName o).rank (some typeName) typeName ≤ r.rank (some typeName) typeName := by
  have hu : (r.opened typeName o).unsettled (some typeName) ≤ r.unsettled (some typeName) := by
    refine unsettled_le rfl fun name hn hb => ⟨?_, hb⟩
    rwa [isSettled_opened o (by simpa using Ne.symm hb)] at hn
  have hl : (r.opened typeName o).isLookedUp typeName = r.isLookedUp typeName := rfl
  have hb : (r.opened typeName o).undeclared = r.undeclared := rfl
  rw [rank, rank, hl, hb]
  omega

/-! ### The emissions led to -/

/-- What is defined under a name, at its place, is the definition. -/
theorem isDefinition_node {r : Resolver ε} {name : String}
    (h : (r.definitions.node name).schema.isNull = false) :
    r.isDefinition (Name.ofDefinition name) (r.definitions.node name) name = true := by
  rw [isDefinition, Definitions.holds_node h, beq_self_eq_true]
  rfl

/-- What a reference is followed to costs less than what is left. -/
theorem cost_followed {r : Resolver ε} {height : Nat} (hh : r.definitions.height < height)
    {schema : Json} {fqn name : String} {node : Node} {place : String}
    (h : r.read schema fqn = .followed name node place) :
    r.cost height name node place ≤ (2 * r.unsettled none + r.undeclared) * height := by
  obtain ⟨hs, path, rfl, rfl, hnode, hpath⟩ := of_followed h
  obtain ⟨rfl, hnull⟩ := Definitions.resolve_eq_ok hpath hnode
  have hmem : path ∈ r.definitions.names := Definitions.mem_names_of_get hnull
  have hentered : r.entered (Name.ofDefinition path) (r.definitions.node path)
      (Definitions.refTo path) = some (Name.ofDefinition path) := by
    rw [entered, nodeFor_of_not_isNull r hnull]
    dsimp only
    rw [Definitions.withoutStart_refTo, if_pos (isDefinition_node hnull)]
  have hheight : (r.schemaFor (Name.ofDefinition path) (r.definitions.node path)).height <
      height := by
    rw [schemaFor, hnull]
    exact Nat.lt_of_le_of_lt (Definitions.height_get_le _ path) hh
  -- following settles the name, and that pays for the height of the definition
  have hlt := unsettled_some_lt hmem hs
  have hrank : r.rank (some (Name.ofDefinition path)) (Name.ofDefinition path) + 1 ≤
      2 * r.unsettled none + r.undeclared := by
    rw [rank]
    split <;> omega
  calc r.cost height (Name.ofDefinition path) (r.definitions.node path) (Definitions.refTo path)
      ≤ r.rank (some (Name.ofDefinition path)) (Name.ofDefinition path) * height + height := by
        rw [cost, hentered]
        omega
    _ = (r.rank (some (Name.ofDefinition path)) (Name.ofDefinition path) + 1) * height := by
        rw [Nat.add_mul, Nat.one_mul]
    _ ≤ (2 * r.unsettled none + r.undeclared) * height := Nat.mul_le_mul_right height hrank

/-- A schema written where it stands opens nothing. -/
theorem cost_inline (r : Resolver ε) (height : Nat) {schema : Json}
    (hs : schema.isNull = false) (typeName fqn : String) :
    r.cost height typeName (.inline schema) fqn =
      r.rank none typeName * height + schema.height + 1 := by
  have hentered : r.entered typeName (.inline schema) fqn = none := by
    rw [entered, nodeFor_of_not_isNull r (n := .inline schema) hs]
    simp [isDefinition]
  rw [cost, hentered, schemaFor, show (Node.inline schema).schema.isNull = false from hs]
  rfl

/-- A property costs what is left and its own height, even if it is looked up. -/
theorem cost_property {r : Resolver ε} {height : Nat} (hh : r.definitions.height < height)
    {schema : Json} {h : Nat} (hs : schema.height < h) (fqn : String) :
    r.cost height (Name.ofPath fqn) (.inline schema) fqn ≤
      (2 * r.unsettled none + r.undeclared + 1) * height + h := by
  have hrank : ∀ but, r.rank but (Name.ofPath fqn) * height ≤
      (2 * r.unsettled none + r.undeclared + 1) * height :=
    fun but => Nat.mul_le_mul_right height (r.rank_le_succ but _)
  by_cases hnull : schema.isNull = true
  · have hfor : r.schemaFor (Name.ofPath fqn) (.inline schema) =
        r.definitions.get (Name.ofPath fqn) := if_pos hnull
    by_cases hm : Name.ofPath fqn ∈ r.definitions.names
    · -- the name is looked up, and made from itself like all such names
      have hl : r.isLookedUp (Name.ofPath fqn) = true := by
        rw [isLookedUp, Bool.and_eq_true, List.contains_iff_mem, beq_iff_eq]
        exact ⟨hm, Name.ofPath_ofPath fqn⟩
      have hle := r.unsettled_le_none (r.entered (Name.ofPath fqn) (.inline schema) fqn)
      have hheight := Definitions.height_get_le r.definitions (Name.ofPath fqn)
      have hmul : (2 * r.unsettled (r.entered (Name.ofPath fqn) (.inline schema) fqn) +
          r.undeclared + 0) * height ≤ (2 * r.unsettled none + r.undeclared) * height :=
        Nat.mul_le_mul_right height (by omega)
      have hsucc : (2 * r.unsettled none + r.undeclared + 1) * height =
          (2 * r.unsettled none + r.undeclared) * height + height := Nat.succ_mul _ _
      rw [cost, hfor, rank, if_pos hl]
      omega
    · -- nothing is defined there, and nothing will be emitted
      have hzero : (r.definitions.get (Name.ofPath fqn)).height = 0 := by
        rw [Definitions.get_of_notMem hm]
        rfl
      rw [cost, hfor, hzero]
      have := hrank (r.entered (Name.ofPath fqn) (.inline schema) fqn)
      omega
  · rw [Bool.not_eq_true] at hnull
    rw [cost_inline r height hnull]
    have := hrank none
    omega

/-- **The fuel covers the cost.** -/
theorem cost_le_fuelFor (r : Resolver ε) (typeName : String) (node : Node) (fqn : String) :
    r.cost (max r.definitions.height node.schema.height + 2) typeName node fqn ≤
      r.fuelFor node := by
  have hsize : r.definitions.names.length = r.definitions.table.size := List.length_map _
  have hu : ∀ but, r.unsettled but ≤ r.definitions.table.size := fun but =>
    hsize ▸ List.countP_le_length
  have hb : r.undeclared ≤ r.definitions.table.size := hsize ▸ List.countP_le_length
  -- unsettled names count twice, and undeclared ones once
  have hrank : r.rank (r.entered typeName node fqn) typeName ≤
      3 * r.definitions.table.size + 1 := by
    have := hu (r.entered typeName node fqn)
    rw [rank]
    split <;> omega
  have hheight : (r.schemaFor typeName node).height ≤
      max r.definitions.height node.schema.height := by
    rw [schemaFor]
    split
    · exact Nat.le_trans (Definitions.height_get_le _ _) (Nat.le_max_left _ _)
    · exact Nat.le_max_right _ _
  calc r.cost (max r.definitions.height node.schema.height + 2) typeName node fqn
      ≤ (3 * r.definitions.table.size + 1) * (max r.definitions.height node.schema.height + 2) +
          (max r.definitions.height node.schema.height + 2) := by
        have := Nat.mul_le_mul_right (max r.definitions.height node.schema.height + 2) hrank
        rw [cost]
        omega
    _ = (3 * r.definitions.table.size + 2) *
          (max r.definitions.height node.schema.height + 2) := by
        rw [← Nat.succ_mul]
    _ ≤ r.fuelFor node := Nat.mul_le_mul_right _ (by omega)

end Resolver
end SchemaScript
