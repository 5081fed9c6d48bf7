import SchemaScript.Proofs.Emission.Termination
import SchemaScript.Proofs.References

/-!
# Parallel runs

Two emissions go the same way if they find the same where they look.  Where they look is
told by a relation between schemas at hand: it holds of the schemas that the emissions
start with and is handed on to those that they lead to.  The definitions may differ as
far as they are not looked at.  The queues may differ as well: what still waits at the
front of the one may be written in the other.

Both runs have the same outcome, failures included, and put the same declarations in
the queue.

## Main definitions

* `Definitions.Matches` — a relation between schemas at hand that is handed on.
* `Resolver.Parallel` — the states of the two runs.
* `Resolver.RunsParallel` — the outcomes of the two runs.

## Main results

* `alwaysParallel_emitWith`, `parallel_emit` — the two runs stay parallel.
-/

namespace SchemaScript

/-- Schemas at hand that two emissions with different definitions treat alike, as far as
they look. -/
structure Definitions.Matches (es : List Exclusion) (ds ds' : Definitions)
    (C : Node → Node → Prop) : Prop where
  schema : ∀ {n n'}, C n n' → n.schema = n'.schema
  holds : ∀ {n n'}, C n n' → ∀ place, ds.holds place n = ds'.holds place n'
  lookUp : ∀ {n n'}, C n n' → n.schema.isNull = true → ∀ name, C (ds.node name) (ds'.node name)
  items : ∀ {n n'}, C n n' → Schema.classify n.schema = .ok .array →
    (n.schema.get "items").isObject = true →
      C (.inline (n.schema.get "items")) (.inline (n.schema.get "items"))
  values : ∀ {n n'}, C n n' → Schema.classify n.schema = .ok .map →
    C (.inline (n.schema.get "additionalProperties"))
      (.inline (n.schema.get "additionalProperties"))
  property : ∀ {n n' p}, C n n' → Schema.classify n.schema = .ok .struct →
    p ∈ (n.schema.get "properties").fields → Resolver.isExtension p.1 = false →
      C (.inline p.2) (.inline p.2)
  /-- A reference that is not stopped leads to the same in both. -/
  reference : ∀ {n n' path}, C n n' → Schema.classify n.schema = .ok .ref →
    Definitions.path? (n.schema.get "$ref") = some path → Exclusion.stops es path = false →
      ds.get path = ds'.get path ∧
        ((ds.get path).isNull = false → C (ds.node path) (ds'.node path))

/-- With the same definitions a schema at hand is treated as itself. -/
theorem Definitions.matches_self (es : List Exclusion) (ds : Definitions) :
    Definitions.Matches es ds ds Eq where
  schema := fun h => by rw [h]
  holds := fun h _ => by rw [h]
  lookUp := fun _ _ _ => rfl
  items := fun _ _ _ => rfl
  values := fun _ _ => rfl
  property := fun _ _ _ _ => rfl
  reference := fun _ _ _ _ => ⟨rfl, fun _ => rfl⟩

namespace Resolver

open Stateful

variable {ε : Type}

/-! ### States of the two runs -/

/-- The states of two runs with different definitions.  The front of the first queue is
written in the second. -/
structure Parallel (es : List Exclusion) (ds ds' : Definitions)
    (front : List (String × Declaration ε)) (a b : Resolver ε) : Prop where
  exclusions : a.exclusions = es ∧ b.exclusions = es
  definitions : a.definitions = ds ∧ b.definitions = ds'
  waiting : a.queue.waiting.entries = front ++ b.queue.waiting.entries
  written : ∀ name, b.queue.isWritten name = true ↔
    name ∈ front.map (·.1) ∨ a.queue.isWritten name = true
  resolved : a.resolved = b.resolved
  opening : a.opening = b.opening

namespace Parallel

variable {es : List Exclusion} {ds ds' : Definitions} {front : List (String × Declaration ε)}
  {a b a' b' : Resolver ε}

theorem isExcluded (h : Parallel es ds ds' front a b) (name : String) :
    a.isExcluded name = es.any (·.hits name) ∧ b.isExcluded name = es.any (·.hits name) := by
  rw [isExcluded_eq_any, isExcluded_eq_any, h.exclusions.1, h.exclusions.2]
  exact ⟨rfl, rfl⟩

theorem isKnown (h : Parallel es ds ds' front a b) (name : String) :
    a.queue.isKnown name = b.queue.isKnown name := by
  rw [Bool.eq_iff_iff, Queue.isKnown, Queue.isKnown, Bool.or_eq_true, Bool.or_eq_true,
    Queue.isWaiting, Queue.isWaiting, Table.contains_iff_mem_keys, Table.contains_iff_mem_keys,
    Table.keys, h.waiting, h.written, List.map_append, List.mem_append]
  exact ⟨fun hk => by tauto, fun hk => by rw [Table.keys] at hk; tauto⟩

theorem isOpenUnnamed (h : Parallel es ds ds' front a b) (name : String) :
    a.isOpenUnnamed name = b.isOpenUnnamed name := by
  rw [Resolver.isOpenUnnamed, Resolver.isOpenUnnamed, h.opening]

theorem admission (h : Parallel es ds ds' front a b) {n n' : Node} (hn : n.schema = n'.schema)
    (typeName fqn : String) : a.admission typeName n fqn = b.admission typeName n' fqn := by
  rw [Resolver.admission, Resolver.admission, exclusionOf, exclusionOf, h.exclusions.1,
    h.exclusions.2, hn]

/-- A name that is not known does not stand in the front. -/
theorem notMem_front (h : Parallel es ds ds' front a b) {name : String}
    (hk : a.queue.isKnown name = false) : name ∉ front.map (·.1) := by
  intro hm
  refine notMem_keys_of_not_isKnown hk ?_
  rw [Table.keys, h.waiting, List.map_append]
  exact List.mem_append_left _ hm

theorem checkpoint (h : Parallel es ds ds' front a b) :
    a.queue.checkpoint = front.length + b.queue.checkpoint := by
  rw [Queue.checkpoint, Queue.checkpoint, Table.size, Table.size, h.waiting, List.length_append]

/-! #### Steps -/

theorem noted (h : Parallel es ds ds' front a b) (ns ns' : List Note) :
    Parallel es ds ds' front (a.noted ns) (b.noted ns') :=
  { h with }

/-- A declaration whose name does not stand in the front enters both queues alike. -/
theorem insert (h : Parallel es ds ds' front a b) {d : Declaration ε}
    (hn : d.name ∉ front.map (·.1)) :
    (a.queue.waiting.insert d.name d).entries =
      front ++ (b.queue.waiting.insert d.name d).entries := by
  rw [Table.insert, Table.insert, h.waiting]
  exact Entries.put_append d _ hn

theorem declared (h : Parallel es ds ds' front a b) {d : Declaration ε}
    (hn : d.name ∉ front.map (·.1)) :
    Parallel es ds ds' front (a.declared d) (b.declared d) :=
  { h with waiting := h.insert hn }

theorem completed (h : Parallel es ds ds' front a b) {d : Declaration ε}
    (hn : d.name ∉ front.map (·.1)) :
    Parallel es ds ds' front (a.completed d) (b.completed d) :=
  { h with waiting := h.insert hn }

/-- Both runs are cut back to where they were parallel before. -/
theorem reverted (h : Parallel es ds ds' front a b) (h' : Parallel es ds ds' front a' b') :
    Parallel es ds ds' front (a'.reverted a) (b'.reverted b) :=
  { h' with
    waiting := by
      simp only [Resolver.reverted, Queue.rollback, Table.entries_take]
      rw [h.checkpoint, h'.waiting, List.take_length_add_append]
    resolved := by
      simp only [Resolver.reverted]
      rw [h'.resolved, h.resolved] }

theorem opened (h : Parallel es ds ds' front a b) (typeName : String) (o : Opening) :
    Parallel es ds ds' front (a.opened typeName o) (b.opened typeName o) :=
  { h with opening := congrArg (·.insert typeName o) h.opening }

theorem closed (h : Parallel es ds ds' front a b) (typeName : String) :
    Parallel es ds ds' front (a.closed typeName) (b.closed typeName) :=
  { h with opening := congrArg (·.erase typeName) h.opening }

theorem remembered (h : Parallel es ds ds' front a b) (typeName : String) (t : TypeExpr) :
    Parallel es ds ds' front (a.remembered typeName t) (b.remembered typeName t) :=
  { h with resolved := congrArg (·.insert typeName t) h.resolved }

end Parallel

/-! ### Outcomes of the two runs -/

/-- The outcomes are the same and the states parallel. -/
structure RunsParallel {α : Type} (es : List Exclusion) (ds ds' : Definitions)
    (front : List (String × Declaration ε)) (o o' : Except Failure α × Resolver ε) : Prop where
  outcome : o.1 = o'.1
  states : Parallel es ds ds' front o.2 o'.2

namespace RunsParallel

variable {es : List Exclusion} {ds ds' : Definitions} {front : List (String × Declaration ε)}
  {α β : Type}

theorem same (x : Except Failure α) {a b : Resolver ε} (h : Parallel es ds ds' front a b) :
    RunsParallel es ds ds' front (x, a) (x, b) :=
  ⟨rfl, h⟩

theorem mapValue {o o' : Except Failure α × Resolver ε} (h : RunsParallel es ds ds' front o o')
    (f : α → β) :
    RunsParallel es ds ds' front (Stateful.mapValue f o) (Stateful.mapValue f o') :=
  ⟨congrArg (Except.map f) h.outcome, h.states⟩

/-- What goes on alike from parallel states goes on so behind parallel runs. -/
theorem bind {m m' : Resolving ε α} {f f' : α → Resolving ε β} {a b : Resolver ε}
    (h : RunsParallel es ds ds' front (exec m a) (exec m' b))
    (hf : ∀ x {a' b' : Resolver ε}, Parallel es ds ds' front a' b' →
      RunsParallel es ds ds' front (exec (f x) a') (exec (f' x) b')) :
    RunsParallel es ds ds' front (exec (m >>= f) a) (exec (m' >>= f') b) := by
  rw [exec_bind, exec_bind]
  rcases hm : exec m a with ⟨x, a'⟩
  rcases hm' : exec m' b with ⟨x', b'⟩
  rw [hm, hm'] at h
  obtain ⟨rfl, hstates⟩ := h
  cases x with
  | error e => exact same _ hstates
  | ok x => exact hf x hstates

end RunsParallel

/-- Two emissions run parallel from parallel states on, asked for schemas at hand that
match. -/
def AlwaysParallel (es : List Exclusion) (ds ds' : Definitions) (C : Node → Node → Prop)
    (front : List (String × Declaration ε)) (emit : Emitting ε) : Prop :=
  ∀ typeName node node' fqn (a b : Resolver ε), C node node' → Parallel es ds ds' front a b →
    RunsParallel es ds ds' front (exec (emit typeName node fqn) a)
      (exec (emit typeName node' fqn) b)

section

variable {es : List Exclusion} {ds ds' : Definitions} {C : Node → Node → Prop}
  {front : List (String × Declaration ε)} {emit : Emitting ε} {a b : Resolver ε}
  (hC : Definitions.Matches es ds ds' C) (he : AlwaysParallel es ds ds' C front emit)
  (h : Parallel es ds ds' front a b)

include h

/-! ### References -/

omit he in
include hC in
/-- A reference is read alike, and what it is followed to matches. -/
theorem read_parallel {n n' : Node} (hn : C n n') (hk : Schema.classify n.schema = .ok .ref)
    (fqn : String) :
    (∃ e, a.read n.schema fqn = .failed e ∧ b.read n.schema fqn = .failed e) ∨
      (∃ t ns, a.read n.schema fqn = .answered t ns ∧ b.read n.schema fqn = .answered t ns) ∨
      ∃ name m m' place, a.read n.schema fqn = .followed name m place ∧
        b.read n.schema fqn = .followed name m' place ∧ C m m' := by
  unfold read
  cases hp : Definitions.path? (n.schema.get "$ref") with
  | none => exact Or.inl ⟨_, rfl, rfl⟩
  | some path =>
    simp only [h.isExcluded, h.resolved, h.opening, h.isOpenUnnamed, h.isKnown,
      h.definitions.1, h.definitions.2]
    cases hx : (es.any (·.hits (Definitions.refTo path)) || es.any (·.hits path)) with
    | true => exact Or.inr (Or.inl ⟨_, _, rfl, rfl⟩)
    | false =>
      simp only [Bool.false_eq_true, if_false]
      split
      · exact Or.inr (Or.inl ⟨_, _, rfl, rfl⟩)
      · split
        · exact Or.inr (Or.inl ⟨_, _, rfl, rfl⟩)
        · split
          · exact Or.inr (Or.inl ⟨_, _, rfl, rfl⟩)
          · -- the definitions are looked at here only
            obtain ⟨hget, hnode⟩ := hC.reference hn hk hp hx
            simp only [Definitions.resolve, hp]
            simp only [Definitions.get] at hget hnode
            rw [← hget]
            cases hnull : (ds.node path).schema.isNull with
            | true => exact Or.inl ⟨_, rfl, rfl⟩
            | false => exact Or.inr (Or.inr ⟨_, _, _, _, rfl, rfl, hnode hnull⟩)

include hC he in
theorem parallel_emitRef {n n' : Node} (hn : C n n')
    (hk : Schema.classify n.schema = .ok .ref) (fqn : String) :
    RunsParallel es ds ds' front (exec (emitRef emit n.schema fqn) a)
      (exec (emitRef emit n.schema fqn) b) := by
  rw [exec_emitRef, exec_emitRef]
  rcases read_parallel hC h hn hk fqn with ⟨e, ha, hb⟩ | ⟨t, ns, ha, hb⟩ |
    ⟨name, m, m', place, ha, hb, hm⟩
  · rw [ha, hb]
    exact .same _ h
  · rw [ha, hb]
    exact .same _ (h.noted ns ns)
  · rw [ha, hb]
    exact he name m m' place a b hm h

/-! ### Arrays and maps -/

include hC he in
theorem parallel_emitArray {n n' : Node} (hn : C n n')
    (hk : Schema.classify n.schema = .ok .array) (typeName fqn : String) :
    RunsParallel es ds ds' front (exec (emitArray emit typeName n.schema fqn) a)
      (exec (emitArray emit typeName n.schema fqn) b) := by
  rw [exec_emitArray, exec_emitArray]
  split
  · next hi => exact (he _ _ _ _ a b (hC.items hn hk hi) h).mapValue _
  · exact .same _ h

include hC he in
theorem parallel_emitMap {n n' : Node} (hn : C n n')
    (hk : Schema.classify n.schema = .ok .map) (typeName fqn : String) :
    RunsParallel es ds ds' front (exec (emitMap emit typeName n.schema fqn) a)
      (exec (emitMap emit typeName n.schema fqn) b) := by
  rw [exec_emitMap, exec_emitMap]
  exact (he _ _ _ _ a b (hC.values hn hk) h).mapValue _

/-! ### Declarations -/

omit hC he in
theorem parallel_emitUnion (typeName : String) (schema : Json) (fqn : String) :
    RunsParallel es ds ds' front (exec (emitUnion typeName schema fqn) a)
      (exec (emitUnion typeName schema fqn) b) := by
  rw [exec_emitUnion, exec_emitUnion, ← h.isKnown]
  split
  · exact .same _ h
  · next hk => exact .same _ (h.declared (h.notMem_front (Bool.not_eq_true _ ▸ hk)))

omit hC he in
theorem parallel_emitEnum (typeName : String) (schema : Json) (fqn : String) :
    RunsParallel es ds ds' front (exec (emitEnum typeName schema fqn) a)
      (exec (emitEnum typeName schema fqn) b) := by
  obtain ⟨ms, ns, -, hexec⟩ := exec_emitEnum (ε := ε) typeName schema fqn
  rw [hexec, hexec, ← h.isKnown]
  split
  · exact .same _ h
  · next hk =>
    cases ms with
    | error e => exact .same _ (h.noted ns ns)
    | ok ms =>
      exact .same _ ((h.noted ns ns).declared (h.notMem_front (Bool.not_eq_true _ ▸ hk)))

omit hC h in
include he in
theorem parallel_fields (structFqn : String) (struct : Json) {ps : List (String × Json)}
    (hps : ∀ p ∈ ps, isExtension p.1 = false → C (.inline p.2) (.inline p.2))
    {a b : Resolver ε} (h : Parallel es ds ds' front a b) :
    RunsParallel es ds ds' front (exec (fields emit structFqn struct ps) a)
      (exec (fields emit structFqn struct ps) b) := by
  induction ps generalizing a b with
  | nil => exact .same _ h
  | cons p ps ih =>
    have hrest : ∀ q ∈ ps, isExtension q.1 = false → C (.inline q.2) (.inline q.2) :=
      fun q hq => hps q (List.mem_cons_of_mem p hq)
    rw [exec_fields_cons, exec_fields_cons]
    split
    · exact ih hrest h
    · next hx =>
      have hp := hps p List.mem_cons_self (Bool.not_eq_true _ ▸ hx)
      have hf : RunsParallel es ds ds' front (exec (field emit structFqn struct p.1 p.2) a)
          (exec (field emit structFqn struct p.1 p.2) b) := by
        rw [exec_field, exec_field]
        exact (he _ _ _ _ a b hp h).mapValue _
      -- the rest starts from where the field left both runs
      rcases ha : exec (field emit structFqn struct p.1 p.2) a with ⟨x, a'⟩
      rcases hb : exec (field emit structFqn struct p.1 p.2) b with ⟨x', b'⟩
      rw [ha, hb] at hf
      obtain ⟨rfl, hstates⟩ := hf
      cases x with
      | error e => exact .same _ hstates
      | ok f => exact (ih hrest hstates).mapValue _

include hC he in
theorem parallel_emitStruct {n n' : Node} (hn : C n n')
    (hk : Schema.classify n.schema = .ok .struct) (typeName fqn : String) :
    RunsParallel es ds ds' front (exec (emitStruct emit typeName n.schema fqn) a)
      (exec (emitStruct emit typeName n.schema fqn) b) := by
  rw [exec_emitStruct, exec_emitStruct, ← h.isKnown]
  split
  · exact .same _ h
  · next hnew =>
    have hfront : typeName ∉ front.map (·.1) := h.notMem_front (Bool.not_eq_true _ ▸ hnew)
    have hf := parallel_fields he fqn n.schema (fun p hp hx => hC.property hn hk hp hx)
      (h.declared (d := ⟨typeName, fqn, n.schema.get "description", some n.schema, .struct []⟩)
        hfront)
    rcases ha : exec (fields emit fqn n.schema (n.schema.get "properties").fields)
      (a.declared ⟨typeName, fqn, n.schema.get "description", some n.schema, .struct []⟩)
      with ⟨x, a'⟩
    rcases hb : exec (fields emit fqn n.schema (n.schema.get "properties").fields)
      (b.declared ⟨typeName, fqn, n.schema.get "description", some n.schema, .struct []⟩)
      with ⟨x', b'⟩
    rw [ha, hb] at hf
    obtain ⟨rfl, hstates⟩ := hf
    cases x with
    | error e => exact .same _ (h.reverted hstates)
    | ok fs => exact .same _ (hstates.completed hfront)

/-! ### Emission -/

include hC he in
theorem parallel_emitKind {n n' : Node} (hn : C n n') {kind : Kind}
    (hk : Schema.classify n.schema = .ok kind) (typeName fqn : String) :
    RunsParallel es ds ds' front (exec (emitKind emit kind typeName n.schema fqn) a)
      (exec (emitKind emit kind typeName n.schema fqn) b) := by
  cases kind with
  | ref => exact parallel_emitRef hC he h hn hk fqn
  | union => exact parallel_emitUnion h typeName n.schema fqn
  | array => exact parallel_emitArray hC he h hn hk typeName fqn
  | enumString => exact parallel_emitEnum h typeName n.schema fqn
  | map => exact parallel_emitMap hC he h hn hk typeName fqn
  | struct => exact parallel_emitStruct hC he h hn hk typeName fqn
  | _ => exact .same _ h

include hC he in
theorem parallel_emitDefinition {n n' : Node} (hn : C n n') {kind : Kind}
    (hk : Schema.classify n.schema = .ok kind) (typeName fqn : String) :
    RunsParallel es ds ds' front (exec (emitDefinition emit kind typeName n.schema fqn) a)
      (exec (emitDefinition emit kind typeName n.schema fqn) b) := by
  rw [exec_emitDefinition, exec_emitDefinition, ← h.resolved]
  cases a.resolved.find? typeName with
  | some t => exact .same _ h
  | none =>
    have hin := parallel_emitKind hC he (h.opened typeName ⟨fqn, kind⟩) hn hk typeName fqn
    rcases ha : exec (emitKind emit kind typeName n.schema fqn) (a.opened typeName ⟨fqn, kind⟩)
      with ⟨x, a'⟩
    rcases hb : exec (emitKind emit kind typeName n.schema fqn) (b.opened typeName ⟨fqn, kind⟩)
      with ⟨x', b'⟩
    rw [ha, hb] at hin
    obtain ⟨rfl, hstates⟩ := hin
    dsimp only at hstates ⊢
    rw [← hstates.opening]
    split
    · cases x with
      | error e => exact .same _ (hstates.closed typeName)
      | ok t => exact .same _ ((hstates.closed typeName).remembered typeName t)
    · exact .same _ hstates

omit he in
include hC in
/-- What is emitted in the place of `null` matches as well. -/
theorem nodeFor_parallel {n n' : Node} (hn : C n n') (typeName : String) :
    (∃ e, a.nodeFor typeName n = .error e ∧ b.nodeFor typeName n' = .error e) ∨
      ∃ m m', a.nodeFor typeName n = .ok m ∧ b.nodeFor typeName n' = .ok m' ∧ C m m' := by
  rw [nodeFor, nodeFor, ← hC.schema hn, h.definitions.1, h.definitions.2]
  cases hnull : n.schema.isNull with
  | false => exact Or.inr ⟨n, n', rfl, rfl, hn⟩
  | true =>
    have hm := hC.lookUp hn hnull typeName
    simp only [if_true, ← hC.schema hm]
    split
    · exact Or.inl ⟨_, rfl, rfl⟩
    · exact Or.inr ⟨_, _, rfl, rfl, hm⟩

end

theorem alwaysParallel_emitStep {es : List Exclusion} {ds ds' : Definitions}
    {C : Node → Node → Prop} {front : List (String × Declaration ε)} {emit : Emitting ε}
    (hC : Definitions.Matches es ds ds' C) (he : AlwaysParallel es ds ds' C front emit) :
    AlwaysParallel es ds ds' C front (emitStep emit) := by
  intro typeName node node' fqn a b hn h
  rw [exec_emitStep, exec_emitStep]
  rcases nodeFor_parallel hC h hn typeName with ⟨e, ha, hb⟩ | ⟨m, m', ha, hb, hm⟩
  · rw [ha, hb]
    exact .same _ h
  · rw [ha, hb]
    have hadm := h.admission (hC.schema hm) typeName (Definitions.withoutStart fqn)
    have hdef : a.isDefinition typeName m (Definitions.withoutStart fqn) =
        b.isDefinition typeName m' (Definitions.withoutStart fqn) := by
      rw [isDefinition, isDefinition, h.definitions.1, h.definitions.2, hC.holds hm]
    simp only [← hadm, ← hdef, ← hC.schema hm]
    cases hk : a.admission typeName m (Definitions.withoutStart fqn) with
    | error e => exact .same _ h
    | ok kind =>
      have hclass := classify_of_admission hk
      dsimp only
      split
      · exact .same _ (h.noted _ _)
      · split
        · exact parallel_emitDefinition hC he h hm hclass typeName _
        · exact parallel_emitKind hC he h hm hclass typeName _

/-- **Emissions that find the same where they look run parallel**, down to any depth. -/
theorem alwaysParallel_emitWith {es : List Exclusion} {ds ds' : Definitions}
    {C : Node → Node → Prop} (hC : Definitions.Matches es ds ds' C)
    (front : List (String × Declaration ε)) (n : Nat) :
    AlwaysParallel es ds ds' C front (emitWith n) := by
  induction n with
  | zero => exact fun _ _ _ _ _ _ _ h => .same _ h
  | succ n ih => exact alwaysParallel_emitStep hC ih

/-- Fuel beyond what is set aside makes no difference. -/
theorem exec_emitWith_of_le {r : Resolver ε} {node : Node} {n : Nat} (hn : r.fuelFor node ≤ n)
    (typeName : String) (fqn : Option String) :
    exec (emitWith n typeName node (fqn.getD typeName)) r = exec (emit typeName node fqn) r := by
  rw [emitWith_eq_emitOver]
  exact exec_emitOver _ r typeName node fqn hn

/-- **Emissions run parallel**, although the fuel set aside for them may differ. -/
theorem parallel_emit {es : List Exclusion} {ds ds' : Definitions} {C : Node → Node → Prop}
    (hC : Definitions.Matches es ds ds' C) {front : List (String × Declaration ε)}
    {a b : Resolver ε} (h : Parallel es ds ds' front a b) {n n' : Node} (hn : C n n')
    (typeName : String) (fqn : Option String) :
    RunsParallel es ds ds' front (exec (emit typeName n fqn) a)
      (exec (emit typeName n' fqn) b) := by
  rw [← exec_emitWith_of_le (Nat.le_max_left (a.fuelFor n) (b.fuelFor n')) typeName fqn,
    ← exec_emitWith_of_le (Nat.le_max_right (a.fuelFor n) (b.fuelFor n')) typeName fqn]
  exact alwaysParallel_emitWith hC front _ typeName n n' _ a b hn h

end Resolver
end SchemaScript
