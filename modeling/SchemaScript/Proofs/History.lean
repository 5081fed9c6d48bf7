import SchemaScript.Proofs.Emission.Closure

/-!
# Histories of a resolver

From outside, a resolver is asked to emit schemas, to take declarations made by hand,
to define names, and to mark declarations as written.  A history is a list of such
operations in any order; one that fails leaves its changes and the next goes on from
there.

## Main definitions

* `Resolver.Operation`, `Resolver.operate` — what is done from outside.
* `Resolver.operateAll` — a history, with the expressions given on the way.
* `Resolver.IsSettled` — what holds of the state between operations.

## Main results

* `isSettled_operateAll` — it holds after every history.
* `knows_operateAll` — every expression given stands over names still known.
-/

namespace SchemaScript
namespace Resolver

open Stateful

variable {ε : Type}

/-- Something done to a resolver from outside. -/
inductive Operation (ε : Type)
  /-- Emits a schema. -/
  | emit (typeName : String) (node : Node) (fqn : Option String)
  /-- Puts a declaration made by hand in the queue, in the place of a waiting one. -/
  | takeOver (name : String) (script : Option ε)
  /-- Defines a name. -/
  | define (name : String) (node : Node)
  /-- Makes a name stand for another one. -/
  | addAlias (name target : String)
  /-- Marks a waiting declaration as written. -/
  | retire (name : String)

/-- Carries out an operation; an emission gives an expression. -/
def operate : Operation ε → Resolving ε (Option TypeExpr)
  | .emit typeName node fqn => do return some (← emit typeName node fqn)
  | .takeOver name script => do
    enqueueCustom name script
    return none
  | .define name node => do
    redefine fun ds => ds.share name node
    return none
  | .addAlias name target => do
    redefine fun ds => ds.addAlias name target
    return none
  | .retire name => do
    retire name
    return none

/-- The expressions in the outcome of an operation. -/
def given : Except Failure (Option TypeExpr) → List TypeExpr
  | .ok (some t) => [t]
  | _ => []

/-- Carries out operations one after the other, whether they fail or not, and gives the
expressions in order. -/
def operateAll : List (Operation ε) → Resolver ε → List TypeExpr × Resolver ε
  | [], r => ([], r)
  | op :: ops, r =>
    let (o, r') := exec (operate op) r
    let (ts, r'') := operateAll ops r'
    (given o ++ ts, r'')

@[simp] theorem operateAll_nil (r : Resolver ε) : operateAll [] r = ([], r) := rfl

theorem operateAll_cons (op : Operation ε) (ops : List (Operation ε)) (r : Resolver ε) :
    operateAll (op :: ops) r =
      (given (exec (operate op) r).1 ++ (operateAll ops (exec (operate op) r).2).1,
        (operateAll ops (exec (operate op) r).2).2) := rfl

/-- Two histories, one after the other, are a history. -/
theorem operateAll_append (ops ops' : List (Operation ε)) (r : Resolver ε) :
    operateAll (ops ++ ops') r =
      ((operateAll ops r).1 ++ (operateAll ops' (operateAll ops r).2).1,
        (operateAll ops' (operateAll ops r).2).2) := by
  induction ops generalizing r with
  | nil => rfl
  | cons op ops ih =>
    rw [List.cons_append, operateAll_cons, operateAll_cons, ih, List.append_assoc]

/-! ### Single operations -/

/-- The resolver with a declaration marked as written. -/
def retired (r : Resolver ε) (name : String) : Resolver ε :=
  { r with queue := r.queue.finish name, notes := r.notes ++ [.finalized name] }

theorem exec_retire (name : String) (r : Resolver ε) :
    exec (retire name) r =
      if r.queue.isWaiting name then (.ok (), r.retired name)
      else (.error (.nameGone name), r) := by
  simp only [retire, exec_bind, exec_get]
  split <;> rfl

theorem exec_enqueueCustom (name : String) (script : Option ε) (r : Resolver ε) :
    exec (enqueueCustom name script) r =
      (.ok (), if r.queue.accepts name true then
        r.declared ⟨name, name, .null, none, .custom script⟩ else r) := by
  simp only [enqueueCustom, exec_bind, exec_enqueue]
  by_cases h : r.queue.accepts name true = true <;> simp [h]

theorem exec_operate_emit (typeName : String) (node : Node) (fqn : Option String)
    (r : Resolver ε) :
    exec (operate (.emit typeName node fqn)) r =
      mapValue some (exec (emit typeName node fqn) r) :=
  exec_bind_pure ..

theorem exec_operate_takeOver (name : String) (script : Option ε) (r : Resolver ε) :
    exec (operate (.takeOver name script)) r =
      (.ok none, (exec (enqueueCustom name script) r).2) := by
  simp only [operate, exec_bind, exec_enqueueCustom, exec_pure]

theorem exec_operate_retire (name : String) (r : Resolver ε) :
    exec (operate (.retire name)) r =
      if r.queue.isWaiting name then (.ok none, r.retired name)
      else (.error (.nameGone name), r) := by
  simp only [operate, exec_bind, exec_retire]
  by_cases h : r.queue.isWaiting name = true <;> simp [h]

/-! ### Names stay known -/

theorem mem_written_finish {q : Queue ε} {name k : String} :
    k ∈ (q.finish name).written ↔ k = name ∨ k ∈ q.written := by
  rw [Queue.finish]
  by_cases h : q.isWritten name = true
  · rw [if_pos h]
    -- marked a second time
    refine ⟨Or.inr, ?_⟩
    rintro (rfl | hk)
    · exact List.contains_iff_mem.mp h
    · exact hk
  · rw [if_neg h, List.mem_append, List.mem_singleton, or_comm]

/-- A name that is written meanwhile stays known. -/
theorem isKnown_retired {r : Resolver ε} {name k : String} (h : r.queue.isKnown k = true) :
    (r.retired name).queue.isKnown k = true := by
  rw [Queue.isKnown, Bool.or_eq_true, Queue.isWritten, List.contains_iff_mem] at h ⊢
  rw [retired, mem_written_finish]
  by_cases hk : k = name
  · exact Or.inr (Or.inl hk)
  · exact h.imp (fun hw => by simpa [Queue.isWaiting, Queue.finish, hk] using hw) Or.inr

/-- No operation makes a known name unknown. -/
theorem isKnown_operate (op : Operation ε) {r : Resolver ε} {name : String}
    (h : r.queue.isKnown name = true) :
    (exec (operate op) r).2.queue.isKnown name = true := by
  cases op with
  | emit typeName node fqn =>
    rw [exec_operate_emit]
    exact (grows_emit typeName node fqn r).isKnown h
  | takeOver n script =>
    rw [exec_operate_takeOver, exec_enqueueCustom]
    dsimp only
    split
    · -- a waiting declaration of the name is replaced, so the name stays
      exact isKnown_insert (d := ⟨n, n, .null, none, .custom script⟩) h
    · exact h
  | define n node => exact h
  | addAlias n target => exact h
  | retire n =>
    rw [exec_operate_retire]
    split
    · exact isKnown_retired h
    · exact h

theorem isKnown_operateAll (ops : List (Operation ε)) {r : Resolver ε} {name : String}
    (h : r.queue.isKnown name = true) : (operateAll ops r).2.queue.isKnown name = true := by
  induction ops generalizing r with
  | nil => exact h
  | cons op ops ih => exact ih (isKnown_operate op h)

/-! ### Between operations -/

/-- What holds of a resolver that nothing is being done to. -/
structure IsSettled (r : Resolver ε) : Prop where
  closed : r.IsClosed
  /-- No definition is open. -/
  opening : r.opening = .empty
  nodup : r.queue.names.Nodup
  /-- Declarations wait under their names. -/
  named : ∀ e ∈ r.queue.waiting.entries, e.2.name = e.1

theorem isSettled_fresh (es : List Exclusion) (ds : Definitions) :
    IsSettled (fresh es ds : Resolver ε) where
  closed := isClosed_fresh es ds
  opening := rfl
  nodup := List.nodup_nil
  named := fun _ h => absurd h List.not_mem_nil

/-- Notes, exclusions and definitions do not matter. -/
theorem IsSettled.of_eq {r r' : Resolver ε} (h : r.IsSettled) (hq : r'.queue = r.queue)
    (hr : r'.resolved = r.resolved) (ho : r'.opening = r.opening) : r'.IsSettled where
  closed := h.closed.of_eq hq hr
  opening := ho.trans h.opening
  nodup := hq ▸ h.nodup
  named := hq ▸ h.named

/-- Nothing stays open behind an emission. -/
theorem Grows.opening_eq_empty {r r' : Resolver ε} (h : Grows r r')
    (ho : r.opening = .empty) : r'.opening = .empty := by
  refine Table.eq_empty_of_contains fun name => ?_
  rw [Bool.eq_false_iff]
  intro hn
  have := h.opening name hn
  rw [ho] at this
  exact Bool.false_ne_true this

theorem isSettled_emit (typeName : String) (node : Node) (fqn : Option String)
    {r : Resolver ε} (h : r.IsSettled) : (exec (emit typeName node fqn) r).2.IsSettled := by
  have hg := grows_emit typeName node fqn r
  refine ⟨(sound_emit typeName node fqn h.closed).1, hg.opening_eq_empty h.opening,
    hg.nodup h.nodup, ?_⟩
  obtain ⟨es, he, hb⟩ := hg.waiting
  rw [he]
  intro e hm
  rcases List.mem_append.mp hm with hm | hm
  · exact h.named e hm
  · exact (hb e hm).1

theorem isSettled_declared {r : Resolver ε} {d : Declaration ε} (h : r.IsSettled)
    (hd : d.body.fields = []) : (r.declared d).IsSettled where
  closed := h.closed.declared hd
  opening := h.opening
  nodup := Table.nodup_keys_insert d.name d h.nodup
  named := by
    intro e he
    rcases Table.mem_entries_insert he with he | rfl
    · exact h.named e he
    · rfl

theorem isSettled_retired {r : Resolver ε} (name : String) (h : r.IsSettled) :
    (r.retired name).IsSettled where
  closed := {
    fields := by
      intro e he f hf
      have he' := (r.queue.waiting.erase_entries_sublist name).subset he
      exact (h.closed.fields e he' f hf).mono fun _ hk => isKnown_retired hk
    resolved := fun e he => (h.closed.resolved e he).mono fun _ hk => isKnown_retired hk }
  opening := h.opening
  nodup := Table.nodup_keys_erase name h.nodup
  named := fun e he => h.named e ((r.queue.waiting.erase_entries_sublist name).subset he)

/-- One operation. -/
theorem isSettled_operate (op : Operation ε) {r : Resolver ε} (h : r.IsSettled) :
    (exec (operate op) r).2.IsSettled := by
  cases op with
  | emit typeName node fqn =>
    rw [exec_operate_emit]
    exact isSettled_emit typeName node fqn h
  | takeOver name script =>
    rw [exec_operate_takeOver, exec_enqueueCustom]
    dsimp only
    split
    · exact isSettled_declared h rfl
    · exact h
  | define name node => exact h.of_eq rfl rfl rfl
  | addAlias name target => exact h.of_eq rfl rfl rfl
  | retire name =>
    rw [exec_operate_retire]
    split
    · exact isSettled_retired name h
    · exact h

/-- A whole history. -/
theorem isSettled_operateAll (ops : List (Operation ε)) {r : Resolver ε} (h : r.IsSettled) :
    (operateAll ops r).2.IsSettled := by
  induction ops generalizing r with
  | nil => exact h
  | cons op ops ih => exact ih (isSettled_operate op h)

/-- What an operation gives stands over known names. -/
theorem knows_operate (op : Operation ε) {r : Resolver ε} (h : r.IsSettled) {t : TypeExpr}
    (ht : t ∈ given (exec (operate op) r).1) : (exec (operate op) r).2.Knows t := by
  cases op with
  | emit typeName node fqn =>
    have hs := sound_emit typeName node fqn h.closed
    rw [exec_operate_emit] at ht ⊢
    rcases hx : exec (emit typeName node fqn) r with ⟨e | t', r'⟩ <;> rw [hx] at ht hs
    · exact absurd ht List.not_mem_nil
    · rw [List.mem_singleton.mp ht]
      exact hs.2 t' rfl
  | takeOver name script =>
    rw [exec_operate_takeOver] at ht
    exact absurd ht List.not_mem_nil
  | define name node => exact absurd ht List.not_mem_nil
  | addAlias name target => exact absurd ht List.not_mem_nil
  | retire name =>
    rw [exec_operate_retire] at ht
    split at ht <;> exact absurd ht List.not_mem_nil

/-- **What was ever given stands over names that are still known.** -/
theorem knows_operateAll (ops : List (Operation ε)) {r : Resolver ε} (h : r.IsSettled)
    {t : TypeExpr} (ht : t ∈ (operateAll ops r).1) : (operateAll ops r).2.Knows t := by
  induction ops generalizing r with
  | nil => exact absurd ht List.not_mem_nil
  | cons op ops ih =>
    rw [operateAll_cons] at ht ⊢
    rcases List.mem_append.mp ht with ht | ht
    · -- given now: the names are known after the rest, too
      exact (knows_operate op h ht).mono fun _ hk => isKnown_operateAll ops hk
    · exact ih (isSettled_operate op h) ht

end Resolver
end SchemaScript
