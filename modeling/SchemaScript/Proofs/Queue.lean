import Mathlib.Logic.Relation
import SchemaScript.Proofs.Table
import SchemaScript.Queue

/-!
# Laws of the queue

Three things are done to a queue: a declaration is registered, what came after a
position is withdrawn, and a waiting name is marked as written.  In whatever order they
happen, every declaration waits once, under its own name, and no written name waits.

## Main definitions

* `Queue.IsSound` — what holds of every queue.
* `Queue.Admits` — what an accepted registration leaves.
* `Queue.Step`, `Queue.Steps` — one thing done, and any number of them.
* `Queue.registerAll` — registrations one after the other.

## Main results

* `IsSound.step`, `IsSound.steps` — soundness is kept.
* `admits_register` — registering touches one name only.
* `names_register` — where the name comes to stand.
* `names_registerAll` — registrations put new names at the end.
-/

namespace SchemaScript

/-- The script of the declaration, if it has one, passes a test. -/
def Declaration.Allows {ε : Type} (P : ε → Prop) (d : Declaration ε) : Prop :=
  ∀ s, d.body.script? = some s → P s

namespace Queue

variable {ε : Type} {q q' : Queue ε}

/-! ### Written names -/

@[simp] theorem isWritten_register (q : Queue ε) (d : Declaration ε) (replace : Bool)
    (name : String) : (q.register d replace).isWritten name = q.isWritten name := by
  rw [isWritten, isWritten, written_register]

@[simp] theorem isWritten_finish (q : Queue ε) (name k : String) :
    (q.finish name).isWritten k = (decide (k = name) || q.isWritten k) := by
  by_cases h : q.isWritten name = true
  · -- the name is there already
    have hmem : (q.finish name).isWritten k = q.isWritten k := by
      rw [isWritten, finish, if_pos h, isWritten]
    rw [hmem]
    by_cases hk : k = name
    · rw [hk, h, Bool.or_true]
    · simp [hk]
  · have hmem : (q.finish name).written = q.written ++ [name] := by rw [finish, if_neg h]
    simp [isWritten, hmem, Bool.or_comm]

theorem written_finish (h : q.isWritten name = false) :
    (q.finish name).written = q.written ++ [name] := by
  rw [finish, h, if_neg Bool.false_ne_true]

/-! ### Waiting names -/

theorem isWaiting_iff {name : String} : q.isWaiting name = true ↔ name ∈ q.names :=
  Table.contains_iff_mem_keys

@[simp] theorem isWaiting_finish (q : Queue ε) (name k : String) :
    (q.finish name).isWaiting k = (!decide (k = name) && q.isWaiting k) :=
  Table.contains_erase q.waiting name k

/-- A withdrawn position leaves only names that waited. -/
theorem isWaiting_of_rollback {position : Nat} {name : String}
    (h : (q.rollback position).isWaiting name = true) : q.isWaiting name = true := by
  rw [isWaiting_iff, names_rollback] at h
  exact isWaiting_iff.mpr (List.mem_of_mem_take h)

/-- The name whose turn it is waits. -/
theorem isWaiting_of_next? {name : String} {d : Declaration ε}
    (h : q.next? = some (name, d)) : q.isWaiting name = true :=
  isWaiting_iff.mpr (List.mem_map_of_mem (List.mem_of_head? h))

/-- The name whose turn it is is the first one. -/
theorem exists_names_of_next? {name : String} {d : Declaration ε}
    (h : q.next? = some (name, d)) : ∃ names, q.names = name :: names := by
  obtain ⟨es, hes⟩ := List.head?_eq_some_iff.mp h
  exact ⟨es.map (·.1), by rw [names, Table.keys, hes]; rfl⟩

/-- The declaration under the first name is the next one. -/
theorem exists_next?_of_head? {name : String} (h : q.names.head? = some name) :
    ∃ d, q.next? = some (name, d) := by
  rw [names, Table.keys, List.head?_map, Option.map_eq_some_iff] at h
  obtain ⟨⟨_, d⟩, he, rfl⟩ := h
  exact ⟨d, he⟩

theorem length_names (q : Queue ε) : q.names.length = q.checkpoint :=
  List.length_map _

/-- Where none is next, none waits. -/
theorem names_eq_nil_of_next? (h : q.next? = none) : q.names = [] := by
  rw [next?, List.head?_eq_none_iff] at h
  rw [names, Table.keys, h, List.map_nil]

theorem names_finish (q : Queue ε) (name : String) :
    (q.finish name).names = q.names.filter (· != name) := by
  rw [names, names, finish, Table.keys, Table.keys, Table.erase, List.filter_map]
  rfl

/-- Marking the first name as written leaves the others. -/
theorem names_finish_of_cons {name : String} {names : List String}
    (h : q.names = name :: names) (hn : q.names.Nodup) : (q.finish name).names = names := by
  rw [h, List.nodup_cons] at hn
  rw [names_finish, h, List.filter_cons, if_neg (by simp), List.filter_eq_self]
  intro k hk
  rw [bne_iff_ne]
  exact fun hkn => hn.1 (hkn ▸ hk)

/-- Marking a waiting name as written makes the queue shorter. -/
theorem checkpoint_finish_lt {name : String} (h : q.isWaiting name = true) :
    (q.finish name).checkpoint < q.checkpoint := by
  obtain ⟨e, he, rfl⟩ := List.mem_map.mp (isWaiting_iff.mp h)
  refine List.length_filter_lt_length_iff_exists.mpr ⟨e, he, ?_⟩
  simp

/-! ### Registering -/

/-- A declaration enters unless its name is written, or waits and is not to be replaced. -/
theorem accepts_iff {name : String} {replace : Bool} :
    q.accepts name replace = true ↔
      q.isWritten name = false ∧ (replace = true ∨ q.isWaiting name = false) := by
  simp [accepts]

/-- What an accepted registration leaves: the declaration waits under its name, at the
place that the name had or at the end, and all else is as it was. -/
structure Admits (q : Queue ε) (d : Declaration ε) (q' : Queue ε) : Prop where
  found : q'.waiting.find? d.name = some d
  others : ∀ name, name ≠ d.name → q'.waiting.find? name = q.waiting.find? name
  names : q'.names = if q.isWaiting d.name then q.names else q.names ++ [d.name]
  written : q'.written = q.written

/-- **Registering touches one name only.** -/
theorem admits_register {d : Declaration ε} {replace : Bool}
    (h : q.accepts d.name replace = true) : q.Admits d (q.register d replace) where
  found := find?_register h
  others := by
    intro name hne
    rw [register, if_pos h, Table.find?_insert, if_neg (Ne.symm hne)]
  names := by
    rw [names, register, if_pos h, Table.keys_insert]
    simp only [isWaiting_iff]
    rfl
  written := written_register q d replace

/-- The declaration that waits first is replaced where it stands. -/
theorem next?_register {d c : Declaration ε} (h : q.next? = some (c.name, d))
    (hc : q.accepts c.name true = true) : (q.register c true).next? = some (c.name, c) := by
  obtain ⟨es, hes⟩ := List.head?_eq_some_iff.mp h
  have hsplit : q.waiting.entries = [] ++ (c.name, d) :: es := hes
  rw [next?, register, if_pos hc, Table.insert_of_split c hsplit List.not_mem_nil]
  rfl

/-- A name that was to be registered is known, whether it was accepted or not. -/
theorem isKnown_register (q : Queue ε) (d : Declaration ε) (replace : Bool) :
    (q.register d replace).isKnown d.name = true := by
  by_cases ha : q.accepts d.name replace = true
  · rw [isKnown, isWaiting, Table.contains, (admits_register ha).found]
    rfl
  · -- it was refused because it is written, or because it waits
    have hk := mt accepts_iff.mpr ha
    rw [Bool.not_eq_true] at ha
    rw [register_of_not_accepts ha, isKnown]
    cases hw : q.isWritten d.name with
    | true => exact Bool.or_true _
    | false =>
      have hwait : q.isWaiting d.name = true := by
        rw [← Bool.not_eq_false]
        exact fun hn => hk ⟨hw, Or.inr hn⟩
      rw [hwait, Bool.true_or]

/-- **A name enters behind the others** unless it is known. -/
theorem names_register (q : Queue ε) (d : Declaration ε) (replace : Bool) :
    (q.register d replace).names =
      if d.name ∈ q.names ++ q.written then q.names else q.names ++ [d.name] := by
  have hknown : d.name ∈ q.names ++ q.written ↔ q.isKnown d.name = true := by
    simp [isKnown, isWaiting_iff, isWritten]
  simp only [hknown]
  by_cases ha : q.accepts d.name replace = true
  · rw [(admits_register ha).names, isKnown, (accepts_iff.mp ha).1, Bool.or_false]
  · -- what is refused is known
    have hk := isKnown_register q d replace
    rw [Bool.not_eq_true] at ha
    rw [register_of_not_accepts ha] at hk ⊢
    rw [if_pos hk]

theorem names_prefix_register (q : Queue ε) (d : Declaration ε) (replace : Bool) :
    q.names <+: (q.register d replace).names := by
  rw [names_register]
  split
  · exact List.prefix_rfl
  · exact List.prefix_append _ _

/-! ### Sound queues -/

/-- Every declaration waits once, under its own name, and no written name waits or is
listed twice. -/
structure IsSound (q : Queue ε) : Prop where
  disjoint : ∀ name, q.isWaiting name = true → q.isWritten name = false
  nodup : q.names.Nodup
  keyed : ∀ e ∈ q.waiting.entries, e.2.name = e.1
  once : q.written.Nodup

theorem isSound_empty : IsSound (empty : Queue ε) where
  disjoint := fun _ h => absurd (isWaiting_iff.mp h) List.not_mem_nil
  nodup := List.nodup_nil
  keyed := fun _ h => absurd h List.not_mem_nil
  once := List.nodup_nil

theorem IsSound.register (h : q.IsSound) (d : Declaration ε) (replace : Bool) :
    (q.register d replace).IsSound := by
  by_cases ha : q.accepts d.name replace = true
  · have had := admits_register ha
    constructor
    · intro name hname
      rw [isWritten_register]
      rw [isWaiting_iff, had.names] at hname
      by_cases hw : q.isWaiting d.name = true
      · rw [if_pos hw] at hname
        exact h.disjoint name (isWaiting_iff.mpr hname)
      · rw [if_neg hw, List.mem_append, List.mem_singleton] at hname
        rcases hname with hname | rfl
        · exact h.disjoint name (isWaiting_iff.mpr hname)
        · exact (accepts_iff.mp ha).1
    · rw [Queue.register, if_pos ha]
      exact Table.nodup_keys_insert d.name d h.nodup
    · intro e he
      rw [Queue.register, if_pos ha] at he
      rcases Table.mem_entries_insert he with he | rfl
      · exact h.keyed e he
      · rfl
    · rw [written_register]
      exact h.once
  · rw [Bool.not_eq_true] at ha
    rwa [register_of_not_accepts ha]

theorem IsSound.rollback (h : q.IsSound) (position : Nat) : (q.rollback position).IsSound where
  disjoint := fun name hname => h.disjoint name (isWaiting_of_rollback hname)
  nodup := by
    rw [names_rollback]
    exact h.nodup.sublist (List.take_sublist ..)
  keyed := fun e he => h.keyed e (List.mem_of_mem_take he)
  once := h.once

theorem IsSound.finish (h : q.IsSound) (name : String) : (q.finish name).IsSound where
  disjoint := by
    intro k hk
    rw [isWaiting_finish, Bool.and_eq_true, Bool.not_eq_true', decide_eq_false_iff_not] at hk
    simp [hk.1, h.disjoint k hk.2]
  nodup := Table.nodup_keys_erase name h.nodup
  keyed := fun e he => h.keyed e ((q.waiting.erase_entries_sublist name).subset he)
  once := by
    by_cases hw : q.isWritten name = true
    · rw [Queue.finish, if_pos hw]
      exact h.once
    · rw [written_finish (Bool.eq_false_iff.mpr hw), List.nodup_append]
      refine ⟨h.once, List.pairwise_singleton _ name, ?_⟩
      intro a ha b hb hab
      rw [List.mem_singleton] at hb
      rw [hab, hb] at ha
      exact hw (List.contains_iff_mem.mpr ha)

/-! ### Steps -/

/-- One thing done to a queue. -/
inductive Step : Queue ε → Queue ε → Prop
  | register (q : Queue ε) (d : Declaration ε) (replace : Bool) : Step q (q.register d replace)
  | rollback (q : Queue ε) (position : Nat) : Step q (q.rollback position)
  /-- Only a name that waits is marked as written. -/
  | finish (q : Queue ε) (name : String) (h : q.isWaiting name = true) : Step q (q.finish name)

/-- Any number of things done, in any order. -/
abbrev Steps : Queue ε → Queue ε → Prop := Relation.ReflTransGen Step

theorem IsSound.step (h : q.IsSound) (hs : Step q q') : q'.IsSound := by
  cases hs with
  | register d replace => exact h.register d replace
  | rollback position => exact h.rollback position
  | finish name _ => exact h.finish name

theorem IsSound.steps (h : q.IsSound) (hs : Steps q q') : q'.IsSound := by
  induction hs with
  | refl => exact h
  | tail _ hs ih => exact ih.step hs

/-- A written name stays written. -/
theorem Step.isWritten (hs : Step q q') {name : String} (h : q.isWritten name = true) :
    q'.isWritten name = true := by
  cases hs with
  | register d replace => rwa [isWritten_register]
  | rollback position => exact h
  | finish k _ => rw [isWritten_finish, h, Bool.or_true]

theorem Steps.isWritten (hs : Steps q q') {name : String} (h : q.isWritten name = true) :
    q'.isWritten name = true := by
  induction hs with
  | refl => exact h
  | tail _ hs ih => exact hs.isWritten ih

/-! ### Many registrations -/

/-- A declaration to be registered, and whether it may replace a waiting one. -/
abbrev Registration (ε : Type) := Declaration ε × Bool

/-- Registrations one after the other. -/
def registerAll (q : Queue ε) : List (Registration ε) → Queue ε
  | [] => q
  | c :: cs => (q.register c.1 c.2).registerAll cs

theorem registerAll_append (q : Queue ε) (cs ds : List (Registration ε)) :
    q.registerAll (cs ++ ds) = (q.registerAll cs).registerAll ds := by
  induction cs generalizing q with
  | nil => rfl
  | cons c cs ih => exact ih _

theorem steps_registerAll (q : Queue ε) (cs : List (Registration ε)) :
    Steps q (q.registerAll cs) := by
  induction cs generalizing q with
  | nil => exact .refl
  | cons c cs ih => exact .head (.register q c.1 c.2) (ih _)

@[simp] theorem written_registerAll (q : Queue ε) (cs : List (Registration ε)) :
    (q.registerAll cs).written = q.written := by
  induction cs generalizing q with
  | nil => rfl
  | cons c cs ih => rw [registerAll, ih, written_register]

/-- Where names only came behind the others, these are the ones since the position. -/
theorem names_append_since (h : q.names <+: q'.names) :
    q'.names = q.names ++ q'.since q.checkpoint := by
  rw [since, ← length_names]
  exact (List.prefix_iff_eq_append.mp h).symm

/-- **Registrations put new names at the end** and leave the others in place. -/
theorem names_registerAll (q : Queue ε) (cs : List (Registration ε)) :
    q.names <+: (q.registerAll cs).names := by
  induction cs generalizing q with
  | nil => exact List.prefix_rfl
  | cons c cs ih => exact (names_prefix_register q c.1 c.2).trans (ih _)

theorem isKnown_registerAll_of_isKnown {name : String} (h : q.isKnown name = true)
    (cs : List (Registration ε)) : (q.registerAll cs).isKnown name = true := by
  rw [isKnown, Bool.or_eq_true, isWaiting_iff] at h ⊢
  refine h.imp (fun hm => (names_registerAll q cs).subset hm) fun hw => ?_
  rwa [isWritten, written_registerAll]

theorem isKnown_registerAll {cs : List (Registration ε)} {c : Registration ε} (hc : c ∈ cs)
    (q : Queue ε) : (q.registerAll cs).isKnown c.1.name = true := by
  induction cs generalizing q with
  | nil => exact absurd hc List.not_mem_nil
  | cons d cs ih =>
    rcases List.mem_cons.mp hc with rfl | hc
    · exact isKnown_registerAll_of_isKnown (isKnown_register q c.1 c.2) cs
    · exact ih hc _

/-! ### Scripts in the queue -/

/-- The scripts that wait pass a test. -/
def HasScripts (P : ε → Prop) (q : Queue ε) : Prop :=
  ∀ e ∈ q.waiting.entries, e.2.Allows P

variable {P : ε → Prop}

theorem hasScripts_empty : HasScripts P (empty : Queue ε) :=
  fun _ h => absurd h List.not_mem_nil

theorem HasScripts.register (h : HasScripts P q) {d : Declaration ε} (hd : d.Allows P)
    (replace : Bool) : HasScripts P (q.register d replace) := by
  intro e he
  rw [Queue.register] at he
  split at he
  · rcases Table.mem_entries_insert he with he | rfl
    · exact h e he
    · exact hd
  · exact h e he

theorem HasScripts.rollback (h : HasScripts P q) (position : Nat) :
    HasScripts P (q.rollback position) :=
  fun e he => h e (List.mem_of_mem_take he)

theorem HasScripts.finish (h : HasScripts P q) (name : String) : HasScripts P (q.finish name) :=
  fun e he => h e ((q.waiting.erase_entries_sublist name).subset he)

theorem HasScripts.registerAll (h : HasScripts P q) {cs : List (Registration ε)}
    (hcs : ∀ c ∈ cs, c.1.Allows P) : HasScripts P (q.registerAll cs) := by
  induction cs generalizing q with
  | nil => exact h
  | cons c cs ih =>
    exact ih (h.register (hcs c List.mem_cons_self) c.2)
      fun d hd => hcs d (List.mem_cons_of_mem c hd)

end Queue
end SchemaScript
