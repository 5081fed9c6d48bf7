import SchemaScript.Proofs.Emission.Growth
import SchemaScript.Proofs.Scripts
import SchemaScript.Proofs.Turns

/-!
# Scripts are used up

A script can only bring in scripts that it holds.  So with every turn that runs one, the
weight of the waiting scripts gets smaller, and a drain never uses up its fuel.

While a script runs, its own declaration waits still, or another one under its name, or
none.  At the end of the turn the name is taken out, so what counts while the script runs
is the weight under the other names.

## Main definitions

* `Queue.weigh`, `Queue.weighBut` — the weight of the waiting scripts.
* `Workshop.UsesUp` — a script that does not fail makes the weight smaller.

## Main results

* `usesUp_runScript` — scripts do.
* `exists_ends` — a drain of scripts takes its turns and ends.
-/

namespace SchemaScript

/-- The weight of the script of a declaration. -/
def Declaration.weigh {ε : Type} (weight : ε → Nat) (d : Declaration ε) : Nat :=
  (d.body.script?.map weight).getD 0

namespace Queue

variable {ε : Type} (weight : ε → Nat)

/-- The weight of the scripts that wait under some names. -/
def weighEntries (es : List (String × Declaration ε)) : Nat :=
  es.foldr (fun e n => e.2.weigh weight + n) 0

/-- The weight of the scripts that wait. -/
def weigh (q : Queue ε) : Nat := weighEntries weight q.waiting.entries

/-- The weight of the scripts that wait, but for one name. -/
def weighBut (name : String) (q : Queue ε) : Nat := (q.finish name).weigh weight

@[simp] theorem weighEntries_nil :
    weighEntries weight ([] : List (String × Declaration ε)) = 0 := rfl

@[simp] theorem weighEntries_cons (e : String × Declaration ε)
    (es : List (String × Declaration ε)) :
    weighEntries weight (e :: es) = e.2.weigh weight + weighEntries weight es := rfl

theorem weighEntries_append (es fs : List (String × Declaration ε)) :
    weighEntries weight (es ++ fs) = weighEntries weight es + weighEntries weight fs := by
  induction es with
  | nil => exact (Nat.zero_add _).symm
  | cons e es ih => rw [List.cons_append, weighEntries_cons, weighEntries_cons, ih, Nat.add_assoc]

theorem scriptBudget_eq_weigh (q : Queue ε) : Workshop.scriptBudget weight q = q.weigh weight := by
  rw [Workshop.scriptBudget, declarations, Table.values, List.foldr_map]
  rfl

theorem weighEntries_le_of_sublist {es fs : List (String × Declaration ε)}
    (h : es.Sublist fs) : weighEntries weight es ≤ weighEntries weight fs := by
  induction h with
  | slnil => exact Nat.le_refl _
  | cons e _ ih => exact Nat.le_trans ih (Nat.le_add_left _ _)
  | cons_cons e _ ih => exact Nat.add_le_add_left ih _

theorem weighEntries_of_noScripts {es : List (String × Declaration ε)}
    (h : ∀ e ∈ es, e.2.body.script? = none) : weighEntries weight es = 0 := by
  induction es with
  | nil => rfl
  | cons e es ih =>
    have he : e.2.weigh weight = 0 := by rw [Declaration.weigh, h e List.mem_cons_self]; rfl
    have hes := ih fun d hd => h d (List.mem_cons_of_mem e hd)
    rw [weighEntries_cons, he, hes]

theorem weigh_finish_le (q : Queue ε) (name : String) :
    (q.finish name).weigh weight ≤ q.weigh weight :=
  weighEntries_le_of_sublist weight (q.waiting.erase_entries_sublist name)

/-- Taking out the name whose turn it is takes the weight of its script away. -/
theorem weighBut_next {q : Queue ε} {name : String} {d : Declaration ε}
    (h : q.next? = some (name, d)) : q.weighBut weight name + d.weigh weight ≤ q.weigh weight := by
  obtain ⟨es, hes⟩ := List.head?_eq_some_iff.mp h
  have herase : (q.waiting.erase name).entries = es.filter fun e => e.1 != name := by
    rw [Table.erase, hes, List.filter_cons, if_neg (by simp)]
  have hle := weighEntries_le_of_sublist weight
    (List.filter_sublist (p := fun e => e.1 != name) (l := es))
  have hq : q.weigh weight = d.weigh weight + weighEntries weight es := by
    rw [weigh, hes, weighEntries_cons]
  have hbut : q.weighBut weight name = weighEntries weight (es.filter fun e => e.1 != name) := by
    rw [weighBut, weigh, finish, herase]
  omega

/-! ### Changes of the queue -/

theorem weighEntries_filter_put_le (p : String → Bool) (name : String) (d : Declaration ε)
    (es : List (String × Declaration ε)) :
    weighEntries weight ((Entries.put name d es).filter fun e => p e.1) ≤
      weighEntries weight (es.filter fun e => p e.1) + d.weigh weight := by
  induction es with
  | nil =>
    rw [Entries.put, List.filter_nil]
    refine Nat.le_trans (weighEntries_le_of_sublist weight List.filter_sublist) ?_
    simp
  | cons e es ih =>
    rw [Entries.put]
    by_cases hn : e.1 = name
    · rw [if_pos hn, List.filter_cons, List.filter_cons]
      dsimp only
      split
      · simp only [weighEntries_cons]
        omega
      · omega
    · rw [if_neg hn, List.filter_cons, List.filter_cons]
      split
      · simp only [weighEntries_cons]
        omega
      · exact ih

theorem weighBut_register_le (q : Queue ε) (d : Declaration ε) (replace : Bool) (name : String) :
    (q.register d replace).weighBut weight name ≤ q.weighBut weight name + d.weigh weight := by
  rw [register]
  split
  · exact weighEntries_filter_put_le weight (· != name) d.name d q.waiting.entries
  · exact Nat.le_add_right _ _

theorem weighBut_rollback_le (q : Queue ε) (position : Nat) (name : String) :
    (q.rollback position).weighBut weight name ≤ q.weighBut weight name :=
  weighEntries_le_of_sublist weight ((List.take_sublist _ _).filter _)

theorem weighBut_of_names_eq_nil {q : Queue ε} (h : q.names = []) (name : String) :
    q.weighBut weight name = 0 := by
  have he : q.waiting.entries = [] := List.map_eq_nil_iff.mp h
  rw [weighBut, weigh, finish, Table.erase, he]
  rfl

/-- What an emission adds has no scripts. -/
theorem weighBut_grows {r r' : Resolver ε} (h : Resolver.Grows r r') (name : String) :
    r'.queue.weighBut weight name = r.queue.weighBut weight name := by
  obtain ⟨es, he, hb⟩ := h.waiting
  have hzero : weighEntries weight (es.filter fun e => e.1 != name) = 0 :=
    weighEntries_of_noScripts weight fun e hm => (hb e ((List.mem_filter.mp hm).1)).2
  rw [weighBut, weighBut, weigh, weigh, finish, finish, Table.erase, Table.erase, he,
    List.filter_append, weighEntries_append]
  exact Nat.add_eq_left.mpr hzero

end Queue

namespace Workshop

open Stateful Queue

variable {ε : Type}

/-! ### Turns -/

/-- A script that does not fail brings in less weight than its own. -/
def UsesUp (weight : ε → Nat) (run : ε → Working ε Unit) : Prop :=
  ∀ s w w', exec (run s) w = (.ok (), w') → ∀ name,
    w'.resolver.queue.weighBut weight name + 1 ≤
      w.resolver.queue.weighBut weight name + weight s

section

variable {weight : ε → Nat} {run : ε → Working ε Unit} {on : Surface} (h : UsesUp weight run)

include h

/-- A turn with a script makes the weight smaller, and no turn makes it greater. -/
theorem IsTurn.weigh_le {w u : Workshop ε} {t : Turn ε} (ht : IsTurn run on w t u) :
    u.resolver.queue.weigh weight + (if t.isScripted then 1 else 0) ≤
      w.resolver.queue.weigh weight := by
  have hq : u.resolver.queue.weigh weight = t.finish.resolver.queue.weighBut weight t.name := by
    rw [ht.queue, weighBut]
  have hnext := weighBut_next weight ht.next
  cases hs : t.declaration.body.script? with
  | none =>
    have hscript : t.isScripted = false := by rw [Turn.isScripted, hs, Option.isSome_none]
    have hle := weigh_finish_le weight w.resolver.queue t.name
    rw [hq, ht.resolver_of_not_isScripted hscript, hscript]
    exact hle
  | some s =>
    have hscript : t.isScripted = true := by rw [Turn.isScripted, hs, Option.isSome_some]
    have hw := ht.written
    rw [writeDeclaration, hs] at hw
    have hrun := h s _ _ hw t.name
    rw [Declaration.weigh, hs, Option.map_some, Option.getD_some] at hnext
    rw [hq, hscript, if_pos rfl]
    omega

theorem Turns.weigh_le {w v : Workshop ε} {ts : List (Turn ε)} (hts : Turns run on w ts v) :
    v.resolver.queue.weigh weight + ts.countP Turn.isScripted ≤
      w.resolver.queue.weigh weight := by
  induction hts with
  | nil w => exact Nat.le_refl _
  | @cons w u v t ts ht _ ih =>
    have hle := ht.weigh_le h
    rw [List.countP_cons]
    omega

/-- **Fuel covers the scripts**: a drain takes its turns and ends. -/
theorem exists_ends (w : Workshop ε) :
    ∃ ts v, Turns run on w ts v ∧ Ends run on v (exec (drain weight run on) w) := by
  obtain ⟨ts, v, hts, hend⟩ := turns_drain run on weight w
  refine ⟨ts, v, hts, hend.resolve_right fun ⟨_, hlt⟩ => ?_⟩
  have hle := hts.weigh_le h
  rw [scriptBudget_eq_weigh] at hlt
  omega

end

/-! ### Scripts -/

/-- A command registers no more than it holds. -/
theorem weigh_registration_le {c : Command} {x : Registration Script}
    (hx : c.registration? = some x) : x.1.weigh scriptWeight ≤ commandWeight c := by
  cases c with
  | takeOver name script =>
    cases hx
    cases script <;> exact Nat.le_refl _
  | register d replace =>
    cases hx
    obtain ⟨_, _, _, _, body⟩ := d
    cases body with
    | custom script =>
      cases script with
      | none => exact Nat.le_refl _
      | some v => exact v.elim
    | _ => exact Nat.le_refl _
  | registerScript name fqn description script replace =>
    cases hx
    exact Nat.le_refl _
  | _ => cases hx

variable {perform : Command → Working Script Answer}

/-- A command that does not fail brings in no more weight than it holds. -/
theorem weighBut_performStep {c : Command} {w w' : Workshop Script} {a : Answer}
    (h : exec (performStep perform c) w = (.ok a, w')) (name : String) :
    w'.resolver.queue.weighBut scriptWeight name ≤
      w.resolver.queue.weighBut scriptWeight name + commandWeight c := by
  have hw' : w' = (exec (performStep perform c) w).2 := by rw [h]
  by_cases hc : c.isRegistering = true
  · rw [hw', queue_performStep hc]
    cases hr : c.registration? with
    | none => exact Nat.le_add_right _ _
    | some x =>
      have hx := weigh_registration_le hr
      have hle := weighBut_register_le scriptWeight w.resolver.queue x.1 x.2 name
      exact Nat.le_trans hle (Nat.add_le_add_left hx _)
  · -- emissions, withdrawing and renderings
    refine Nat.le_trans ?_ (Nat.le_add_right _ _)
    cases c with
    | emit typeName source fqn =>
      rw [hw', performStep, exec_resolving, exec_bind_ok (exec_get _), exec_bind_pure]
      exact Nat.le_of_eq (weighBut_grows _ (Resolver.grows_emit _ _ _ _) name)
    | emitNamed n =>
      rw [hw', performStep, exec_resolving, exec_bind_pure, Resolver.exec_emitNamed]
      exact Nat.le_of_eq (weighBut_grows _ (Resolver.grows_emit _ _ _ _) name)
    | emitEnum typeName schema fqn =>
      rw [hw', performStep, exec_resolving, exec_bind_pure]
      exact Nat.le_of_eq (weighBut_grows _ (Resolver.grows_emitEnum _ _ _ _) name)
    | rollback position =>
      rw [hw', queue_performStep_rollback]
      exact weighBut_rollback_le _ _ _ name
    | render indent =>
      rw [performStep] at h
      obtain ⟨text, v, hv, h⟩ := exec_bind_eq_ok h
      cases h
      rw [exec_render] at hv
      rcases hx : exec (drain scriptWeight (runScript perform .sheet) .sheet)
        (w.onSheet (.blank indent)) with ⟨e | u, v⟩ <;> rw [hx] at hv <;> cases hv
      have hnames := names_eq_nil_of_drain hx
      exact Nat.le_trans (Nat.le_of_eq (weighBut_of_names_eq_nil _ hnames name)) (Nat.zero_le _)
    | renderShared =>
      rw [performStep] at h
      obtain ⟨u, v, hv, h⟩ := exec_bind_eq_ok h
      cases h
      rw [weighBut_of_names_eq_nil _ (names_eq_nil_of_drain hv)]
      exact Nat.zero_le _
    | _ => exact absurd rfl hc

theorem weighBut_act {n : Nat} {on : Surface} {a : Action} {w w' : Workshop Script}
    (h : exec (act (performWith n) on a) w = (.ok (), w')) (name : String) :
    w'.resolver.queue.weighBut scriptWeight name ≤
      w.resolver.queue.weighBut scriptWeight name + actionWeight a := by
  rw [act.eq_def] at h
  cases a with
  | command c =>
    obtain ⟨b, v, hv, h⟩ := exec_bind_eq_ok h
    cases h
    cases n with
    | zero => cases hv
    | succ n => exact weighBut_performStep hv name
  | line text =>
    obtain ⟨p, -, rfl⟩ := exec_writing_eq_ok h
    rw [resolver_withPage]
    exact Nat.le_add_right _ _
  | openBlock header =>
    obtain ⟨p, -, rfl⟩ := exec_writing_eq_ok h
    rw [resolver_withPage]
    exact Nat.le_add_right _ _
  | closeBlock footer =>
    obtain ⟨p, -, rfl⟩ := exec_writing_eq_ok h
    rw [resolver_withPage]
    exact Nat.le_add_right _ _

/-- **A script uses itself up.** -/
theorem usesUp_runScript (n : Nat) (on : Surface) :
    UsesUp scriptWeight (runScript (performWith n) on) := by
  intro script w w' h name
  induction script generalizing w with
  | nil =>
    cases h
    exact Nat.le_refl _
  | cons a as ih =>
    obtain ⟨_, v, hv, h⟩ := exec_bind_eq_ok h
    have ha := weighBut_act hv name
    have has := ih v h
    rw [scriptWeight]
    omega

end Workshop
end SchemaScript
