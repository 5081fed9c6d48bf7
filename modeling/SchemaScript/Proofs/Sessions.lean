import SchemaScript.Proofs.History
import SchemaScript.Workshop.Command

/-!
# Sessions

A session is a list of commands carried out in a workshop, whether they fail or not.
Seen from the resolver, a session of public commands is a history: whatever the
scripts do while a rendering runs them, and however it ends, nothing happens to the
resolver beside operations one after the other.

## Main definitions

* `isPublic` — the commands that are not meant for the inside of the resolver only.
* `Workshop.session` — the answers to commands, and the workshop after them.

## Main results

* `Workshop.session_isHistory` — a session of public commands is a history.
-/

namespace SchemaScript

/-! ### Public commands -/

mutual

/-- All commands of a script are public. -/
def isPublicScript : List Action → Bool
  | [] => true
  | a :: as => isPublicAction a && isPublicScript as

/-- The command that the action carries out, if it does, is public. -/
def isPublicAction : Action → Bool
  | .line _ => true
  | .openBlock _ => true
  | .closeBlock _ => true
  | .command c => isPublic c

/-- The command and all that its script holds are public.  Commands on the queue itself
are not, and neither is declaring an enum whatever the schema is. -/
def isPublic : Command → Bool
  | .takeOver _ script => isPublicOption script
  | .emitEnum _ _ _ => false
  | .register _ _ => false
  | .registerScript _ _ _ _ _ => false
  | .rollback _ => false
  | _ => true

/-- The script of a declaration made by hand is public. -/
def isPublicOption : Option (List Action) → Bool
  | none => true
  | some script => isPublicScript script

end

namespace Workshop

open Stateful Resolver

variable {α β : Type}

/-- All scripts that wait are public. -/
def HasPublicScripts (r : Resolver Script) : Prop :=
  ∀ e ∈ r.queue.waiting.entries, isPublicOption e.2.body.script? = true

/-- There is a history from the one state to the other that gives the expressions. -/
def IsHistory (r : Resolver Script) (ts : List TypeExpr) (r' : Resolver Script) : Prop :=
  ∃ ops, operateAll ops r = (ts, r')

theorem isHistory_refl (r : Resolver Script) : IsHistory r [] r := ⟨[], rfl⟩

theorem IsHistory.trans {r r' r'' : Resolver Script} {ts ts' : List TypeExpr}
    (h : IsHistory r ts r') (h' : IsHistory r' ts' r'') : IsHistory r (ts ++ ts') r'' := by
  obtain ⟨ops, hops⟩ := h
  obtain ⟨ops', hops'⟩ := h'
  exact ⟨ops ++ ops', by rw [operateAll_append, hops, hops']⟩

theorem isHistory_operate (op : Operation Script) (r : Resolver Script) :
    IsHistory r (given (exec (operate op) r).1) (exec (operate op) r).2 :=
  ⟨[op], by rw [operateAll_cons, operateAll_nil, List.append_nil]⟩

/-! ### Operations keep scripts public -/

theorem hasPublicScripts_grows {r r' : Resolver Script} (h : Grows r r')
    (hp : HasPublicScripts r) : HasPublicScripts r' := by
  obtain ⟨es, he, hb⟩ := h.waiting
  intro e hm
  rw [he] at hm
  rcases List.mem_append.mp hm with hm | hm
  · exact hp e hm
  · rw [(hb e hm).2]
    rfl

theorem hasPublicScripts_enqueueCustom {name : String} {script : Option Script}
    {r : Resolver Script} (hp : HasPublicScripts r) (hs : isPublicOption script = true) :
    HasPublicScripts (exec (enqueueCustom name script) r).2 := by
  rw [exec_enqueueCustom]
  dsimp only
  split
  · intro e hm
    rcases Table.mem_entries_insert hm with hm | rfl
    · exact hp e hm
    · exact hs
  · exact hp

theorem hasPublicScripts_retire {name : String} {r : Resolver Script}
    (hp : HasPublicScripts r) : HasPublicScripts (exec (retire name) r).2 := by
  rw [exec_retire]
  split
  · exact fun e hm => hp e ((r.queue.waiting.erase_entries_sublist name).subset hm)
  · exact hp

/-! ### Computations that follow a history -/

/-- From a state with public scripts on, the computation does nothing to the resolver
but what a history does, and scripts stay public. -/
def Follows (m : Working Script α) : Prop :=
  ∀ w, HasPublicScripts w.resolver → HasPublicScripts (exec m w).2.resolver ∧
    ∃ ts, IsHistory w.resolver ts (exec m w).2.resolver

theorem follows_of_resolver_eq {m : Working Script α}
    (h : ∀ w, (exec m w).2.resolver = w.resolver) : Follows m := by
  intro w hp
  rw [h]
  exact ⟨hp, [], isHistory_refl _⟩

theorem follows_pure (a : α) : Follows (pure a) := follows_of_resolver_eq fun _ => rfl

theorem follows_throw (e : Failure) : Follows (throw e : Working Script α) :=
  follows_of_resolver_eq fun _ => rfl

theorem follows_get : Follows (get : Working Script (Workshop Script)) :=
  follows_of_resolver_eq fun _ => rfl

theorem follows_writing (on : Surface) (m : Writing α) : Follows (writing on m) :=
  follows_of_resolver_eq fun w => by rw [exec_writing, resolver_withPage]

theorem Follows.bind {m : Working Script α} {f : α → Working Script β} (hm : Follows m)
    (hf : ∀ a, Follows (f a)) : Follows (m >>= f) := by
  intro w hp
  obtain ⟨hp', ts, hh⟩ := hm w hp
  rw [exec_bind]
  rcases hx : exec m w with ⟨e | a, v⟩ <;> rw [hx] at hp' hh
  · exact ⟨hp', ts, hh⟩
  · obtain ⟨hp'', ts', hh'⟩ := hf a v hp'
    exact ⟨hp'', ts ++ ts', hh.trans hh'⟩

/-- The state at hand can be used. -/
theorem follows_get_bind {f : Workshop Script → Working Script α}
    (hf : ∀ w, HasPublicScripts w.resolver → HasPublicScripts (exec (f w) w).2.resolver ∧
      ∃ ts, IsHistory w.resolver ts (exec (f w) w).2.resolver) : Follows (get >>= f) := by
  intro w hp
  rw [exec_bind_ok (exec_get w)]
  exact hf w hp

theorem Follows.tryCatch {m : Working Script α} {f : Failure → Working Script α}
    (hm : Follows m) (hf : ∀ e, Follows (f e)) : Follows (tryCatch m f) := by
  intro w hp
  obtain ⟨hp', ts, hh⟩ := hm w hp
  rw [exec_tryCatch]
  rcases hx : exec m w with ⟨e | a, v⟩ <;> rw [hx] at hp' hh
  · -- the handler goes on from the state that the failure left
    obtain ⟨hp'', ts', hh'⟩ := hf e v hp'
    exact ⟨hp'', ts ++ ts', hh.trans hh'⟩
  · exact ⟨hp', ts, hh⟩

theorem follows_modify {f : Workshop Script → Workshop Script}
    (h : ∀ w, (f w).resolver = w.resolver) : Follows (modify f : Working Script PUnit) :=
  follows_of_resolver_eq h

/-- A computation on the resolver does to it what an operation does. -/
theorem follows_resolving {m : Resolving Script α}
    (h : ∀ r, HasPublicScripts r → HasPublicScripts (exec m r).2 ∧
      ∃ op, (exec m r).2 = (exec (operate op) r).2) : Follows (resolving m) := by
  intro w hp
  obtain ⟨hp', op, ho⟩ := h w.resolver hp
  rw [exec_resolving]
  refine ⟨hp', _, ho ▸ isHistory_operate op w.resolver⟩

theorem follows_retire (name : String) : Follows (resolving (retire name)) := by
  refine follows_resolving fun r hp => ⟨hasPublicScripts_retire hp, .retire name, ?_⟩
  rw [exec_operate_retire, exec_retire]
  by_cases h : r.queue.isWaiting name = true <;> simp [h]

/-! ### Renderings -/

section

variable {run : Script → Working Script Unit}
  (hrun : ∀ script, isPublicScript script = true → Follows (run script))

include hrun

theorem follows_writeNext (on : Surface) (name : String) {d : Declaration Script}
    (hd : isPublicOption d.body.script? = true) : Follows (writeNext run on name d) := by
  refine Follows.bind ?_ fun _ => (follows_writing on _).bind fun _ => follows_retire name
  rw [writeDeclaration]
  cases hs : d.body.script? with
  | some script =>
    rw [hs] at hd
    exact hrun script hd
  | none => exact follows_writing on _

theorem follows_drainRound (on : Surface) {next : Working Script Unit} (hnext : Follows next)
    (n : Nat) : Follows (drainRound run on next n) := by
  induction n with
  | zero =>
    refine follows_get.bind fun w => ?_
    split
    · exact follows_throw _
    · exact follows_pure _
  | succ n ih =>
    refine follows_get_bind fun w hp => ?_
    cases he : w.resolver.queue.next? with
    | none => exact follows_pure () w hp
    | some e =>
      have hd : isPublicOption e.2.body.script? = true := hp e (List.mem_of_head? he)
      have hfollows : Follows (do
          writeNext run on e.1 e.2
          if e.2.body.script?.isSome then next else drainRound run on next n) := by
        refine (follows_writeNext hrun on e.1 hd).bind fun _ => ?_
        -- behind a script a new round begins, otherwise this one goes on
        split
        · exact hnext
        · exact ih
      exact hfollows w hp

theorem follows_drainRounds (on : Surface) (budget : Nat) :
    Follows (drainRounds run on budget) := by
  induction budget with
  | zero =>
    exact follows_get.bind fun _ => follows_drainRound hrun on (follows_throw _) _
  | succ budget ih => exact follows_get.bind fun _ => follows_drainRound hrun on ih _

theorem follows_drain (weight : Script → Nat) (on : Surface) : Follows (drain weight run on) :=
  follows_get.bind fun _ => follows_drainRounds hrun on _

theorem follows_render (weight : Script → Nat) (indent : Option String) :
    Follows (render weight run indent) := by
  refine follows_get_bind fun w hp => ?_
  -- the new sheet leaves the resolver as it is
  rw [exec_bind_ok (exec_set w _)]
  refine Follows.bind (Follows.tryCatch (follows_drain hrun weight .sheet) fun e => ?_)
    (fun _ => follows_get.bind fun v => ?_) _ hp
  · exact Follows.bind (follows_modify fun _ => rfl) fun _ => follows_throw e
  · exact Follows.bind (follows_modify fun _ => rfl) fun _ => follows_pure _

end

/-! ### Scripts -/

theorem follows_runScript {perform : Command → Working Script Answer}
    (hperform : ∀ c, isPublic c = true → Follows (perform c)) (on : Surface) {script : Script}
    (hs : isPublicScript script = true) : Follows (runScript perform on script) := by
  induction script with
  | nil => exact follows_pure ()
  | cons a as ih =>
    rw [isPublicScript, Bool.and_eq_true] at hs
    refine Follows.bind ?_ fun _ => ih hs.2
    cases a with
    | line text => exact follows_writing on _
    | openBlock header => exact follows_writing on _
    | closeBlock footer => exact follows_writing on _
    | command c => exact (hperform c hs.1).bind fun _ => follows_pure ()

/-! ### Commands -/

/-- The computation follows a history that gives the expression it answers, if it
answers one. -/
def Answers (m : Working Script Answer) : Prop :=
  ∀ w, HasPublicScripts w.resolver → HasPublicScripts (exec m w).2.resolver ∧
    ∃ ts, IsHistory w.resolver ts (exec m w).2.resolver ∧
      ∀ t, (exec m w).1 = .ok (.type t) → t ∈ ts

theorem Answers.follows {m : Working Script Answer} (h : Answers m) : Follows m := by
  intro w hp
  obtain ⟨hp', ts, hh, -⟩ := h w hp
  exact ⟨hp', ts, hh⟩

/-- What answers no expression only has to follow a history. -/
theorem Follows.answers {m : Working Script Answer} (h : Follows m)
    (hn : ∀ w t, (exec m w).1 ≠ .ok (.type t)) : Answers m := by
  intro w hp
  obtain ⟨hp', ts, hh⟩ := h w hp
  exact ⟨hp', ts, hh, fun t ht => absurd ht (hn w t)⟩

/-- An emission is an operation that gives its answer. -/
theorem answers_emit {m : Resolving Script Answer}
    (h : ∀ r, ∃ typeName node fqn,
      exec m r = mapValue .type (exec (emit typeName node fqn) r)) :
    Answers (resolving m) := by
  intro w hp
  obtain ⟨typeName, node, fqn, he⟩ := h w.resolver
  have ho := isHistory_operate (.emit typeName node fqn) w.resolver
  rw [exec_operate_emit] at ho
  rw [exec_resolving, he]
  refine ⟨hasPublicScripts_grows (grows_emit typeName node fqn w.resolver) hp, _, ho, ?_⟩
  intro t ht
  rcases hx : exec (emit typeName node fqn) w.resolver with ⟨e | t', r'⟩ <;> rw [hx] at ht
  · cases ht
  · cases ht
    exact List.mem_singleton.mpr rfl

/-- Looking at the workshop changes nothing. -/
theorem answers_look {f : Workshop Script → Answer} (hf : ∀ w t, f w ≠ .type t) :
    Answers (do return f (← get)) := by
  refine Follows.answers (follows_get.bind fun _ => follows_pure _) ?_
  intro w t h
  rw [exec_bind_ok (exec_get w), exec_pure] at h
  exact hf w t (Except.ok.inj h)

/-- A command follows a history if the commands of scripts do. -/
theorem answers_performStep {perform : Command → Working Script Answer}
    (hperform : ∀ c, isPublic c = true → Follows (perform c)) {c : Command}
    (hc : isPublic c = true) : Answers (performStep perform c) := by
  have hrun : ∀ on script, isPublicScript script = true →
      Follows (runScript perform on script) :=
    fun on _ hs => follows_runScript hperform on hs
  -- the commands that are not public are refused by the hypothesis
  cases c with
  | emit typeName source fqn =>
    exact answers_emit fun r => ⟨typeName, nodeOf r source, fqn, by
      rw [exec_bind_ok (exec_get r), exec_bind_pure]⟩
  | emitNamed name =>
    exact answers_emit fun r => ⟨Name.ofDefinition name, r.definitions.node name, some name, by
      rw [exec_bind_pure, exec_emitNamed]⟩
  | takeOver name script =>
    refine Follows.answers (follows_resolving fun r hp => ?_) ?_
    · refine ⟨?_, .takeOver name script, ?_⟩
      · rw [exec_bind_pure]
        exact hasPublicScripts_enqueueCustom hp hc
      · rw [exec_bind_pure, exec_operate_takeOver]
        rfl
    · intro w t h
      rw [performStep, exec_resolving, exec_bind_pure, exec_enqueueCustom] at h
      cases h
  | define name source =>
    refine Follows.answers (follows_resolving fun r hp => ?_) ?_
    · exact ⟨hp, .define name (nodeOf r source), rfl⟩
    · intro w t h
      cases h
  | addAlias name target =>
    refine Follows.answers (follows_resolving fun r hp => ?_) ?_
    · exact ⟨hp, .addAlias name target, rfl⟩
    · intro w t h
      cases h
  | render indent =>
    refine Follows.answers ((follows_render (hrun _) _ indent).bind fun _ => follows_pure _) ?_
    intro w t h
    rw [performStep, exec_bind_pure] at h
    rcases hx : exec (render scriptWeight (runScript perform .sheet) indent) w with ⟨e | s, v⟩ <;>
      rw [hx] at h <;> cases h
  | renderShared =>
    refine Follows.answers ((follows_drain (hrun _) _ .shared).bind fun _ =>
      follows_get.bind fun _ => follows_pure _) ?_
    intro w t h
    rw [performStep, exec_bind] at h
    rcases hx : exec (drain scriptWeight (runScript perform .shared) .shared) w with ⟨e | u, v⟩ <;>
      rw [hx] at h <;> cases h
  | emitEnum _ _ _ => exact absurd hc Bool.false_ne_true
  | register _ _ => exact absurd hc Bool.false_ne_true
  | registerScript _ _ _ _ _ => exact absurd hc Bool.false_ne_true
  | rollback _ => exact absurd hc Bool.false_ne_true
  | _ => exact answers_look fun w t h => nomatch h

/-- **A public command follows a history**, with renderings down to any depth. -/
theorem answers_performWith (n : Nat) {c : Command} (hc : isPublic c = true) :
    Answers (performWith n c) := by
  induction n generalizing c with
  | zero => exact (follows_throw _).answers fun w t h => nomatch h
  | succ n ih => exact answers_performStep (fun _ hd => (ih hd).follows) hc

/-! ### Sessions -/

/-- Carries out commands one after the other, whether they fail or not. -/
def session : List Command → Workshop Script → List (Except Failure Answer) × Workshop Script
  | [], w => ([], w)
  | c :: cs, w =>
    let (o, w') := exec (perform c) w
    let (os, w'') := session cs w'
    (o :: os, w'')

/-- **A session of public commands is a history**, and the expressions answered are
among those given. -/
theorem session_isHistory {cs : List Command} (hcs : ∀ c ∈ cs, isPublic c = true)
    {w : Workshop Script} (hp : HasPublicScripts w.resolver) :
    ∃ ts, IsHistory w.resolver ts (session cs w).2.resolver ∧
      ∀ t, .ok (.type t) ∈ (session cs w).1 → t ∈ ts := by
  induction cs generalizing w with
  | nil => exact ⟨[], isHistory_refl _, fun t ht => absurd ht List.not_mem_nil⟩
  | cons c cs ih =>
    obtain ⟨hp', ts, hh, ht⟩ :=
      answers_performWith nestingLimit (hcs c List.mem_cons_self) w hp
    obtain ⟨ts', hh', ht'⟩ := ih (fun d hd => hcs d (List.mem_cons_of_mem c hd)) hp'
    refine ⟨ts ++ ts', hh.trans hh', ?_⟩
    intro t hm
    rcases List.mem_cons.mp hm with hm | hm
    · exact List.mem_append_left ts' (ht t hm.symm)
    · exact List.mem_append_right ts (ht' t hm)

end Workshop
end SchemaScript
