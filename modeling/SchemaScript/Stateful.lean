import SchemaScript.Failure

/-!
# Computations that change a state and can fail

A failure leaves the state as it is by then, so that what was done before it can be
looked at, kept or undone.

## Main definitions

* `Stateful` — computations on a state.
* `Stateful.exec` — what a computation gives, and the state after it.

The laws say what `exec` gives for each way of putting computations together; with
them no proof has to look into the monad.
-/

namespace SchemaScript

/-- A computation on a state of type `σ` that can fail. -/
abbrev Stateful (σ : Type) := ExceptT Failure (StateM σ)

namespace Stateful

variable {σ α β : Type}

/-- What a computation gives from a state on, and the state after it. -/
def exec (m : Stateful σ α) (s : σ) : Except Failure α × σ := m.run.run s

/-! ### Laws -/

/-- Where nothing happens beside the result, going on is applying. -/
private theorem id_bind (x : Id α) (f : α → Id β) : (x >>= f) = f x := rfl

@[simp] theorem exec_pure (a : α) (s : σ) : exec (pure a) s = (.ok a, s) := rfl

/-- A computation goes on from where the one before it ended, if that one succeeded. -/
theorem exec_bind (m : Stateful σ α) (f : α → Stateful σ β) (s : σ) :
    exec (m >>= f) s =
      match exec m s with
      | (.ok a, s) => exec (f a) s
      | (.error e, s) => (.error e, s) := by
  unfold exec
  rw [ExceptT.run_bind, StateT.run_bind, id_bind]
  generalize m.run.run s = r
  obtain ⟨e | a, t⟩ := r <;> rfl

/-- The case in which the computation before succeeded. -/
theorem exec_bind_ok {m : Stateful σ α} {f : α → Stateful σ β} {s t : σ} {a : α}
    (h : exec m s = (.ok a, t)) : exec (m >>= f) s = exec (f a) t := by
  rw [exec_bind, h]

/-- The case in which the computation before failed. -/
theorem exec_bind_error {m : Stateful σ α} {f : α → Stateful σ β} {s t : σ} {e : Failure}
    (h : exec m s = (.error e, t)) : exec (m >>= f) s = (.error e, t) := by
  rw [exec_bind, h]

@[simp] theorem exec_throw (e : Failure) (s : σ) :
    exec (throw e : Stateful σ α) s = (.error e, s) := rfl

@[simp] theorem exec_get (s : σ) : exec (get : Stateful σ σ) s = (.ok s, s) := rfl

@[simp] theorem exec_set (s t : σ) : exec (set t : Stateful σ PUnit) s = (.ok (), t) := rfl

@[simp] theorem exec_modify (f : σ → σ) (s : σ) :
    exec (modify f : Stateful σ PUnit) s = (.ok (), f s) := rfl

/-- A result that does not depend on the state leaves it as it is. -/
@[simp] theorem exec_lift (r : Except Failure α) (s : σ) :
    exec (liftM r : Stateful σ α) s = (r, s) := by
  cases r <;> rfl

/-- What a failure is answered with goes on from the state that it left. -/
theorem exec_tryCatch (m : Stateful σ α) (handle : Failure → Stateful σ α) (s : σ) :
    exec (tryCatch m handle) s =
      match exec m s with
      | (.ok a, s) => (.ok a, s)
      | (.error e, s) => exec (handle e) s := by
  unfold exec
  rw [ExceptT.run_tryCatch, StateT.run_bind, id_bind]
  generalize m.run.run s = r
  obtain ⟨e | a, t⟩ := r <;> rfl

end Stateful
end SchemaScript
