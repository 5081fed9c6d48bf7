import SchemaScript.Proofs.Scripts

/-!
# Withdrawing undoes registering

A position in the queue is only a number, and it is taken before it is known what will be
registered.  Cutting the queue back to it undoes the registrations all the same: they put new
names at the end and move none, a declaration that is replaced keeps its place, and what was
withdrawn in between had come behind the position, too.

Only a replacement of a declaration that waited before the position cannot be undone so.

## Main definitions

* `Stretch` — registrations, and stretches that are undone, in any order and nesting.
* `Stretch.run`, `Stretch.after` — what it does to the resolver, and to the queue.
* `Stretch.entering` — the names that it brings into a queue and leaves there.
* `Stretch.Spares` — the waiting names that it does not replace.

## Main results

* `names_after` — a stretch puts the entering names at the end.
* `prefix_after` — it leaves what it spares in place.
* `withdraw_undoes` — withdrawing gives the entering names, and the queue there was.
-/

namespace SchemaScript

open Stateful

variable {ε : Type}

/-! ### Single calls -/

namespace Resolver

/-- Registering does not fail. -/
theorem exec_enqueue_ok (d : Declaration ε) (replace : Bool) (r : Resolver ε) :
    ∃ b, exec (enqueue d replace) r = (.ok b, (exec (enqueue d replace) r).2) := by
  rw [exec_enqueue]
  split
  · exact ⟨true, rfl⟩
  · exact ⟨false, rfl⟩

/-- Withdrawing gives what came after the position. -/
theorem exec_withdraw_ok (position : Nat) (r : Resolver ε) :
    exec (withdraw position) r =
      (.ok (r.queue.since position), (exec (withdraw position) r).2) := by
  simp only [withdraw, exec_bind, exec_get, exec_set]
  split <;> rfl

/-- Where nothing came after the position, withdrawing changes nothing. -/
theorem exec_withdraw_checkpoint (r : Resolver ε) :
    exec (withdraw r.queue.checkpoint) r = (.ok [], r) := by
  have hsince : r.queue.since r.queue.checkpoint = [] := by
    rw [Queue.since, ← Queue.length_names, List.drop_length]
  have hcut : r.queue.rollback r.queue.checkpoint = r.queue := by
    rw [Queue.rollback, Queue.checkpoint, Table.take_size_of_prefix List.prefix_rfl]
  simp only [withdraw, exec_bind, exec_get, exec_set, hsince, hcut]
  rfl

/-- That a value was seen is all that counts, not when. -/
theorem distinct_congr {seen seen' : List String} (h : ∀ s, s ∈ seen ↔ s ∈ seen')
    (ss : List String) : distinct seen ss = distinct seen' ss := by
  induction ss generalizing seen seen' with
  | nil => rfl
  | cons s ss ih =>
    have hs : distinct (s :: seen) ss = distinct (s :: seen') ss :=
      ih fun k => by simp [h]
    simp only [distinct, h s, ih h, hs]

end Resolver

/-! ### Stretches -/

/-- What is done to the queue from one position on. -/
inductive Stretch (ε : Type)
  | done
  /-- A declaration is registered before the rest. -/
  | register (d : Declaration ε) (replace : Bool) (rest : Stretch ε)
  /-- A stretch is done and undone before the rest: what comes behind the position at which
  it starts is withdrawn. -/
  | undone (inner rest : Stretch ε)

namespace Stretch

/-- Does the stretch. -/
def run : Stretch ε → Resolving ε Unit
  | done => pure ()
  | register d replace rest => do
    let _ ← Resolver.enqueue d replace
    rest.run
  | undone inner rest => do
    let position := (← get).queue.checkpoint
    inner.run
    let _ ← Resolver.withdraw position
    rest.run

/-- The queue behind the stretch. -/
def after : Stretch ε → Queue ε → Queue ε
  | done, q => q
  | register d replace rest, q => rest.after (q.register d replace)
  | undone inner rest, q => rest.after ((inner.after q).rollback q.checkpoint)

/-- The names of the declarations that are registered, without the undone ones. -/
def names : Stretch ε → List String
  | done => []
  | register d _ rest => d.name :: rest.names
  | undone _ rest => rest.names

/-- Of these names the ones that are not known before, each at its first place only. -/
def entering (s : Stretch ε) (q : Queue ε) : List String :=
  Resolver.distinct (q.names ++ q.written) s.names

/-- No registration that is made, undone or not, replaces one of the names. -/
def Spares (kept : List String) : Stretch ε → Queue ε → Prop
  | done, _ => True
  | register d replace rest, q =>
    (d.name ∈ kept → q.accepts d.name replace = false) ∧ rest.Spares kept (q.register d replace)
  | undone inner rest, q =>
    inner.Spares kept q ∧ rest.Spares kept ((inner.after q).rollback q.checkpoint)

instance decidableSpares (kept : List String) :
    (s : Stretch ε) → (q : Queue ε) → Decidable (s.Spares kept q)
  | done, _ => .isTrue trivial
  | register d replace rest, q =>
    have := decidableSpares kept rest (q.register d replace)
    inferInstanceAs (Decidable ((d.name ∈ kept → q.accepts d.name replace = false) ∧ _))
  | undone inner rest, q =>
    have := decidableSpares kept inner q
    have := decidableSpares kept rest ((inner.after q).rollback q.checkpoint)
    inferInstanceAs (Decidable (_ ∧ _))

/-! ### Carrying out -/

/-- A stretch does not fail, whatever is refused in it. -/
theorem exec_run (s : Stretch ε) (r : Resolver ε) :
    ∃ r', exec s.run r = (.ok (), r') ∧ r'.queue = s.after r.queue := by
  induction s generalizing r with
  | done => exact ⟨r, rfl, rfl⟩
  | register d replace rest ih =>
    obtain ⟨b, hb⟩ := Resolver.exec_enqueue_ok d replace r
    obtain ⟨r', hr', hq⟩ := ih (exec (Resolver.enqueue d replace) r).2
    refine ⟨r', ?_, ?_⟩
    · rw [run, exec_bind_ok hb, hr']
    · rw [hq, after, Workshop.queue_enqueue]
  | undone inner rest ihInner ih =>
    obtain ⟨r₁, hr₁, hq₁⟩ := ihInner r
    obtain ⟨r', hr', hq⟩ := ih (exec (Resolver.withdraw r.queue.checkpoint) r₁).2
    refine ⟨r', ?_, ?_⟩
    · rw [run, exec_bind_ok (exec_get r), exec_bind_ok hr₁,
        exec_bind_ok (Resolver.exec_withdraw_ok _ r₁), hr']
    · rw [hq, after, Workshop.queue_withdraw, hq₁]

/-! ### What stays and what is new -/

@[simp] theorem written_after (s : Stretch ε) (q : Queue ε) : (s.after q).written = q.written := by
  induction s generalizing q with
  | done => rfl
  | register d replace rest ih => rw [after, ih, Queue.written_register]
  | undone inner rest ihInner ih => rw [after, ih, Queue.written_rollback, ihInner]

/-- **A stretch puts the entering names at the end**, in the order in which they come. -/
theorem names_after (s : Stretch ε) (q : Queue ε) :
    (s.after q).names = q.names ++ s.entering q := by
  induction s generalizing q with
  | done => simp [after, entering, names, Resolver.distinct]
  | register d replace rest ih =>
    rw [after, ih, entering, entering, names, Resolver.distinct, Queue.written_register,
      Queue.names_register]
    by_cases hk : d.name ∈ q.names ++ q.written
    · rw [if_pos hk, if_pos hk]
    · rw [if_neg hk, if_neg hk, List.append_assoc, List.singleton_append]
      congr 2
      apply Resolver.distinct_congr
      intro k
      simp [or_comm, or_assoc]
  | undone inner rest ihInner ih =>
    -- behind the undone stretch the names are those before it
    have hnames : ((inner.after q).rollback q.checkpoint).names = q.names := by
      rw [Queue.names_rollback, ihInner, ← Queue.length_names, List.take_left]
    rw [after, ih, entering, entering, names, hnames, Queue.written_rollback, written_after]

/-- **What a stretch spares stays in place**, with its declarations. -/
theorem prefix_after {s : Stretch ε} {base q : Queue ε} (hs : s.Spares base.names q)
    (hq : base.waiting.entries <+: q.waiting.entries) :
    base.waiting.entries <+: (s.after q).waiting.entries := by
  induction s generalizing q with
  | done => exact hq
  | register d replace rest ih =>
    obtain ⟨hd, hrest⟩ := hs
    apply ih hrest
    by_cases ha : q.accepts d.name replace = true
    · have hnot : d.name ∉ base.waiting.entries.map (·.1) := by
        intro hmem
        rw [hd hmem] at ha
        cases ha
      obtain ⟨es, hes⟩ := hq
      rw [Queue.register, if_pos ha, Table.insert, ← hes, Entries.put_append d es hnot]
      exact List.prefix_append _ _
    · rw [Bool.not_eq_true] at ha
      rwa [Queue.register_of_not_accepts ha]
  | undone inner rest ihInner ih =>
    obtain ⟨hinner, hrest⟩ := hs
    apply ih hrest
    rw [Queue.rollback, Table.entries_take, List.prefix_take_iff]
    exact ⟨ihInner hinner hq, hq.length_le⟩

/-- **Withdrawing undoes registering.**  Take a position, and do anything from there on that
consists of registrations and of stretches that are undone.  If no registration replaces a
declaration that waits at the position, withdrawing what came after it gives the names that
entered since and still wait, in order, and makes the queue what it was: the same names in
the same order with the same declarations, and the same written names.  Withdrawing once more
gives no name and changes nothing at all. -/
theorem withdraw_undoes {s : Stretch ε} {r : Resolver ε} (h : s.Spares r.queue.names r.queue) :
    ∃ r₁ r₂, exec s.run r = (.ok (), r₁) ∧
      r₁.queue.names = r.queue.names ++ s.entering r.queue ∧
      exec (Resolver.withdraw r.queue.checkpoint) r₁ = (.ok (s.entering r.queue), r₂) ∧
      r₂.queue = r.queue ∧
      exec (Resolver.withdraw r.queue.checkpoint) r₂ = (.ok [], r₂) := by
  obtain ⟨r₁, hr₁, hq₁⟩ := exec_run s r
  have hnames : r₁.queue.names = r.queue.names ++ s.entering r.queue := by rw [hq₁, names_after]
  have hsince : r₁.queue.since r.queue.checkpoint = s.entering r.queue := by
    rw [Queue.since, hnames, ← Queue.length_names, List.drop_left]
  have hcut : r₁.queue.rollback r.queue.checkpoint = r.queue := by
    have hp : r.queue.waiting.entries <+: r₁.queue.waiting.entries := by
      rw [hq₁]
      exact prefix_after h List.prefix_rfl
    rw [Queue.rollback, Queue.checkpoint, Table.take_size_of_prefix hp, hq₁, written_after]
  have hout := Resolver.exec_withdraw_ok r.queue.checkpoint r₁
  have hq₂ : (exec (Resolver.withdraw r.queue.checkpoint) r₁).2.queue = r.queue := by
    rw [Workshop.queue_withdraw, hcut]
  rw [hsince] at hout
  refine ⟨r₁, _, hr₁, hnames, hout, hq₂, ?_⟩
  have hagain :=
    Resolver.exec_withdraw_checkpoint (exec (Resolver.withdraw r.queue.checkpoint) r₁).2
  rwa [hq₂] at hagain

/-- A name waits and another one is written.  In an undone stretch, inside of which another
one is undone, a name that came before it is replaced; the waiting and the written name are
refused. -/
theorem withdraw_undoes_nested :
    let bare (name fqn : String) : Declaration Empty := ⟨name, fqn, .null, none, .bare⟩
    let r : Resolver Empty :=
      ⟨[], .empty, ⟨⟨[("A", bare "A" "first")]⟩, ["W"]⟩, .empty, .empty, []⟩
    let s : Stretch Empty :=
      .register (bare "B" "") false <|
      .undone (.register (bare "C" "") false <| .undone (.register (bare "D" "") true .done) <|
        .register (bare "B" "again") true .done) <|
      .register (bare "A" "second") false <| .register (bare "W" "") true <|
      .register (bare "D" "") false .done
    s.Spares r.queue.names r.queue ∧
      ∃ r₁ r₂, exec s.run r = (.ok (), r₁) ∧ r₁.queue.names = ["A", "B", "D"] ∧
        exec (Resolver.withdraw 1) r₁ = (.ok ["B", "D"], r₂) ∧ r₂.queue = r.queue ∧
        exec (Resolver.withdraw 1) r₂ = (.ok [], r₂) := by
  intro bare r s
  have hs : s.Spares r.queue.names r.queue := by decide
  exact ⟨hs, withdraw_undoes hs⟩

end Stretch
end SchemaScript
