import SchemaScript.Pattern.Basic

/-!
# Matching by trying

The places where a match can end are found as sets: alternatives side by side, repetitions step
by step, and no place twice.  Whoever looks for one match tries one thing after the other: of
two alternatives the first one first, and a repetition as often as it goes before it gives back,
or the other way round if it is lazy.  In this way all matches are found in an order, and some of
them more than once.  Both ways come to the same places, since the places of one text are told apart
by their positions.

## Main definitions

* `repeated`, `greedy`, `sparing` — a step repeated exactly, or at most, so many times.
* `Pattern.ways` — where matches end, in the order in which trying finds them.
* `Place.IsOf` — the place is one of a text.

## Main results

* `Pattern.tryWith_eq` — trying goes through the ways in order.
* `mem_closure_iff` — what the steps of a search in breadth reach.
* `Pattern.agrees` — both ways come to the same places.
* `Pattern.matchesIn_eq` — searching a text can be done by trying.
-/

namespace SchemaScript

/-! ### Ways -/

/-- The places that exactly `n` steps lead to. -/
def repeated (step : Place → List Place) : Nat → Place → List Place
  | 0, p => [p]
  | n + 1, p => (step p).flatMap (repeated step n)

/-- The places that at most `n` steps lead to, where as many as possible are tried first.  A step
that takes no character is the last one. -/
def greedy (step : Place → List Place) : Nat → Place → List Place
  | 0, p => [p]
  | n + 1, p =>
    ((step p).flatMap fun e => if e.position = p.position then [e] else greedy step n e) ++ [p]

/-- The places that at most `n` steps lead to, where as few as possible are tried first.  A step
that takes no character is the last one. -/
def sparing (step : Place → List Place) : Nat → Place → List Place
  | 0, p => [p]
  | n + 1, p =>
    p :: (step p).flatMap fun e => if e.position = p.position then [e] else sparing step n e

namespace Pattern

/-- The places where a match that starts at the given place ends, in the order in which trying
finds them. -/
def ways : Pattern → Place → List Place
  | empty, p => [p]
  | set negated anyCase items, p => p.step fun c => items.any (·.has anyCase c) != negated
  | any lineFeed, p => p.step fun c => lineFeed || c != '\n'
  | anchor a, p => if a.holds p then [p] else []
  | seq q r, p => (q.ways p).flatMap r.ways
  | alt q r, p => q.ways p ++ r.ways p
  | rep lazy q least most, p =>
    let again := if lazy then sparing else greedy
    (repeated q.ways least p).flatMap (again q.ways (p.more least most))
  | atomic q, p => (q.ways p).head?.toList
  | ahead negated q, p => if (q.ways p).isEmpty == negated then [p] else []
  | behind negated width q, p =>
    if ((p.back? width).toList.flatMap q.ways).isEmpty == negated then [p] else []

end Pattern

/-! ### Trying -/

section

theorem findSome?_flatMap (f : Place → List Place) (goOn : Going) (ps : List Place) :
    (ps.flatMap f).findSome? goOn = ps.findSome? fun p => (f p).findSome? goOn := by
  induction ps with
  | nil => rfl
  | cons p ps ih =>
    rw [List.flatMap_cons, List.findSome?_append, ih, List.findSome?_cons]
    cases (f p).findSome? goOn <;> rfl

theorem findSome?_some (ps : List Place) : ps.findSome? some = ps.head? := by
  cases ps <;> rfl

theorem isNone_findSome?_some (ps : List Place) : (ps.findSome? some).isNone = ps.isEmpty := by
  cases ps <;> rfl

/-- What is tried behind one step of a repetition, which goes on at once if the step has taken no
character. -/
theorem again_eq {goOn again : Going} {ways : Place → List Place}
    (h : ∀ e, again e = (ways e).findSome? goOn) (p : Place) :
    (fun e : Place => if e.position = p.position then goOn e else again e) =
      fun e => (if e.position = p.position then [e] else ways e).findSome? goOn := by
  funext e
  split
  · exact List.findSome?_singleton.symm
  · exact h e

variable {step : Going → Going} {ways : Place → List Place}
  (h : ∀ goOn p, step goOn p = (ways p).findSome? goOn)

include h

theorem tryExactly_eq (goOn : Going) (n : Nat) (p : Place) :
    tryExactly step goOn n p = (repeated ways n p).findSome? goOn := by
  induction n generalizing p with
  | zero => exact List.findSome?_singleton.symm
  | succ n ih => rw [tryExactly, h, repeated, findSome?_flatMap, funext ih]

theorem tryGreedy_eq (goOn : Going) (n : Nat) (p : Place) :
    tryGreedy step goOn n p = (greedy ways n p).findSome? goOn := by
  induction n generalizing p with
  | zero => exact List.findSome?_singleton.symm
  | succ n ih =>
    rw [tryGreedy, h, again_eq ih p, greedy, List.findSome?_append, findSome?_flatMap,
      List.findSome?_singleton, Option.or_eq_orElse]
    rfl

theorem tryLazy_eq (goOn : Going) (n : Nat) (p : Place) :
    tryLazy step goOn n p = (sparing ways n p).findSome? goOn := by
  induction n generalizing p with
  | zero => exact List.findSome?_singleton.symm
  | succ n ih =>
    rw [tryLazy, h, again_eq ih p, sparing, List.findSome?_cons, findSome?_flatMap]
    cases goOn p <;> rfl

end

namespace Pattern

/-- **Trying goes through the ways in order** and takes the first one behind which it can go on. -/
theorem tryWith_eq (q : Pattern) (goOn : Going) (p : Place) :
    q.tryWith goOn p = (q.ways p).findSome? goOn := by
  induction q generalizing goOn p with
  | empty => exact List.findSome?_singleton.symm
  | set | any => rfl
  | anchor a =>
    rw [tryWith, ways]
    split <;> simp
  | seq q r hq hr => rw [tryWith, hq, ways, findSome?_flatMap, funext (hr goOn)]
  | alt q r hq hr =>
    rw [tryWith, hq, hr, ways, List.findSome?_append, Option.or_eq_orElse]
    rfl
  | rep lazy q least most hq =>
    rw [tryWith, ways, findSome?_flatMap, tryExactly_eq hq]
    congr 1
    funext e
    cases lazy
    · exact tryGreedy_eq hq goOn _ e
    · exact tryLazy_eq hq goOn _ e
  | atomic q hq =>
    rw [tryWith, hq, ways, findSome?_some]
    cases (q.ways p).head? <;> simp
  | ahead negated q hq =>
    rw [tryWith, hq, ways, isNone_findSome?_some]
    split <;> simp
  | behind negated width q hq =>
    have hback : ((p.back? width).bind (q.tryWith some)).isNone =
        ((p.back? width).toList.flatMap q.ways).isEmpty := by
      cases p.back? width with
      | none => rfl
      | some b => simp [hq, isNone_findSome?_some]
    rw [tryWith, hback, ways]
    split <;> simp

end Pattern

/-! ### Places of a text -/

/-- The place is one of the text. -/
structure Place.IsOf (t : List Char) (p : Place) : Prop where
  position : p.position = p.before.length
  text : p.before.reverse ++ p.after = t

/-- A step from a place of the text leads to others of it. -/
def StaysIn (t : List Char) (step : Place → List Place) : Prop :=
  ∀ p : Place, p.IsOf t → ∀ e ∈ step p, e.IsOf t

/-- Places of one text are told apart by their positions. -/
theorem Place.IsOf.eq {t : List Char} {p q : Place} (hp : p.IsOf t) (hq : q.IsOf t)
    (h : p.position = q.position) : p = q := by
  have hlength : p.before.reverse.length = q.before.reverse.length := by
    rw [List.length_reverse, List.length_reverse, ← hp.position, ← hq.position, h]
  obtain ⟨hbefore, hafter⟩ := List.append_inj (hp.text.trans hq.text.symm) hlength
  cases p
  cases q
  rw [Place.mk.injEq]
  exact ⟨h, List.reverse_inj.mp hbefore, hafter⟩

theorem isOf_next {t before cs : List Char} {n : Nat} {c : Char}
    (h : Place.IsOf t ⟨n, before, c :: cs⟩) : Place.IsOf t ⟨n + 1, c :: before, cs⟩ where
  position := congrArg (· + 1) h.position
  text := by simpa using h.text

theorem isOf_back {t : List Char} {p b : Place} {n : Nat} (hp : p.IsOf t)
    (hb : p.back? n = some b) : b.IsOf t := by
  rw [Place.back?] at hb
  split at hb
  · obtain rfl := Option.some.inj hb
    constructor
    · rw [List.length_drop, hp.position]
    · rw [← List.append_assoc, ← List.reverse_append, List.take_append_drop, hp.text]
  · cases hb

theorem isOf_onwards (t : List Char) : ∀ p ∈ Place.onwards 0 [] t, p.IsOf t := by
  suffices h : ∀ (cs : List Char) (n : Nat) (before : List Char), Place.IsOf t ⟨n, before, cs⟩ →
      ∀ p ∈ Place.onwards n before cs, p.IsOf t from h t 0 [] ⟨rfl, rfl⟩
  intro cs
  induction cs with
  | nil =>
    intro n before h p hp
    rwa [List.mem_singleton.mp hp]
  | cons c cs ih =>
    intro n before h
    exact List.forall_mem_cons.mpr ⟨h, ih (n + 1) (c :: before) (isOf_next h)⟩

/-- A condition on a place leads nowhere else. -/
theorem isOf_of_mem_ite {t : List Char} {p e : Place} (hp : p.IsOf t) {holds : Prop}
    [Decidable holds] (he : e ∈ if holds then [p] else []) : e.IsOf t := by
  split at he
  · rwa [List.mem_singleton.mp he]
  · exact absurd he List.not_mem_nil

theorem staysIn_step (t : List Char) (test : Char → Bool) : StaysIn t (Place.step test) := by
  rintro ⟨n, before, _ | ⟨c, cs⟩⟩ hp e he
  · exact absurd he List.not_mem_nil
  · simp only [Place.step] at he
    split at he
    · rw [List.mem_singleton.mp he]
      exact isOf_next hp
    · exact absurd he List.not_mem_nil

section

variable {t : List Char}

theorem Place.isIn_iff {p : Place} {ps : List Place} (hp : p.IsOf t) (hps : ∀ q ∈ ps, q.IsOf t) :
    p.isIn ps = true ↔ p ∈ ps := by
  rw [Place.isIn, List.any_eq_true]
  constructor
  · rintro ⟨q, hq, heq⟩
    rwa [← (hps q hq).eq hp (beq_iff_eq.mp heq)]
  · exact fun h => ⟨p, h, beq_self_eq_true _⟩

theorem mem_newPlaces_iff {seen ps : List Place} (hseen : ∀ p ∈ seen, p.IsOf t)
    (hps : ∀ p ∈ ps, p.IsOf t) {e : Place} : e ∈ newPlaces seen ps ↔ e ∈ ps ∧ e ∉ seen := by
  induction ps generalizing seen with
  | nil => simp [newPlaces]
  | cons p ps ih =>
    obtain ⟨hp, hps⟩ := List.forall_mem_cons.mp hps
    rw [newPlaces]
    by_cases h : p ∈ seen
    · rw [if_pos ((Place.isIn_iff hp hseen).mpr h), ih hseen hps]
      grind
    · rw [if_neg (by rwa [Place.isIn_iff hp hseen]), List.mem_cons,
        ih (List.forall_mem_cons.mpr ⟨hp, hseen⟩) hps]
      grind

variable {step : Place → List Place}

/-- Without fresh places the search has come to its end, and goes on with none. -/
theorem closure_succ (n : Nat) (seen latest : List Place) :
    closure step (n + 1) seen latest =
      closure step n (seen ++ newPlaces seen (latest.flatMap step))
        (newPlaces seen (latest.flatMap step)) := by
  rw [closure]
  split
  · next h =>
    rw [h, List.append_nil]
    cases n <;> rfl
  · rfl

/-- If all steps from the seen places but the latest have been taken, what is come to from any of
them is seen or is come to from the latest, in no more steps. -/
theorem exists_latest {seen latest : List Place}
    (hseen : ∀ p ∈ seen, ∀ q ∈ step p, q ∈ seen ∨ p ∈ latest) {k : Nat} {p e : Place}
    (hp : p ∈ seen) (he : e ∈ repeated step k p) :
    e ∈ seen ∨ ∃ j ≤ k, ∃ q ∈ latest, e ∈ repeated step j q := by
  induction k generalizing p with
  | zero =>
    rw [List.mem_singleton.mp he]
    exact Or.inl hp
  | succ k ih =>
    obtain ⟨q, hq, hrest⟩ := List.mem_flatMap.mp he
    rcases hseen p hp q hq with hq | hlatest
    · refine (ih hq hrest).imp_right ?_
      rintro ⟨j, hj, h⟩
      exact ⟨j, by omega, h⟩
    · exact Or.inr ⟨k + 1, Nat.le_refl _, p, hlatest, he⟩

variable (hstep : StaysIn t step)

include hstep

theorem isOf_flatMap {ps : List Place} (hps : ∀ p ∈ ps, p.IsOf t) :
    ∀ e ∈ ps.flatMap step, e.IsOf t := by
  intro e he
  obtain ⟨p, hp, he⟩ := List.mem_flatMap.mp he
  exact hstep p (hps p hp) e he

theorem mem_stepAll_iff {ps : List Place} (hps : ∀ p ∈ ps, p.IsOf t) {e : Place} :
    e ∈ stepAll step ps ↔ ∃ p ∈ ps, e ∈ step p := by
  rw [stepAll, mem_newPlaces_iff (by simp) (isOf_flatMap hstep hps), List.mem_flatMap]
  simp

theorem staysIn_repeated (n : Nat) : StaysIn t (repeated step n) := by
  induction n with
  | zero =>
    intro p hp e he
    rwa [List.mem_singleton.mp he]
  | succ n ih =>
    intro p hp
    exact isOf_flatMap ih (hstep p hp)

theorem mem_iterate_iff {ps : List Place} (hps : ∀ p ∈ ps, p.IsOf t) (n : Nat) {e : Place} :
    e ∈ iterate step n ps ↔ ∃ p ∈ ps, e ∈ repeated step n p := by
  induction n generalizing ps with
  | zero => simp [iterate, repeated]
  | succ n ih =>
    have hnext : ∀ p ∈ stepAll step ps, p.IsOf t := by
      intro q hq
      obtain ⟨p, hp, hq⟩ := (mem_stepAll_iff hstep hps).mp hq
      exact hstep p (hps p hp) q hq
    rw [iterate, ih hnext]
    simp only [repeated, List.mem_flatMap, mem_stepAll_iff hstep hps]
    grind

/-- **What the search in breadth comes to** behind the latest of the seen places, if the steps from
all others have been taken. -/
theorem mem_closure {seen latest : List Place} (hof : ∀ p ∈ seen, p.IsOf t)
    (hlatest : ∀ p ∈ latest, p ∈ seen)
    (hseen : ∀ p ∈ seen, ∀ q ∈ step p, q ∈ seen ∨ p ∈ latest) (n : Nat) {e : Place} :
    e ∈ closure step n seen latest ↔
      e ∈ seen ∨ ∃ k ≤ n, ∃ p ∈ latest, e ∈ repeated step k p := by
  induction n generalizing seen latest with
  | zero =>
    rw [closure]
    refine ⟨Or.inl, fun h => h.elim id ?_⟩
    rintro ⟨k, hk, p, hp, he⟩
    obtain rfl : k = 0 := by omega
    rw [List.mem_singleton.mp he]
    exact hlatest p hp
  | succ n ih =>
    have hnew := isOf_flatMap hstep fun p hp => hof p (hlatest p hp)
    have hfresh : ∀ q, q ∈ newPlaces seen (latest.flatMap step) ↔
        (∃ p ∈ latest, q ∈ step p) ∧ q ∉ seen := by
      intro q
      rw [mem_newPlaces_iff hof hnew, List.mem_flatMap]
    rw [closure_succ]
    generalize newPlaces seen (latest.flatMap step) = fresh at hfresh ⊢
    have hof' : ∀ p ∈ seen ++ fresh, p.IsOf t := by
      intro q hq
      rcases List.mem_append.mp hq with hq | hq
      · exact hof q hq
      · exact hnew q (List.mem_flatMap.mpr ((hfresh q).mp hq).1)
    -- the steps from the latest places lead to seen or fresh ones, so the fresh ones are next
    have hseen' : ∀ p ∈ seen ++ fresh, ∀ q ∈ step p, q ∈ seen ++ fresh ∨ p ∈ fresh := by
      intro p hp q hq
      rcases List.mem_append.mp hp with hp | hp
      · by_cases h : q ∈ seen
        · exact Or.inl (List.mem_append_left _ h)
        · have hp := (hseen p hp q hq).resolve_left h
          exact Or.inl (List.mem_append_right _ ((hfresh q).mpr ⟨⟨p, hp, hq⟩, h⟩))
      · exact Or.inr hp
    rw [ih hof' (fun p hp => List.mem_append_right _ hp) hseen']
    constructor
    · rintro (he | ⟨k, hk, q, hq, he⟩)
      · rcases List.mem_append.mp he with he | he
        · exact Or.inl he
        · obtain ⟨⟨p, hp, he⟩, -⟩ := (hfresh e).mp he
          refine Or.inr ⟨1, by omega, p, hp, List.mem_flatMap.mpr ⟨e, he, ?_⟩⟩
          exact List.mem_singleton_self e
      · obtain ⟨⟨p, hp, hq⟩, -⟩ := (hfresh q).mp hq
        exact Or.inr ⟨k + 1, by omega, p, hp, List.mem_flatMap.mpr ⟨q, hq, he⟩⟩
    · rintro (he | ⟨k, hk, p, hp, he⟩)
      · exact Or.inl (List.mem_append_left _ he)
      · have hpseen := hlatest p hp
        cases k with
        | zero =>
          rw [List.mem_singleton.mp he]
          exact Or.inl (List.mem_append_left _ hpseen)
        | succ k =>
          obtain ⟨q, hq, he⟩ := List.mem_flatMap.mp he
          have hqseen : q ∈ seen ++ fresh :=
            (hseen' p (List.mem_append_left _ hpseen) q hq).resolve_right
              fun h => ((hfresh p).mp h).2 hpseen
          refine (exists_latest hseen' hqseen he).imp_right ?_
          rintro ⟨j, hj, r, hr, he⟩
          exact ⟨j, by omega, r, hr, he⟩

/-- **What the search in breadth reaches**: all that at most so many steps lead to. -/
theorem mem_closure_iff {ps : List Place} (hps : ∀ p ∈ ps, p.IsOf t) (n : Nat) {e : Place} :
    e ∈ closure step n ps ps ↔ ∃ p ∈ ps, ∃ k ≤ n, e ∈ repeated step k p := by
  rw [mem_closure hstep hps (fun _ h => h) fun p hp _ _ => Or.inr hp]
  constructor
  · rintro (he | ⟨k, hk, p, hp, he⟩)
    · exact ⟨e, he, 0, Nat.zero_le n, List.mem_singleton_self e⟩
    · exact ⟨p, hp, k, hk, he⟩
  · rintro ⟨p, hp, k, hk, he⟩
    exact Or.inr ⟨k, hk, p, hp, he⟩

end

/-- **Steps that take no character are not missed** behind one of them: they lead to the place
where they start. -/
theorem mem_greedy_iff {t : List Char} {step : Place → List Place} (hstep : StaysIn t step)
    (n : Nat) {p e : Place} (hp : p.IsOf t) :
    e ∈ greedy step n p ↔ ∃ k ≤ n, e ∈ repeated step k p := by
  induction n generalizing p with
  | zero => simp [greedy, repeated]
  | succ n ih =>
    rw [greedy, List.mem_append, List.mem_flatMap, List.mem_singleton]
    constructor
    · rintro (⟨q, hq, he⟩ | rfl)
      · split at he
        · exact ⟨1, by omega, List.mem_flatMap.mpr ⟨q, hq, he⟩⟩
        · obtain ⟨k, hk, he⟩ := (ih (hstep p hp q hq)).mp he
          exact ⟨k + 1, by omega, List.mem_flatMap.mpr ⟨q, hq, he⟩⟩
      · exact ⟨0, by omega, List.mem_singleton_self e⟩
    · rintro ⟨k, hk, he⟩
      induction k with
      | zero => exact Or.inr (List.mem_singleton.mp he)
      | succ k ihk =>
        obtain ⟨q, hq, he⟩ := List.mem_flatMap.mp he
        by_cases hstays : q.position = p.position
        · rw [(hstep p hp q hq).eq hp hstays] at he
          exact ihk (by omega) he
        · refine Or.inl ⟨q, hq, ?_⟩
          rw [if_neg hstays]
          exact (ih (hstep p hp q hq)).mpr ⟨k, by omega, he⟩

theorem mem_sparing_iff (step : Place → List Place) (n : Nat) {p e : Place} :
    e ∈ sparing step n p ↔ e ∈ greedy step n p := by
  induction n generalizing p with
  | zero => exact Iff.rfl
  | succ n ih =>
    rw [sparing, greedy, List.mem_cons, List.mem_append, List.mem_singleton, or_comm,
      List.mem_flatMap, List.mem_flatMap]
    refine or_congr_left (exists_congr fun q => and_congr_right fun _ => ?_)
    split
    · exact Iff.rfl
    · exact ih

/-! ### Both ways -/

/-- Steps that lead to the same places do so when they are repeated. -/
theorem mem_repeated_congr {t : List Char} {step step' : Place → List Place}
    (hstep : StaysIn t step) (h : ∀ p : Place, p.IsOf t → ∀ e, e ∈ step p ↔ e ∈ step' p) (n : Nat)
    {p e : Place} (hp : p.IsOf t) : e ∈ repeated step n p ↔ e ∈ repeated step' n p := by
  induction n generalizing p with
  | zero => exact Iff.rfl
  | succ n ih =>
    simp only [repeated, List.mem_flatMap, ← h p hp]
    refine exists_congr fun q => and_congr_right fun hq => ?_
    exact ih (hstep p hp q hq)

namespace Pattern

/-- From places of the text, both ways come to the same places, which are of the text again. -/
structure Agrees (t : List Char) (q : Pattern) : Prop where
  staysIn : StaysIn t q.ends
  mem_iff : ∀ p : Place, p.IsOf t → ∀ e, e ∈ q.ends p ↔ e ∈ q.ways p

section

variable {t : List Char} {q r : Pattern}

theorem agrees_of_eq (h : q.ends = q.ways) (hq : StaysIn t q.ends) : Agrees t q :=
  ⟨hq, fun p _ e => by rw [h]⟩

theorem Agrees.staysIn_ways (hq : Agrees t q) : StaysIn t q.ways := fun p hp e he =>
  hq.staysIn p hp e ((hq.mem_iff p hp e).mpr he)

theorem Agrees.seq (hq : Agrees t q) (hr : Agrees t r) : Agrees t (.seq q r) := by
  have hmem : ∀ p : Place, p.IsOf t → ∀ e,
      e ∈ (Pattern.seq q r).ends p ↔ ∃ m ∈ q.ends p, e ∈ r.ends m := by
    intro p hp e
    rw [ends, mem_stepAll_iff hr.staysIn (hq.staysIn p hp)]
  refine ⟨fun p hp e he => ?_, fun p hp e => ?_⟩
  · obtain ⟨m, hm, he⟩ := (hmem p hp e).mp he
    exact hr.staysIn m (hq.staysIn p hp m hm) e he
  · rw [hmem p hp, ways, List.mem_flatMap]
    simp only [← hq.mem_iff p hp]
    refine exists_congr fun m => and_congr_right fun hm => ?_
    exact hr.mem_iff m (hq.staysIn p hp m hm) e

theorem Agrees.alt (hq : Agrees t q) (hr : Agrees t r) : Agrees t (.alt q r) := by
  have hof : ∀ p : Place, p.IsOf t → ∀ e ∈ q.ends p ++ r.ends p, e.IsOf t := by
    intro p hp e he
    exact (List.mem_append.mp he).elim (hq.staysIn p hp e) (hr.staysIn p hp e)
  have hmem : ∀ p : Place, p.IsOf t → ∀ e,
      e ∈ (Pattern.alt q r).ends p ↔ e ∈ q.ends p ++ r.ends p := by
    intro p hp e
    rw [ends, mem_newPlaces_iff (by simp) (hof p hp)]
    simp
  refine ⟨fun p hp e he => hof p hp e ((hmem p hp e).mp he), fun p hp e => ?_⟩
  rw [hmem p hp, ways, List.mem_append, List.mem_append, hq.mem_iff p hp, hr.mem_iff p hp]

theorem Agrees.rep (hq : Agrees t q) (lazy : Bool) (least : Nat) (most : Option Nat) :
    Agrees t (.rep lazy q least most) := by
  have hagain : ∀ (n : Nat) (m e : Place),
      e ∈ (if lazy then sparing else greedy) q.ways n m ↔ e ∈ greedy q.ways n m := by
    intro n m e
    cases lazy
    · exact Iff.rfl
    · exact mem_sparing_iff q.ways n
  have hfirst : ∀ p : Place, p.IsOf t → ∀ m,
      m ∈ iterate q.ends least [p] ↔ m ∈ repeated q.ends least p := by
    intro p hp m
    rw [mem_iterate_iff hq.staysIn (by simpa using hp)]
    simp
  have hof : ∀ p : Place, p.IsOf t → ∀ m ∈ iterate q.ends least [p], m.IsOf t :=
    fun p hp m hm => staysIn_repeated hq.staysIn least p hp m ((hfirst p hp m).mp hm)
  refine ⟨fun p hp e he => ?_, fun p hp e => ?_⟩
  · obtain ⟨m, hm, k, -, he⟩ := (mem_closure_iff hq.staysIn (hof p hp) _).mp he
    exact staysIn_repeated hq.staysIn k m (hof p hp m hm) e he
  · rw [ends, ways, mem_closure_iff hq.staysIn (hof p hp), List.mem_flatMap]
    simp only [hagain, hfirst p hp, ← mem_repeated_congr hq.staysIn hq.mem_iff least hp]
    refine exists_congr fun m => and_congr_right fun hm => ?_
    have hm := staysIn_repeated hq.staysIn least p hp m hm
    rw [mem_greedy_iff hq.staysIn_ways _ hm]
    exact exists_congr fun k => and_congr_right fun _ =>
      mem_repeated_congr hq.staysIn hq.mem_iff k hm

theorem Agrees.isEmpty_eq (hq : Agrees t q) {p : Place} (hp : p.IsOf t) :
    (q.ends p).isEmpty = (q.ways p).isEmpty := by
  rw [Bool.eq_iff_iff, List.isEmpty_iff, List.isEmpty_iff, List.eq_nil_iff_forall_not_mem,
    List.eq_nil_iff_forall_not_mem]
  exact forall_congr' fun e => not_congr (hq.mem_iff p hp e)

theorem Agrees.atomic (hq : Agrees t q) : Agrees t (.atomic q) := by
  have heq : ∀ p, (Pattern.atomic q).ends p = (Pattern.atomic q).ways p := by
    intro p
    rw [ends, ways, tryWith_eq, findSome?_some]
  refine ⟨fun p hp e he => ?_, fun p _ e => by rw [heq]⟩
  rw [heq, ways, Option.mem_toList] at he
  exact hq.staysIn_ways p hp e (List.mem_of_head? he)

theorem Agrees.ahead (hq : Agrees t q) (negated : Bool) : Agrees t (.ahead negated q) := by
  refine ⟨fun p hp e he => isOf_of_mem_ite hp he, fun p hp e => ?_⟩
  rw [ends, ways, hq.isEmpty_eq hp]

theorem Agrees.behind (hq : Agrees t q) (negated : Bool) (width : Nat) :
    Agrees t (.behind negated width q) := by
  refine ⟨fun p hp e he => isOf_of_mem_ite hp he, fun p hp e => ?_⟩
  have hback : ((p.back? width).toList.flatMap q.ends).isEmpty =
      ((p.back? width).toList.flatMap q.ways).isEmpty := by
    cases hb : p.back? width with
    | none => rfl
    | some b => simpa using hq.isEmpty_eq (isOf_back hp hb)
  rw [ends, ways, hback]

end

/-- **Both ways come to the same places.** -/
theorem agrees (t : List Char) (q : Pattern) : Agrees t q := by
  induction q with
  | empty =>
    refine agrees_of_eq rfl fun p hp e he => ?_
    rwa [List.mem_singleton.mp he]
  | set negated anyCase items => exact agrees_of_eq rfl (staysIn_step t _)
  | any lineFeed => exact agrees_of_eq rfl (staysIn_step t _)
  | anchor a => exact agrees_of_eq rfl fun p hp e he => isOf_of_mem_ite hp he
  | seq q r hq hr => exact hq.seq hr
  | alt q r hq hr => exact hq.alt hr
  | rep lazy q least most hq => exact hq.rep lazy least most
  | atomic q hq => exact hq.atomic
  | ahead negated q hq => exact hq.ahead negated
  | behind negated width q hq => exact hq.behind negated width

/-- **Searching a text can be done by trying** at each place. -/
theorem matchesIn_eq (q : Pattern) (cs : List Char) :
    q.matchesIn cs = (Place.onwards 0 [] cs).any fun p => !(q.ways p).isEmpty := by
  rw [matchesIn, Bool.eq_iff_iff, List.any_eq_true, List.any_eq_true]
  refine exists_congr fun p => and_congr_right fun hp => ?_
  rw [(agrees cs q).isEmpty_eq (isOf_onwards cs p hp)]

end Pattern
end SchemaScript
