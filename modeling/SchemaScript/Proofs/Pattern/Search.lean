import Mathlib.Data.List.Infix
import SchemaScript.Proofs.Pattern.Ways

/-!
# Searching from left to right

All matches of a pattern in a text are found from left to right: at each place the first way to
match counts, and the search goes on behind the match, or behind the character there if nothing
matches.  What a pattern finds where it repeats a set of characters is a whole run of these, and
what is given back of the run comes after it.

## Main definitions

* `findAll` — what a search finds in a text from a place on.
* `Pattern.first?`, `Pattern.findTexts` — the first way to match, and the texts matched.
* `Pattern.firstPair?` — the first way to match two patterns, with the place between them.
* `Place.past`, `Place.upTo` — the place behind a text, and the text before a place.

## Main results

* `ways_rep_zero_run`, `ways_rep_one_run` — repeating a set of characters, at a run of these.
-/

namespace SchemaScript

/-! ### Searching -/

/-- What a search finds from a place on.  At each place it is asked what there is, and where that
ends; what takes no character is passed over. -/
def findAll {α : Type} (find : Place → Option (α × Place)) : Place → List α
  | ⟨_, _, []⟩ => []
  | ⟨n, before, c :: cs⟩ =>
    match _ : (find ⟨n, before, c :: cs⟩).filter fun m => m.2.after.length < cs.length + 1 with
    | some m => m.1 :: findAll find m.2
    | none => findAll find ⟨n + 1, c :: before, cs⟩
termination_by p => p.after.length
decreasing_by
  · next h => simpa using (Option.filter_eq_some_iff.mp h).2
  · exact Nat.lt_succ_self _

section

variable {α : Type} {find : Place → Option (α × Place)} {p : Place}

theorem findAll_of_end (hp : p.after = []) : findAll find p = [] := by
  obtain ⟨n, before, cs⟩ := p
  obtain rfl : cs = [] := hp
  rw [findAll]

/-- The search goes on behind what is found. -/
theorem findAll_of_eq_some {a : α} {e : Place} (h : find p = some (a, e))
    (hlt : e.after.length < p.after.length) : findAll find p = a :: findAll find e := by
  obtain ⟨n, before, _ | ⟨c, cs⟩⟩ := p
  · exact absurd hlt (Nat.not_lt_zero _)
  · have hfound : (find ⟨n, before, c :: cs⟩).filter
        (fun m => m.2.after.length < cs.length + 1) = some (a, e) :=
      Option.filter_eq_some_iff.mpr ⟨h, by simpa using hlt⟩
    rw [findAll]
    split
    · next m hm =>
      obtain rfl := Option.some.inj (hfound.symm.trans hm)
      rfl
    · next hm =>
      rw [hfound] at hm
      cases hm

/-- Where nothing is found the search goes on behind the next character. -/
theorem findAll_of_eq_none {c : Char} {cs : List Char} (hp : p.after = c :: cs)
    (h : find p = none) : findAll find p = findAll find ⟨p.position + 1, c :: p.before, cs⟩ := by
  obtain ⟨n, before, ds⟩ := p
  obtain rfl : ds = c :: cs := hp
  rw [findAll]
  split
  · next m hm =>
    rw [h] at hm
    cases hm
  · rfl

end

namespace Place

/-- The place behind a text that comes next. -/
def past : Place → List Char → Place
  | p, [] => p
  | p, c :: w => past ⟨p.position + 1, c :: p.before, p.after.drop 1⟩ w

/-- The text from a place up to a later one. -/
def upTo (p e : Place) : List Char := p.after.take (e.position - p.position)

@[simp] theorem past_nil (p : Place) : p.past [] = p := rfl

theorem past_cons (p : Place) (c : Char) (w : List Char) :
    p.past (c :: w) = past ⟨p.position + 1, c :: p.before, p.after.drop 1⟩ w := rfl

@[simp] theorem position_past (p : Place) (w : List Char) :
    (p.past w).position = p.position + w.length := by
  induction w generalizing p with
  | nil => rfl
  | cons c w ih => rw [past_cons, ih, List.length_cons, Nat.add_assoc, Nat.add_comm 1]

@[simp] theorem after_past (p : Place) (w : List Char) :
    (p.past w).after = p.after.drop w.length := by
  induction w generalizing p with
  | nil => rfl
  | cons c w ih => rw [past_cons, ih, List.drop_drop, List.length_cons, Nat.add_comm]

theorem past_append (p : Place) (v w : List Char) : p.past (v ++ w) = (p.past v).past w := by
  induction v generalizing p with
  | nil => rfl
  | cons c v ih => rw [List.cons_append, past_cons, past_cons, ih]

theorem upTo_past {p : Place} {w rest : List Char} (h : p.after = w ++ rest) :
    p.upTo (p.past w) = w := by
  simp [upTo, h]

/-- One step is taken if the next character passes the test. -/
theorem step_of_after {test : Char → Bool} {p : Place} {c : Char} {cs : List Char}
    (h : p.after = c :: cs) : p.step test = if test c then [p.past [c]] else [] := by
  simp [step, h, past_cons]

theorem step_of_end {test : Char → Bool} {p : Place} (h : p.after = []) : p.step test = [] := by
  simp [step, h]

/-- No step is taken before anything that does not pass the test. -/
theorem step_eq_nil {test : Char → Bool} {p : Place} (h : ∀ c ∈ p.after.head?, test c = false) :
    p.step test = [] := by
  cases hp : p.after with
  | nil => exact step_of_end hp
  | cons c cs =>
    rw [hp] at h
    rw [step_of_after hp, h c rfl, if_neg Bool.false_ne_true]

end Place

/-- **Repeating a step over a run of characters** goes on to its end, and then gives back one
character after the other. -/
theorem greedy_run {test : Char → Bool} {p : Place} {w rest : List Char} (hp : p.after = w ++ rest)
    (hw : ∀ c ∈ w, test c = true) (hrest : ∀ c ∈ rest.head?, test c = false) {n : Nat}
    (hn : w.length ≤ n) : greedy (Place.step test) n p = w.inits.reverse.map p.past := by
  induction w generalizing p n with
  | nil =>
    have hstep : p.step test = [] := Place.step_eq_nil (by simpa [hp] using hrest)
    cases n <;> simp [greedy, hstep]
  | cons c w ih =>
    obtain ⟨hc, hw⟩ := List.forall_mem_cons.mp hw
    cases n with
    | zero => exact absurd hn (Nat.not_succ_le_zero _)
    | succ n =>
      have hafter : (p.past [c]).after = w ++ rest := by simp [hp]
      have hadvances : (p.past [c]).position ≠ p.position := by simp
      rw [greedy, Place.step_of_after hp, if_pos hc, List.flatMap_singleton, if_neg hadvances,
        ih hafter hw (Nat.le_of_succ_le_succ hn), List.inits_cons, List.reverse_cons,
        List.map_append, ← List.map_reverse, List.map_map]
      rfl

theorem getLast?_inits {α : Type} (w : List α) : w.inits.getLast? = some w := by
  induction w with
  | nil => rfl
  | cons a w ih => rw [List.inits_cons, List.getLast?_cons, List.getLast?_map, ih]; rfl

section

variable {α β : Type} {f : List α → Option β}

/-- Of the starts of a run the whole run is tried first. -/
theorem findSome?_inits_of_eq_some {w : List α} {b : β} (h : f w = some b) :
    w.inits.reverse.findSome? f = some b := by
  obtain ⟨vs, hvs⟩ := List.head?_eq_some_iff.mp (List.head?_reverse.trans (getLast?_inits w))
  rw [hvs, List.findSome?_cons, h]

/-- If that fails, its last character is given back. -/
theorem findSome?_inits_concat {v : List α} {a : α} (h : f (v ++ [a]) = none) :
    (v ++ [a]).inits.reverse.findSome? f = v.inits.reverse.findSome? f := by
  have hinits : (v ++ [a]).inits.reverse = (v ++ [a]) :: v.inits.reverse := by
    simp [List.inits_append]
  rw [hinits, List.findSome?_cons, h]

end

namespace Pattern

/-- The first way to match at a place, as the place where the match ends. -/
def first? (q : Pattern) (p : Place) : Option Place := (q.ways p).head?

/-- The first way to match two patterns one behind the other, as the places where these end. -/
def firstPair? (q r : Pattern) (p : Place) : Option (Place × Place) :=
  (q.ways p).findSome? fun e => (r.first? e).map fun e' => (e, e')

/-- The text that a pattern matches at a place, with the place behind it. -/
def textAt? (q : Pattern) (p : Place) : Option (List Char × Place) :=
  (q.first? p).map fun e => (p.upTo e, e)

/-- The texts that a pattern matches, from left to right. -/
def findTexts (q : Pattern) (cs : List Char) : List (List Char) := findAll q.textAt? ⟨0, [], cs⟩

/-! ### First ways -/

section

variable (q r : Pattern) (p : Place)

theorem first?_alt : (alt q r).first? p = (q.first? p).or (r.first? p) := by
  rw [first?, ways, List.head?_append]
  rfl

theorem first?_seq : (seq q r).first? p = (q.ways p).findSome? r.first? := by
  rw [first?, ways, List.head?_flatMap]
  rfl

theorem map_snd_firstPair? : (q.firstPair? r p).map Prod.snd = (seq q r).first? p := by
  rw [first?_seq, firstPair?, List.map_findSome?]
  congr 1
  funext e
  rw [Function.comp_apply]
  cases r.first? e <;> rfl

@[simp] theorem ways_seq_empty : (seq q empty).ways p = q.ways p := by
  simp [ways]

@[simp] theorem first?_seq_empty : (seq q empty).first? p = q.first? p := by
  rw [first?, ways_seq_empty, first?]

/-- What may be there or not is tried to be there first. -/
theorem ways_optional : (rep false q 0 (some 1)).ways p = q.ways p ++ [p] := by
  simp [ways, repeated, greedy, Place.more]

theorem first?_optional :
    (seq (rep false q 0 (some 1)) r).first? p = ((seq q r).first? p).or (r.first? p) := by
  rw [first?_seq, ways_optional, List.findSome?_append, ← first?_seq, List.findSome?_singleton]

/-- What must be there once is there, and then as often as it goes. -/
theorem ways_rep_one :
    (rep false q 1 none).ways p = (q.ways p).flatMap (greedy q.ways (p.after.length + 1)) := by
  have hone : repeated q.ways 1 p = q.ways p := by simp [repeated]
  rw [← hone, ways]
  rfl

end

/-- There is no match where the first part has none. -/
theorem first?_seq_eq_none {q : Pattern} {p : Place} (h : q.first? p = none) (r : Pattern) :
    (seq q r).first? p = none := by
  rw [first?, List.head?_eq_none_iff] at h
  rw [first?_seq, h, List.findSome?_nil]

theorem firstPair?_eq_none {q : Pattern} {p : Place} (h : q.first? p = none) (r : Pattern) :
    q.firstPair? r p = none := by
  rw [first?, List.head?_eq_none_iff] at h
  rw [firstPair?, h, List.findSome?_nil]

/-! ### Runs -/

section

variable {q : Pattern} {test : Char → Bool} (hq : q.ways = Place.step test) {p : Place}

include hq

theorem first?_seq_of_after (r : Pattern) {c : Char} {cs : List Char} (hp : p.after = c :: cs) :
    (seq q r).first? p = if test c then r.first? (p.past [c]) else none := by
  rw [first?, ways, hq, Place.step_of_after hp]
  split
  · rw [List.flatMap_singleton, first?]
  · rfl

/-- There is no match before a character that is none of the set. -/
theorem first?_rep_one_eq_none {c : Char} {cs : List Char} (hp : p.after = c :: cs)
    (hc : test c = false) : (rep false q 1 none).first? p = none := by
  rw [first?, ways_rep_one, hq, Place.step_of_after hp, hc]
  rfl

variable {w rest : List Char} (hw : ∀ c ∈ w, test c = true)
  (hrest : ∀ c ∈ rest.head?, test c = false)

include hw hrest

/-- **Repeating a set of characters** takes a run of them, and gives one after the other back. -/
theorem ways_rep_zero_run (hp : p.after = w ++ rest) :
    (rep false q 0 none).ways p = w.inits.reverse.map p.past := by
  have hlength : w.length ≤ p.after.length + 1 := by
    rw [hp, List.length_append]
    omega
  rw [← greedy_run hp hw hrest hlength, ways, hq]
  exact List.append_nil _

/-- If there must be one of the characters, the first one is not given back. -/
theorem ways_rep_one_run {c : Char} (hc : test c = true) (hp : p.after = c :: (w ++ rest)) :
    (rep false q 1 none).ways p = w.inits.reverse.map fun v => p.past (c :: v) := by
  have hafter : (p.past [c]).after = w ++ rest := by simp [hp]
  have hlength : w.length ≤ p.after.length + 1 := by
    rw [hp, List.length_cons, List.length_append]
    omega
  rw [ways_rep_one, hq, Place.step_of_after hp, if_pos hc, List.flatMap_singleton,
    greedy_run hafter hw hrest hlength]
  rfl

theorem first?_rep_zero_run (hp : p.after = w ++ rest) :
    (rep false q 0 none).first? p = some (p.past w) := by
  rw [first?, ways_rep_zero_run hq hw hrest hp, List.head?_map, List.head?_reverse,
    getLast?_inits, Option.map_some]

theorem first?_rep_one_run {c : Char} (hc : test c = true) (hp : p.after = c :: (w ++ rest)) :
    (rep false q 1 none).first? p = some (p.past (c :: w)) := by
  rw [first?, ways_rep_one_run hq hw hrest hc hp, List.head?_map, List.head?_reverse,
    getLast?_inits, Option.map_some]

end

end Pattern
end SchemaScript
