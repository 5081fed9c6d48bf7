import Mathlib
import SchemaScript.Text.Upper

/-!
# Capital forms are capital

The first character of a capital form is its own capital form, so capitalising the
start of a text twice is capitalising it once.  This is a fact about the tables: no
code that they lead to is one that they move.

## Main definitions

* `movedCodes`, `reachedCodes` — what the tables move, and what they move it to.
* `spans` — codes as the bits of a number, so that many are compared at once.

## Main results

* `capitals_of_head` — the first character of a capital form is its own.
* `eq_dot_of_mem_capitals` — capital forms bring no dots.
-/

namespace SchemaScript
namespace Text

/-! ### The tables -/

/-- The codes that the small ASCII letters and the tables' characters have. -/
def movedCodes : List Stride :=
  ⟨97, 122, 1⟩ :: singleCapitals.map (·.1) ++ multipleCapitals.map fun e => ⟨e.1, e.1, 2⟩

/-- The codes that a stride is moved to; a single code counts as alternating. -/
def imageOf (e : Stride × Nat) : Stride :=
  ⟨e.2, e.2 + (e.1.last - e.1.first), if e.1.first = e.1.last then 2 else e.1.step⟩

/-- The codes that capital forms outside of ASCII start with. -/
def reachedCodes : List Stride :=
  singleCapitals.map imageOf ++ multipleCapitals.map fun e => ⟨e.2.headD 0, e.2.headD 0, 2⟩

/-! ### Codes as bits -/

/-- The codes between the ends of a stride, as the bits of a number. -/
def Stride.span (s : Stride) : Nat := (2 ^ (s.last + 1 - s.first) - 1) <<< s.first

/-- The same for the codes of one parity; an alternating stride has only one. -/
def Stride.spanOf (parity : Nat) (s : Stride) : Nat :=
  if s.step = 2 ∧ s.first % 2 ≠ parity then 0 else s.span

/-- The codes of one parity between the ends of strides. -/
def spans (parity : Nat) (ts : List Stride) : Nat :=
  ts.foldr (fun t bits => t.spanOf parity ||| bits) 0

theorem Stride.testBit_spanOf {s : Stride} {n : Nat} (h : s.has n = true) :
    (s.spanOf (n % 2)).testBit n = true := by
  simp only [Stride.has, Bool.and_eq_true, decide_eq_true_eq, beq_iff_eq] at h
  obtain ⟨⟨hfirst, hlast⟩, hstep⟩ := h
  have hparity : ¬ (s.step = 2 ∧ s.first % 2 ≠ n % 2) := by
    rintro ⟨h₂, hne⟩
    rw [h₂] at hstep
    omega
  rw [Stride.spanOf, if_neg hparity, Stride.span, Nat.testBit_shiftLeft,
    Nat.testBit_two_pow_sub_one, Bool.and_eq_true, decide_eq_true_eq, decide_eq_true_eq]
  omega

theorem testBit_spans {ts : List Stride} {t : Stride} (ht : t ∈ ts) {n : Nat}
    (h : t.has n = true) : (spans (n % 2) ts).testBit n = true := by
  induction ts with
  | nil => exact absurd ht List.not_mem_nil
  | cons s ts ih =>
    rw [spans, List.foldr_cons, Nat.testBit_or, Bool.or_eq_true]
    rcases List.mem_cons.mp ht with rfl | ht
    · exact Or.inl (Stride.testBit_spanOf h)
    · exact Or.inr (ih ht)

/-- What the tables move and what they lead to have no code in common. -/
theorem spans_disjoint :
    ∀ parity < 2, spans parity reachedCodes &&& spans parity movedCodes = 0 := by
  decide +kernel

/-- The tables do not move a code that they lead to. -/
theorem not_has_of_reached {s t : Stride} (hs : s ∈ reachedCodes) (ht : t ∈ movedCodes) {n : Nat}
    (h : s.has n = true) : t.has n = false := by
  rw [Bool.eq_false_iff]
  intro hn
  have hboth : (spans (n % 2) reachedCodes &&& spans (n % 2) movedCodes).testBit n = true := by
    rw [Nat.testBit_and, testBit_spans hs h, testBit_spans ht hn, Bool.and_self]
  rw [spans_disjoint _ (Nat.mod_lt n Nat.two_pos), Nat.zero_testBit] at hboth
  cases hboth

/-! ### Fixed characters -/

theorem shifted_eq_self {n : Nat} {table : List (Stride × Nat)}
    (h : ∀ e ∈ table, e.1.has n = false) : shifted n table = n := by
  induction table with
  | nil => rfl
  | cons e table ih =>
    rw [shifted, h e List.mem_cons_self, if_neg Bool.false_ne_true]
    exact ih fun d hd => h d (List.mem_cons_of_mem e hd)

/-- A code is left alone, or moved with a stride of the table that has it. -/
theorem shifted_eq (n : Nat) (table : List (Stride × Nat)) :
    shifted n table = n ∧ (∀ e ∈ table, e.1.has n = false) ∨
      ∃ e ∈ table, e.1.has n = true ∧ shifted n table = e.2 + (n - e.1.first) := by
  induction table with
  | nil => exact Or.inl ⟨rfl, by simp⟩
  | cons e table ih =>
    rw [shifted]
    by_cases h : e.1.has n = true
    · exact Or.inr ⟨e, List.mem_cons_self, h, if_pos h⟩
    · rw [if_neg h]
      rw [Bool.not_eq_true] at h
      rcases ih with ⟨hs, hn⟩ | ⟨e', he', h', hs⟩
      · exact Or.inl ⟨hs, List.forall_mem_cons.mpr ⟨h, hn⟩⟩
      · exact Or.inr ⟨e', List.mem_cons_of_mem _ he', h', hs⟩

/-- A character that the tables do not move is its own capital form. -/
theorem capitals_eq_self {d : Char} (h : ∀ t ∈ movedCodes, t.has d.toNat = false) :
    capitals d = [d] := by
  have hsmall : Stride.has ⟨97, 122, 1⟩ d.toNat = false := h _ List.mem_cons_self
  have hsingle : ∀ e ∈ singleCapitals, e.1.has d.toNat = false := fun e he =>
    h e.1 (List.mem_append_left _ (List.mem_cons_of_mem _ (List.mem_map_of_mem he)))
  have hmultiple : ∀ e ∈ multipleCapitals, Stride.has ⟨e.1, e.1, 2⟩ d.toNat = false := fun e he =>
    h _ (List.mem_append_right _ (List.mem_map_of_mem he))
  by_cases hd : d.val < 128
  · -- the small ASCII letters are the first stride
    rw [capitals_of_lt hd, Char.toUpper_eq_of_not_isLower]
    intro hl
    simp only [Char.isLower, Bool.and_eq_true, decide_eq_true_eq, ge_iff_le,
      UInt32.le_iff_toNat_le] at hl
    simp only [Stride.has, Nat.mod_one, Bool.and_eq_false_iff, decide_eq_false_iff_not,
      beq_self_eq_true, Bool.true_eq_false, or_false] at hsmall
    exact hsmall.elim (· hl.1) (· hl.2)
  · have hlookup : multipleCapitals.lookup d.toNat = none := by
      rw [List.lookup_eq_none_iff]
      intro e he
      rw [bne_iff_ne]
      intro heq
      have hno := hmultiple e he
      rw [heq] at hno
      simp [Stride.has] at hno
    simp only [capitals, hd, if_false, hlookup, shifted_eq_self hsingle, Char.ofNat_toNat]

theorem toNat_ofNat (n : Nat) : (Char.ofNat n).toNat = n ∨ (Char.ofNat n).toNat = 0 := by
  by_cases h : n.isValidChar
  · left
    rw [Char.ofNat, dif_pos h]
    simp [Char.ofNatAux, Char.toNat]
  · right
    rw [Char.ofNat, dif_neg h]
    rfl

/-- Reached codes are the codes of characters that are their own capital form. -/
theorem capitals_of_reached {s : Stride} (hs : s ∈ reachedCodes) {n : Nat}
    (hn : s.has n = true) : capitals (Char.ofNat n) = [Char.ofNat n] := by
  rcases toNat_ofNat n with h | h
  · refine capitals_eq_self ?_
    intro t ht
    rw [h]
    exact not_has_of_reached hs ht hn
  · -- the code is none of a character
    have hzero : Char.ofNat n = Char.ofNat 0 := by
      rw [← Char.ofNat_toNat (Char.ofNat n), h]
    rw [hzero]
    rfl

/-! ### Starts of capital forms -/

theorem mem_of_lookup {n : Nat} {codes : List Nat} {table : List (Nat × List Nat)}
    (h : table.lookup n = some codes) : (n, codes) ∈ table := by
  obtain ⟨es, es', rfl, -⟩ := List.lookup_eq_some_iff.mp h
  exact List.mem_append_right es List.mem_cons_self

theorem multipleCapitals_ne_nil : ∀ e ∈ multipleCapitals, e.2 ≠ [] := by
  decide

theorem capitals_ne_nil (c : Char) : capitals c ≠ [] := by
  unfold capitals
  split
  · simp
  · split
    · next codes h => simpa using multipleCapitals_ne_nil _ (mem_of_lookup h)
    · simp

theorem isUpper_toUpper_of_isLower {c : Char} (h : c.isLower = true) :
    c.toUpper.isUpper = true := by
  rw [Char.isUpper_toUpper_eq_isAlpha, Char.isAlpha, h, Bool.or_true]

/-- An ASCII character has an ASCII capital. -/
theorem toUpper_lt {c : Char} (h : c.val < 128) : c.toUpper.val < 128 := by
  by_cases hl : c.isLower = true
  · have hu := isUpper_toUpper_of_isLower hl
    simp only [Char.isUpper, decide_eq_true_eq, ge_iff_le] at hu
    exact UInt32.lt_of_le_of_lt hu.2 (by decide)
  · rwa [Char.toUpper_eq_of_not_isLower hl]

/-- **The first character of a capital form is its own capital form.** -/
theorem capitals_of_head {c d : Char} (h : (capitals c).head? = some d) : capitals d = [d] := by
  by_cases hc : c.val < 128
  · rw [capitals_of_lt hc, List.head?_cons, Option.some.injEq] at h
    have hd : d.val < 128 := h ▸ toUpper_lt hc
    rw [capitals_of_lt hd, ← h, Char.toUpper_toUpper_eq_toUpper]
  · cases hl : multipleCapitals.lookup c.toNat with
    | some codes =>
      simp only [capitals, hc, if_false, hl, List.head?_map, Option.map_eq_some_iff] at h
      obtain ⟨n, hn, rfl⟩ := h
      refine capitals_of_reached
        (List.mem_append_right _ (List.mem_map_of_mem (mem_of_lookup hl))) ?_
      simp [Stride.has, hn]
    | none =>
      simp only [capitals, hc, if_false, hl, List.head?_cons, Option.some.injEq] at h
      rcases shifted_eq c.toNat singleCapitals with ⟨hs, hn⟩ | ⟨e, he, hhas, hs⟩
      · rw [hs, Char.ofNat_toNat] at h
        rw [← h]
        simp only [capitals, hc, if_false, hl, hs, Char.ofNat_toNat]
      · rw [hs] at h
        rw [← h]
        refine capitals_of_reached (List.mem_append_left _ (List.mem_map_of_mem he)) ?_
        simp only [Stride.has, Bool.and_eq_true, decide_eq_true_eq, beq_iff_eq] at hhas
        simp only [imageOf, Stride.has, Bool.and_eq_true, beq_iff_eq, Nat.add_sub_cancel_left]
        -- the code is as far from the start of the image as it was from the start of the stride
        refine ⟨⟨decide_eq_true (by omega), decide_eq_true (by omega)⟩, ?_⟩
        split
        · omega
        · exact hhas.2

/-! ### Dots -/

theorem eq_dot_of_toUpper {c : Char} (h : c.toUpper = '.') : c = '.' := by
  by_cases hl : c.isLower = true
  · -- a small letter has a letter as its capital
    have hu := isUpper_toUpper_of_isLower hl
    rw [h] at hu
    exact absurd hu (by decide)
  · rwa [Char.toUpper_eq_of_not_isLower hl] at h

/-- The tables lead to no dot. -/
theorem dot_notMem_tables :
    (∀ e ∈ singleCapitals, '.'.toNat < e.2) ∧
      ∀ e ∈ multipleCapitals, '.' ∉ e.2.map Char.ofNat := by
  decide +kernel

/-- **Only a dot has a dot in its capital form.** -/
theorem eq_dot_of_mem_capitals {c : Char} (h : '.' ∈ capitals c) : c = '.' := by
  by_cases hc : c.val < 128
  · rw [capitals_of_lt hc, List.mem_singleton] at h
    exact eq_dot_of_toUpper h.symm
  · cases hl : multipleCapitals.lookup c.toNat with
    | some codes =>
      simp only [capitals, hc, if_false, hl] at h
      exact absurd h (dot_notMem_tables.2 _ (mem_of_lookup hl))
    | none =>
      simp only [capitals, hc, if_false, hl, List.mem_singleton] at h
      rcases shifted_eq c.toNat singleCapitals with ⟨hs, -⟩ | ⟨e, he, -, hs⟩
      · rw [hs, Char.ofNat_toNat] at h
        exact h.symm
      · -- the code of the capital is beyond that of the dot, or it is none of a character
        have hlt := dot_notMem_tables.1 e he
        rw [hs] at h
        have hcode : '.'.toNat = (Char.ofNat (e.2 + (c.toNat - e.1.first))).toNat := by rw [← h]
        rcases toNat_ofNat (e.2 + (c.toNat - e.1.first)) with hn | hn <;> rw [hn] at hcode
        · omega
        · exact absurd hcode (by decide)

end Text
end SchemaScript
