import SchemaScript.Name.MemberName
import SchemaScript.Proofs.Name.TypeNames

/-!
# Names of enum members are identifiers in capitals

Whatever text a value is, the name made from it consists of words of capitals and digits
with single underscores between them, and the first word starts with a capital.  Putting a
number behind such a name gives such a name again, and among the numbers from two on there
is always one that is free, since only finitely many names are taken.

## Main definitions

* `IsMemberName` — the shape of the names.
* `IsFirstFree` — a numbered form is not taken, and all before it are.

## Main results

* `isMemberName_memberName` — the name made from a value has the shape.
* `isFirstFree_freshName` — the search for a free number ends with the first one.
-/

namespace SchemaScript
namespace Name

/-- The character can stand in a word of a member name. -/
def IsMemberChar (c : Char) : Prop := c.isUpper = true ∨ c.isDigit = true

instance (c : Char) : Decidable (IsMemberChar c) := inferInstanceAs (Decidable (_ ∨ _))

/-- A capital, any number of capitals and digits, and then any number of words of these,
none of them empty, each behind an underscore. -/
def IsMemberName (name : String) : Prop :=
  ∃ (c : Char) (cs : List Char) (ws : List (List Char)),
    name.toList = c :: cs ++ ws.flatMap ('_' :: ·) ∧ c.isUpper = true ∧
      (∀ d ∈ cs, IsMemberChar d) ∧ ∀ w ∈ ws, w ≠ [] ∧ ∀ d ∈ w, IsMemberChar d

/-! ### Words between underscores -/

theorem underscored_cons (w : List Char) (ws : List (List Char)) :
    underscored (w :: ws) = w ++ ws.flatMap ('_' :: ·) := by
  induction ws generalizing w with
  | nil => simp [underscored]
  | cons v ws ih =>
    rw [underscored, ih v, List.flatMap_cons, List.cons_append]
    simp

/-- Mapping the characters of joined words is joining the mapped words, if underscores
stay. -/
theorem map_underscored {f : Char → Char} (hf : f '_' = '_') (ws : List (List Char)) :
    (underscored ws).map f = underscored (ws.map (·.map f)) := by
  cases ws with
  | nil => rfl
  | cons w ws =>
    rw [List.map_cons, underscored_cons, underscored_cons, List.map_append, List.map_flatMap,
      List.flatMap_map]
    simp only [List.map_cons, hf]

theorem ne_nil_of_mem_onFirstWord {c : Char} {ws : List (List Char)} {w : List Char}
    (h : w ∈ onFirstWord c ws) (hws : ∀ v ∈ ws, v ≠ []) : w ≠ [] := by
  cases ws with
  | nil =>
    rw [List.mem_singleton.mp h]
    simp
  | cons v ws =>
    rcases List.mem_cons.mp h with rfl | h
    · simp
    · exact hws w (List.mem_cons_of_mem v h)

/-- No word is empty, whatever the rule. -/
theorem ne_nil_of_mem_words {joins : Joins} {cs w : List Char} (h : w ∈ words joins cs) :
    w ≠ [] := by
  induction cs generalizing w with
  | nil => exact absurd h List.not_mem_nil
  | cons c cs ih =>
    rw [words] at h
    split at h
    · split at h
      · exact ne_nil_of_mem_onFirstWord h fun v hv => ih hv
      · rcases List.mem_cons.mp h with rfl | h
        · simp
        · exact ih h
    · exact ih h

/-- Words hold letters and digits only. -/
theorem isAlphanum_of_mem_words {joins : Joins} {cs w : List Char} (h : w ∈ words joins cs)
    {c : Char} (hc : c ∈ w) : c.isAlphanum = true := by
  have hflat : c ∈ (words joins cs).flatten := List.mem_flatten_of_mem h hc
  rw [flatten_words, List.mem_filter] at hflat
  exact hflat.2

/-! ### Names made from values -/

/-- A letter or digit made small and then a capital is a capital or a digit. -/
theorem isMemberChar_toUpper {c : Char} (h : c.isAlphanum = true) :
    IsMemberChar c.toLower.toUpper := by
  rw [Char.isAlphanum, Bool.or_eq_true] at h
  rcases h with h | h
  · left
    have halpha : c.toLower.toUpper.isAlpha = true := by
      rw [Char.isAlpha_toUpper_eq_isAlpha, Char.isAlpha_toLower_eq_isAlpha, h]
    rw [Char.isAlpha, Char.isLower_toUpper_eq_false, Bool.or_false] at halpha
    exact halpha
  · obtain ⟨hu, hl⟩ := not_isAlpha_of_isDigit h
    right
    rw [Char.toLower_eq_of_not_isUpper (by simp [hu]), Char.toUpper_eq_of_not_isLower (by simp [hl])]
    exact h

/-- The words of a value in capitals. -/
def largeWords (cs : List Char) : List (List Char) :=
  (acronymWords cs).map fun w => w.map fun c => c.toLower.toUpper

theorem map_toUpper_snakeChars (cs : List Char) :
    (snakeChars cs).map Char.toUpper = underscored (largeWords cs) := by
  rw [snakeChars, map_underscored (by decide), List.map_map, largeWords]
  simp [Function.comp_def]

theorem of_mem_largeWords {cs w : List Char} (h : w ∈ largeWords cs) :
    w ≠ [] ∧ ∀ d ∈ w, IsMemberChar d := by
  obtain ⟨v, hv, rfl⟩ := List.mem_map.mp h
  refine ⟨?_, ?_⟩
  · simpa using ne_nil_of_mem_words hv
  · intro d hd
    obtain ⟨c, hc, rfl⟩ := List.mem_map.mp hd
    exact isMemberChar_toUpper (isAlphanum_of_mem_words hv hc)

/-- **The name made from a value has the shape of member names.** -/
theorem isMemberName_memberName (value : String) : IsMemberName (memberName value) := by
  rw [IsMemberName, memberName, String.toList_ofList, memberChars, map_toUpper_snakeChars]
  have hwords : ∀ w ∈ largeWords value.toList, w ≠ [] ∧ ∀ d ∈ w, IsMemberChar d :=
    fun _ hw => of_mem_largeWords hw
  cases hlarge : largeWords value.toList with
  | nil => exact ⟨'E', ['M', 'P', 'T', 'Y'], [], rfl, by decide, by simp [IsMemberChar], by simp⟩
  | cons w ws =>
    rw [hlarge] at hwords
    obtain ⟨hne, hw⟩ := hwords w List.mem_cons_self
    have hws : ∀ v ∈ ws, v ≠ [] ∧ ∀ d ∈ v, IsMemberChar d :=
      fun v hv => hwords v (List.mem_cons_of_mem w hv)
    rw [underscored_cons]
    cases w with
    | nil => exact absurd rfl hne
    | cons c cs =>
      rw [List.cons_append]
      dsimp only
      split
      · -- a first digit moves behind a word of its own
        refine ⟨'V', ['A', 'L', 'U', 'E'], (c :: cs) :: ws, rfl, by decide, by simp [IsMemberChar], ?_⟩
        exact List.forall_mem_cons.mpr ⟨⟨hne, hw⟩, hws⟩
      · next hdigit =>
        refine ⟨c, cs, ws, rfl, ?_, fun d hd => hw d (List.mem_cons_of_mem c hd), hws⟩
        exact (hw c List.mem_cons_self).resolve_right hdigit

/-! ### Numbered names -/

theorem toList_numbered (base : String) (n : Nat) :
    (numbered base n).toList = base.toList ++ '_' :: Nat.toDigits 10 n := by
  rw [numbered, String.toList_append, String.toList_append, Nat.toList_repr, List.append_assoc]
  rfl

/-- A number behind a member name makes a member name. -/
theorem IsMemberName.numbered {base : String} (h : IsMemberName base) (n : Nat) :
    IsMemberName (numbered base n) := by
  obtain ⟨c, cs, ws, hbase, hc, hcs, hws⟩ := h
  refine ⟨c, cs, ws ++ [Nat.toDigits 10 n], ?_, hc, hcs, ?_⟩
  · rw [toList_numbered, hbase, List.flatMap_append, List.flatMap_singleton, List.append_assoc]
  · intro w hw
    rcases List.mem_append.mp hw with hw | hw
    · exact hws w hw
    · rw [List.mem_singleton.mp hw]
      exact ⟨Nat.toDigits_ne_nil, fun d hd =>
        Or.inr (Nat.isDigit_of_mem_toDigits (by omega) (by omega) hd)⟩

theorem numbered_injective (base : String) : Function.Injective (numbered base) := by
  intro m n h
  rw [← String.toList_inj, toList_numbered, toList_numbered, List.append_cancel_left_eq,
    List.cons.injEq, ← Nat.toList_repr, ← Nat.toList_repr, String.toList_inj] at h
  exact Nat.repr_inj.mp h.2

theorem numbered_ne (base : String) (n : Nat) : numbered base n ≠ base := by
  intro h
  have hlength := congrArg (fun s : String => s.toList.length) h
  simp only [toList_numbered, List.length_append, List.length_cons] at hlength
  omega

/-- One more number than there are taken names is enough. -/
theorem exists_numbered_notMem (base : String) (taken : List String) (n : Nat) :
    ∃ m, n ≤ m ∧ m < n + (taken.length + 1) ∧ numbered base m ∉ taken := by
  by_contra hnone
  push Not at hnone
  let forms := (List.range (taken.length + 1)).map fun i => numbered base (n + i)
  have hnodup : forms.Nodup := by
    refine List.nodup_range.map ?_
    intro i j h
    have := numbered_injective base h
    omega
  have hsub : forms ⊆ taken := by
    intro name hname
    obtain ⟨i, hi, rfl⟩ := List.mem_map.mp hname
    rw [List.mem_range] at hi
    exact hnone (n + i) (by omega) (by omega)
  have hlength := (hnodup.subperm hsub).length_le
  simp only [forms, List.length_map, List.length_range] at hlength
  omega

/-- The name is the numbered form of the base that is the first one, from `n` on, not to be
taken. -/
def IsFirstFree (base : String) (taken : List String) (n : Nat) (name : String) : Prop :=
  ∃ m, n ≤ m ∧ name = numbered base m ∧ name ∉ taken ∧
    ∀ k, n ≤ k → k < m → numbered base k ∈ taken

/-- The search gives the first free form if there is one within its reach. -/
theorem isFirstFree_freshFrom {base : String} {taken : List String} {fuel n : Nat}
    (h : ∃ m, n ≤ m ∧ m < n + fuel ∧ numbered base m ∉ taken) :
    IsFirstFree base taken n (freshFrom base taken fuel n) := by
  induction fuel generalizing n with
  | zero =>
    obtain ⟨m, hn, hm, -⟩ := h
    omega
  | succ fuel ih =>
    rw [freshFrom]
    split
    · next htaken =>
      obtain ⟨m, hn, hm, hfree⟩ := h
      have hne : m ≠ n := by
        rintro rfl
        exact hfree htaken
      obtain ⟨k, hk, hname, hnew, hbefore⟩ := ih (n := n + 1) ⟨m, by omega, by omega, hfree⟩
      refine ⟨k, by omega, hname, hnew, ?_⟩
      intro i hi hik
      by_cases hin : i = n
      · rw [hin]
        exact htaken
      · exact hbefore i (by omega) hik
    · next hfree => exact ⟨n, le_rfl, rfl, hfree, by omega⟩

/-- **The search for a free number ends**, with the first one that is free. -/
theorem isFirstFree_freshName (base : String) (taken : List String) :
    IsFirstFree base taken 2 (freshName base taken) :=
  isFirstFree_freshFrom (exists_numbered_notMem base taken 2)

/-- What is free for some taken names is free for others with the same members. -/
theorem IsFirstFree.congr {base : String} {taken taken' : List String} {n : Nat} {name : String}
    (h : IsFirstFree base taken n name) (htaken : ∀ s, s ∈ taken ↔ s ∈ taken') :
    IsFirstFree base taken' n name := by
  obtain ⟨m, hm, hname, hnew, hbefore⟩ := h
  refine ⟨m, hm, hname, ?_, ?_⟩
  · rwa [← htaken]
  · intro k hk hkm
    rw [← htaken]
    exact hbefore k hk hkm

end Name
end SchemaScript
