import SchemaScript.Proofs.Name.WordPatterns

/-!
# Acronyms as matches

The acronyms of a text are the runs of capitals that a pattern finds with one more character behind
them, which no small letter may be.  Each is written over in place while the search goes on in the
text as it was; what comes out is the text with its acronyms folded.

## Main definitions

* `acronyms` — the acronyms a search finds, with the positions where they start.
* `writeOver`, `writeAll` — a piece written over a text, and all acronyms in turn.

## Main results

* `parse?_acronymRun` — the text that is read as the pattern for acronyms.
* `acronymAt_cases` — what is found at one place, and what folding makes of it.
* `writeAll_acronyms` — writing over all acronyms folds them.
-/

namespace SchemaScript
namespace Name

/-! ### Searching for acronyms -/

/-- A run of capitals. -/
def acronymRun : Pattern := .seq (.rep false capitalLetter 1 none) .empty

/-- Behind an acronym: something else than a small letter, or the end. -/
def acronymEnd : Pattern :=
  .seq (.alt (.seq (.set true false [.range 'a' 'z']) .empty) (.seq (.anchor .lastLineEnd) .empty))
    .empty

/-- The text of the pattern for acronyms. -/
theorem parse?_acronymRun :
    Pattern.parse? "([A-Z]+)(?:[^a-z]|$)" = some (.seq acronymRun acronymEnd) := by
  rfl

/-- The acronym at a place, with the place behind the match. -/
def acronymAt (p : Place) : Option ((Nat × List Char) × Place) :=
  (acronymRun.firstPair? acronymEnd p).map fun m => ((p.position, p.upTo m.1), m.2)

/-- The acronyms of a text from left to right, each with the position where it starts. -/
def acronyms (cs : List Char) : List (Nat × List Char) := findAll acronymAt ⟨0, [], cs⟩

/-! ### Writing over -/

/-- A piece written over a text from a position on. -/
def writeOver (start : Nat) (piece cs : List Char) : List Char :=
  cs.take start ++ piece ++ cs.drop (start + piece.length)

/-- An acronym like a word: its first letter kept and the others small. -/
def likeWord : List Char → List Char
  | [] => []
  | c :: w => c :: w.map Char.toLower

@[simp] theorem length_likeWord (w : List Char) : (likeWord w).length = w.length := by
  cases w <;> simp [likeWord]

/-- The text with each acronym that is given written like a word. -/
def writeAll (found : List (Nat × List Char)) (cs : List Char) : List Char :=
  found.foldl (fun result m => writeOver m.1 (likeWord m.2) result) cs

theorem writeOver_append (start w rest : List Char) :
    writeOver start.length (likeWord w) (start ++ (w ++ rest)) = start ++ (likeWord w ++ rest) := by
  rw [writeOver, List.take_left, length_likeWord, ← List.append_assoc start w rest,
    ← List.length_append, List.drop_left, List.append_assoc]

/-! ### One match -/

/-- What the pattern asks for behind an acronym: the next character is taken if it is no small
letter, and at the end there is none to take. -/
theorem first?_acronymEnd (p : Place) :
    acronymEnd.first? p = if startsSmall p.after then none else some (p.past (p.after.take 1)) := by
  rw [acronymEnd, Pattern.first?_seq_empty, Pattern.first?_alt, Pattern.first?_seq_empty,
    Pattern.first?_seq_empty, Pattern.first?, Pattern.first?, Pattern.ways, Pattern.ways]
  cases hp : p.after with
  | nil =>
    rw [Place.step_of_end hp]
    simp [Anchor.holds, hp, startsSmall]
  | cons c cs =>
    have hset : ([SetItem.range 'a' 'z'].any (·.has false c)) = c.isLower := by
      simp [SetItem.has, Char.isLower, Char.le_def]
    rw [Place.step_of_after hp, startsSmall, hset]
    cases hc : c.isLower with
    | false => rfl
    | true =>
      -- a small letter is no line feed, so this is not the end of the last line
      have hfeed : c ≠ '\n' := by
        rintro rfl
        exact absurd hc (by decide)
      simp [Anchor.holds, hp, hfeed]

theorem firstPair?_acronymRun (r : Pattern) (p : Place) :
    acronymRun.firstPair? r p = (Pattern.rep false capitalLetter 1 none).firstPair? r p := by
  rw [acronymRun, Pattern.firstPair?, Pattern.firstPair?, Pattern.ways_seq_empty]

/-- Of the capitals behind the first one only the last may be kept. -/
theorem foldRun_concat (smallFollows : Bool) (v : List Char) (d : Char) :
    foldRun smallFollows (v ++ [d]) =
      v.map Char.toLower ++ [if smallFollows then d else d.toLower] := by
  induction v with
  | nil => cases smallFollows <;> rfl
  | cons c v ih =>
    rw [List.cons_append, foldRun, ih, List.map_cons, List.cons_append]
    simp

theorem foldRun_false (w : List Char) : foldRun false w = w.map Char.toLower := by
  rcases List.eq_nil_or_concat w with rfl | ⟨v, d, rfl⟩
  · rfl
  · rw [List.concat_eq_append, foldRun_concat, List.map_append]
    rfl

/-- A run of capitals, folded as a whole. -/
theorem foldAcronyms_run {c : Char} {w rest : List Char} (hc : c.isUpper = true)
    (hw : ∀ d ∈ w, d.isUpper = true) (hrest : ∀ d ∈ rest.head?, d.isUpper = false) :
    foldAcronyms (c :: (w ++ rest)) = c :: (foldRun (startsSmall rest) w ++ foldAcronyms rest) := by
  rw [foldAcronyms_eq, foldFrom, hc, foldFrom_run hw hrest, foldAcronyms_eq]
  rfl

theorem foldAcronyms_cons {c : Char} (hc : c.isUpper = false) (cs : List Char) :
    foldAcronyms (c :: cs) = c :: foldAcronyms cs := by
  rw [foldAcronyms, hc, if_neg Bool.false_ne_true]

/-- **At one place** there is no acronym and folding keeps the character, or there is one, which
folding writes like a word, with what is taken behind it kept. -/
theorem acronymAt_cases {p : Place} {c : Char} {cs : List Char} (hp : p.after = c :: cs) :
    (acronymAt p = none ∧ foldAcronyms (c :: cs) = c :: foldAcronyms cs) ∨
    ∃ w behind rest, c :: cs = w ++ (behind ++ rest) ∧ w ≠ [] ∧
      acronymAt p = some ((p.position, w), p.past (w ++ behind)) ∧
      foldAcronyms (c :: cs) = likeWord w ++ (behind ++ foldAcronyms rest) := by
  cases hc : c.isUpper with
  | false =>
    refine Or.inl ⟨?_, foldAcronyms_cons hc cs⟩
    have hnone := Pattern.first?_rep_one_eq_none ways_capitalLetter hp hc
    rw [acronymAt, firstPair?_acronymRun, Pattern.firstPair?_eq_none hnone, Option.map_none]
  | true =>
    obtain ⟨w, rest, rfl, hw, hrest⟩ := exists_run Char.isUpper cs
    have hrun : ∀ d ∈ c :: w, d.isUpper = true := List.forall_mem_cons.mpr ⟨hc, hw⟩
    rw [acronymAt, firstPair?_acronymRun, firstPair?_capitals first?_acronymEnd hp hrun hrest,
      foldAcronyms_run hc hw hrest]
    cases hsmall : startsSmall rest with
    | false =>
      -- the whole run, and the next character, which is no capital either
      refine Or.inr ⟨c :: w, rest.take 1, rest.drop 1, ?_, by simp, ?_, ?_⟩
      · rw [List.take_append_drop, List.cons_append]
      · have hafter : (p.past (c :: w)).after = rest := by simp [hp]
        rw [if_neg Bool.false_ne_true, Option.map_some, Place.past_append, hafter,
          Place.upTo_past (w := c :: w) hp]
      · rw [foldRun_false, likeWord, List.cons_append]
        cases rest with
        | nil => rfl
        | cons d rest => rw [foldAcronyms_cons (hrest d rfl)]; rfl
    | true =>
      rw [if_pos rfl]
      rcases List.eq_nil_or_concat w with rfl | ⟨v, d, rfl⟩
      · -- a capital that starts a word
        exact Or.inl ⟨by rw [if_pos rfl, Option.map_none], rfl⟩
      · -- the run without its last capital, which is the next character
        rw [List.concat_eq_append] at hp ⊢
        refine Or.inr ⟨c :: v, [d], rest, by simp, by simp, ?_, ?_⟩
        · have hword : p.after = (c :: v) ++ (d :: rest) := by simp [hp]
          have hafter : (p.past (c :: v)).after = d :: rest := by simp [hword]
          rw [if_neg (by simp), List.dropLast_concat, Option.map_some, Place.past_append, hafter,
            Place.upTo_past hword]
          rfl
        · rw [foldRun_concat, likeWord, List.append_assoc, List.cons_append]
          rfl

/-! ### All matches -/

/-- **From any place on**, writing over the acronyms in what comes next leaves what stands before
it. -/
theorem writeAll_findAll (p : Place) (start : List Char) (hstart : start.length = p.position) :
    writeAll (findAll acronymAt p) (start ++ p.after) = start ++ foldAcronyms p.after := by
  induction hn : p.after.length using Nat.strongRecOn generalizing p start with
  | _ n ih =>
    subst hn
    cases hafter : p.after with
    | nil =>
      rw [findAll_of_end hafter, foldAcronyms]
      rfl
    | cons c cs =>
      rcases acronymAt_cases hafter with ⟨hnone, hfold⟩ | ⟨w, behind, rest, hcs, hw, hsome, hfold⟩
      · have hnext := ih cs.length (by simp [hafter]) ⟨p.position + 1, c :: p.before, cs⟩
          (start ++ [c]) (by simp [hstart]) rfl
        rw [findAll_of_eq_none hafter hnone, hfold]
        simpa using hnext
      · -- what is behind the match is searched as it was, and stands behind what was written
        have hrest : (p.past (w ++ behind)).after = rest := by
          rw [Place.after_past, hafter, hcs, ← List.append_assoc, List.drop_left]
        have hlt : (p.past (w ++ behind)).after.length < p.after.length := by
          have hpos : 0 < w.length := List.length_pos_iff.mpr hw
          rw [hrest, hafter, hcs, List.length_append, List.length_append]
          omega
        have hnext := ih _ hlt (p.past (w ++ behind)) (start ++ (likeWord w ++ behind))
          (by simp [hstart]) rfl
        rw [findAll_of_eq_some hsome hlt, writeAll, List.foldl_cons, ← writeAll, hcs, ← hstart,
          writeOver_append, ← hcs, hfold]
        rw [hrest] at hnext
        simpa only [List.append_assoc] using hnext

/-- **Writing over all acronyms folds them.** -/
theorem writeAll_acronyms (cs : List Char) : writeAll (acronyms cs) cs = foldAcronyms cs :=
  writeAll_findAll ⟨0, [], cs⟩ [] rfl

end Name
end SchemaScript
