import Mathlib.Tactic.IntervalCases
import SchemaScript.Json.Parser
import SchemaScript.Text.Quoted

/-!
# Quoted texts read back

A text between quotes, with its escapes, is a JSON string for that text, whichever
characters are written plainly, if no control character is.  Reading goes character by
character: what one character is written as is what one step of the reader takes, so the
induction is on the text.  Above the 16-bit range a character is written as a pair of units,
and the pair is read as one character.

## Main results

* `hexUnit?_hexPadded` — four digits of a number read back as the number.
* `readString?_jsonChar` — one step of the reader takes one character.
* `parse?_jsonAscii` — a text of printable characters only reads back as the quoted text.
* `isVisible_of_mem_jsonAscii` — and it has such characters only.
-/

namespace SchemaScript

/-! ### Hexadecimal digits -/

namespace Text

/-- One digit more writes the last digit behind the others. -/
theorem hexPadded_succ {w : Nat} (hw : 0 < w) (n : Nat) :
    hexPadded (w + 1) n = hexPadded w (n / 16) ++ [Nat.digitChar (n % 16)] := by
  by_cases h : n < 16
  · rw [Nat.div_eq_of_lt h, Nat.mod_eq_of_lt h, hexPadded, hexPadded,
      Nat.toDigits_of_lt_base h, Nat.toDigits_of_lt_base (by omega)]
    -- the zero that stands for no digits is one of the leading ones
    obtain ⟨w, rfl⟩ : ∃ k, w = k + 1 := ⟨w - 1, by omega⟩
    simp [List.replicate_succ', Nat.digitChar]
  · rw [hexPadded, hexPadded, Nat.toDigits_of_base_le (by omega) (by omega), List.length_append,
      List.length_singleton, Nat.add_sub_add_right, List.append_assoc]

/-- The four digits of a number of 16 bits. -/
theorem hexPadded_four {n : Nat} (h : n < 0x10000) :
    hexPadded 4 n = [Nat.digitChar (n / 4096), Nat.digitChar (n / 256 % 16),
      Nat.digitChar (n / 16 % 16), Nat.digitChar (n % 16)] := by
  have hfirst : hexPadded 1 (n / 4096) = [Nat.digitChar (n / 4096)] := by
    rw [hexPadded, Nat.toDigits_of_lt_base (by omega)]
    rfl
  have h256 : n / 16 / 16 = n / 256 := Nat.div_div_eq_div_mul n 16 16
  have h4096 : n / 256 / 16 = n / 4096 := Nat.div_div_eq_div_mul n 256 16
  rw [hexPadded_succ (by omega), hexPadded_succ (by omega), hexPadded_succ (by omega), h256, h4096,
    hfirst]
  rfl

end Text

namespace Json

open Text

theorem hexDigit?_digitChar {n : Nat} (h : n < 16) : hexDigit? (Nat.digitChar n) = some n := by
  interval_cases n <;> rfl

/-- **Four digits read back as the number.** -/
theorem hexUnit?_hexPadded {n : Nat} (h : n < 0x10000) (rest : List Char) :
    hexUnit? (hexPadded 4 n ++ rest) = some (n, rest) := by
  have hvalue : ((n / 4096 * 16 + n / 256 % 16) * 16 + n / 16 % 16) * 16 + n % 16 = n := by omega
  rw [hexPadded_four h]
  simp only [List.cons_append, List.nil_append, hexUnit?,
    hexDigit?_digitChar (show n / 4096 < 16 by omega),
    hexDigit?_digitChar (show n / 256 % 16 < 16 by omega),
    hexDigit?_digitChar (show n / 16 % 16 < 16 by omega),
    hexDigit?_digitChar (show n % 16 < 16 by omega), Option.bind_eq_bind, Option.bind_some,
    hvalue]
  rfl

/-! ### Escapes -/

/-- No character lies among the halves of pairs. -/
theorem toNat_range (c : Char) : c.toNat < 0xd800 ∨ 0xe000 ≤ c.toNat ∧ c.toNat < 0x110000 := by
  rcases c.valid with h | h
  · exact Or.inl h
  · right
    exact ⟨h.1, h.2⟩

theorem unitChar_toNat (c : Char) : unitChar c.toNat = c := by
  have hc : c.toNat < 0xd800 ∨ 0xe000 ≤ c.toNat := (toNat_range c).imp_right And.left
  rw [unitChar, if_pos hc, Char.ofNat_toNat]

/-- The pair of units that a character above the 16-bit range is written as. -/
theorem pairChar_units {c : Char} (h : 0x10000 ≤ c.toNat) :
    pairChar (0xd800 + (c.toNat - 0x10000) / 0x400) (0xdc00 + (c.toNat - 0x10000) % 0x400) = c := by
  have hvalue : 0x10000 + (0xd800 + (c.toNat - 0x10000) / 0x400 - 0xd800) * 0x400 +
      (0xdc00 + (c.toNat - 0x10000) % 0x400 - 0xdc00) = c.toNat := by omega
  rw [pairChar, hvalue, Char.ofNat_toNat]

theorem lowUnit?_unitEscape {n : Nat} (hlow : 0xdc00 ≤ n) (hhigh : n < 0xe000)
    (rest : List Char) : lowUnit? (unitEscape n ++ rest) = some (n, rest) := by
  simp only [unitEscape, List.cons_append, lowUnit?, hexUnit?_hexPadded (show n < 0x10000 by omega),
    Option.bind_eq_bind, Option.bind_some]
  rw [if_pos ⟨hlow, hhigh⟩]

/-- A unit that is no half of a pair is read by itself. -/
theorem escapedChar?_unit {n : Nat} (h : n < 0x10000) (hhalf : ¬ (0xd800 ≤ n ∧ n < 0xdc00))
    (rest : List Char) : escapedChar? (hexPadded 4 n ++ rest) = some (unitChar n, rest) := by
  simp only [escapedChar?, hexUnit?_hexPadded h, Option.bind_eq_bind, Option.bind_some]
  rw [if_neg hhalf]

/-- A high unit is read together with the low one behind it. -/
theorem escapedChar?_pair {high low : Nat} (hhigh : 0xd800 ≤ high ∧ high < 0xdc00)
    (hlow : 0xdc00 ≤ low ∧ low < 0xe000) (rest : List Char) :
    escapedChar? (hexPadded 4 high ++ unitEscape low ++ rest) = some (pairChar high low, rest) := by
  rw [List.append_assoc]
  simp only [escapedChar?, hexUnit?_hexPadded (show high < 0x10000 by omega), Option.bind_eq_bind,
    Option.bind_some]
  rw [if_pos hhigh, lowUnit?_unitEscape hlow.1 hlow.2]

theorem charEscape_of_lt {c : Char} (h : c.toNat < 0x10000) :
    charEscape c = unitEscape c.toNat := if_pos h

theorem charEscape_of_not_lt {c : Char} (h : ¬ c.toNat < 0x10000) :
    charEscape c = unitEscape (0xd800 + (c.toNat - 0x10000) / 0x400) ++
      unitEscape (0xdc00 + (c.toNat - 0x10000) % 0x400) := if_neg h

/-- A character whose escape is its pair of units is read back. -/
theorem escapedChar?_of_units {c : Char} {high low : Nat} (hpair : pairChar high low = c)
    (hescape : charEscape c = unitEscape high ++ unitEscape low)
    (hhigh : 0xd800 ≤ high ∧ high < 0xdc00) (hlow : 0xdc00 ≤ low ∧ low < 0xe000) :
    ∃ digits, charEscape c = '\\' :: 'u' :: digits ∧
      ∀ rest, escapedChar? (digits ++ rest) = some (c, rest) := by
  refine ⟨hexPadded 4 high ++ unitEscape low, hescape, fun rest => ?_⟩
  rw [escapedChar?_pair hhigh hlow, hpair]

/-- An escape by number is read as the character, in one unit or in two. -/
theorem escapedChar?_charEscape (c : Char) :
    ∃ digits, charEscape c = '\\' :: 'u' :: digits ∧
      ∀ rest, escapedChar? (digits ++ rest) = some (c, rest) := by
  have hrange := toNat_range c
  by_cases h : c.toNat < 0x10000
  · refine ⟨hexPadded 4 c.toNat, charEscape_of_lt h, fun rest => ?_⟩
    rw [escapedChar?_unit h (by omega), unitChar_toNat]
  · apply escapedChar?_of_units (pairChar_units (by omega)) (charEscape_of_not_lt h)
    · omega
    · omega

/-- A short escape is read as the character, and is not taken for one by number. -/
theorem unescape?_shortEscape {c e : Char} (h : shortEscape? c = some e) :
    unescape? e = some c ∧ e ≠ 'u' := by
  have hcode : ∀ {d : Char}, c.toNat = d.toNat → c = d := Char.toNat_inj.mp
  simp only [shortEscape?] at h
  split_ifs at h with h1 h2 h3 h4 h5 h6 h7 <;> cases h
  · exact ⟨by rw [h1]; rfl, by decide⟩
  · exact ⟨by rw [h2]; rfl, by decide⟩
  · exact ⟨by rw [h3]; rfl, by decide⟩
  · exact ⟨by rw [h4]; rfl, by decide⟩
  · exact ⟨by rw [h5]; rfl, by decide⟩
  · exact ⟨by rw [hcode (d := '\x08') h6]; rfl, by decide⟩
  · exact ⟨by rw [hcode (d := '\x0c') h7]; rfl, by decide⟩

theorem ne_of_shortEscape {c : Char} (h : shortEscape? c = none) : c ≠ '"' ∧ c ≠ '\\' := by
  constructor
  · rintro rfl
    cases h
  · rintro rfl
    cases h

/-! ### Strings -/

variable {plain : Char → Bool}

theorem bind_some_cons (c : Char) (o : Option (List Char × List Char)) :
    (o.bind fun x => some (c :: x.1, x.2)) = o.map fun (s, rest) => (c :: s, rest) := by
  cases o <;> rfl

theorem readString?_plain {c : Char} (hquote : c ≠ '"') (hslash : c ≠ '\\') (hc : 32 ≤ c.val)
    (fuel : Nat) (rest : List Char) :
    readString? (fuel + 1) (c :: rest) =
      (readString? fuel rest).map fun (s, rest) => (c :: s, rest) := by
  have hcontrol : ¬ (c.val < 32 ∨ c = '\\') := by
    rintro (h | h)
    · exact absurd hc (by simpa using h)
    · exact hslash h
  rw [readString?, if_neg hcontrol]
  · exact bind_some_cons c _
  · exact hquote
  · exact fun _ h => absurd h hslash
  · exact fun _ _ h => absurd h hslash

/-- **One step of the reader takes what one character is written as.** -/
theorem readString?_jsonChar (hplain : ∀ c, plain c = true → 32 ≤ c.val) (c : Char) (fuel : Nat)
    (rest : List Char) :
    readString? (fuel + 1) (jsonChar plain c ++ rest) =
      (readString? fuel rest).map fun (s, rest) => (c :: s, rest) := by
  rw [jsonChar]
  cases he : shortEscape? c with
  | some e =>
    obtain ⟨hc, hu⟩ := unescape?_shortEscape he
    simp only [List.cons_append, List.nil_append, readString?, hc, Option.bind_eq_bind,
      Option.bind_some]
    exact bind_some_cons c _
  | none =>
    obtain ⟨hquote, hslash⟩ := ne_of_shortEscape he
    by_cases hp : plain c = true
    · rw [if_pos hp]
      exact readString?_plain hquote hslash (hplain c hp) fuel rest
    · obtain ⟨digits, hdigits, hread⟩ := escapedChar?_charEscape c
      simp only [hp, if_false, Bool.false_eq_true, hdigits, List.cons_append, readString?, hread,
        Option.bind_eq_bind, Option.bind_some]
      exact bind_some_cons c _

/-- Each character takes one unit of fuel, and the closing quote one. -/
theorem readString?_flatMap (hplain : ∀ c, plain c = true → 32 ≤ c.val) (cs rest : List Char)
    {fuel : Nat} (h : cs.length < fuel) :
    readString? fuel (cs.flatMap (jsonChar plain) ++ '"' :: rest) = some (cs, rest) := by
  induction cs generalizing fuel with
  | nil =>
    obtain ⟨fuel, rfl⟩ : ∃ k, fuel = k + 1 := ⟨fuel - 1, by omega⟩
    rfl
  | cons c cs ih =>
    rw [List.length_cons] at h
    obtain ⟨fuel, rfl⟩ : ∃ k, fuel = k + 1 := ⟨fuel - 1, by omega⟩
    rw [List.flatMap_cons, List.append_assoc, readString?_jsonChar hplain, ih (by omega)]
    rfl

/-- A character is written as one character at least. -/
theorem jsonChar_ne_nil (plain : Char → Bool) (c : Char) : jsonChar plain c ≠ [] := by
  rw [jsonChar]
  split
  · simp
  · split
    · simp
    · obtain ⟨digits, hdigits, -⟩ := escapedChar?_charEscape c
      simp [hdigits]

theorem length_le_flatMap_jsonChar (plain : Char → Bool) (cs : List Char) :
    cs.length ≤ (cs.flatMap (jsonChar plain)).length := by
  induction cs with
  | nil => simp
  | cons c cs ih =>
    have := List.length_pos_iff.mpr (jsonChar_ne_nil plain c)
    rw [List.flatMap_cons, List.length_append, List.length_cons]
    omega

/-- A quoted text is a JSON text, for the string that it quotes. -/
theorem parseChars?_quoted (hplain : ∀ c, plain c = true → 32 ≤ c.val) (cs : List Char) :
    parseChars? ('"' :: cs.flatMap (jsonChar plain) ++ ['"']) = some (.str (String.ofList cs)) := by
  let body := cs.flatMap (jsonChar plain) ++ ['"']
  have hlength : cs.length < body.length + 1 := by
    have := length_le_flatMap_jsonChar plain cs
    simp only [body, List.length_append, List.length_singleton]
    omega
  have hread : readString? (body.length + 1) body = some (cs, []) :=
    readString?_flatMap hplain cs [] hlength
  have hvalue : ∀ fuel, readValue? (fuel + 1) ('"' :: body) = some (.str (String.ofList cs), []) := by
    intro fuel
    rw [readValue?, hread]
    rfl
  rw [List.cons_append, parseChars?, skipSpace, List.dropWhile_cons_of_neg (by decide), hvalue]
  rfl

/-- **A text in printable characters reads back as the text that it quotes.** -/
theorem parse?_jsonAscii (cs : List Char) :
    parse? (String.ofList (jsonAscii cs)) = some (.str (String.ofList cs)) := by
  rw [parse?, String.toList_ofList, jsonAscii]
  apply parseChars?_quoted
  intro c hc
  simp only [Bool.and_eq_true, decide_eq_true_eq] at hc
  exact hc.1

/-! ### Printable characters -/

/-- The character is a printable one of ASCII: the blank, or one that leaves a mark. -/
def IsVisible (c : Char) : Prop := 32 ≤ c.val ∧ c.val ≤ 126

instance (c : Char) : Decidable (IsVisible c) := inferInstanceAs (Decidable (_ ∧ _))

theorem isVisible_digitChar {n : Nat} (h : n < 16) : IsVisible (Nat.digitChar n) := by
  interval_cases n <;> decide

theorem isVisible_of_mem_unitEscape {n : Nat} (h : n < 0x10000) {c : Char}
    (hc : c ∈ unitEscape n) : IsVisible c := by
  rw [unitEscape, hexPadded_four h] at hc
  simp only [List.mem_cons, List.not_mem_nil, or_false] at hc
  rcases hc with rfl | rfl | rfl | rfl | rfl | rfl
  · decide
  · decide
  all_goals exact isVisible_digitChar (by omega)

theorem isVisible_of_mem_charEscape {c d : Char} (h : d ∈ charEscape c) : IsVisible d := by
  have hrange := toNat_range c
  simp only [charEscape] at h
  split at h
  · next hc => exact isVisible_of_mem_unitEscape hc h
  · rcases List.mem_append.mp h with h | h
    · exact isVisible_of_mem_unitEscape (by omega) h
    · exact isVisible_of_mem_unitEscape (by omega) h

theorem isVisible_shortEscape {c e : Char} (h : shortEscape? c = some e) : IsVisible e := by
  simp only [shortEscape?] at h
  split_ifs at h <;> obtain rfl := Option.some.inj h <;> decide

/-- **A text in printable characters has no others.** -/
theorem isVisible_of_mem_jsonAscii {cs : List Char} {d : Char} (h : d ∈ jsonAscii cs) :
    IsVisible d := by
  simp only [jsonAscii, List.cons_append, List.mem_cons, List.mem_append, List.mem_flatMap,
    List.not_mem_nil, or_false] at h
  rcases h with rfl | ⟨c, -, hd⟩ | rfl
  · decide
  · rw [jsonChar] at hd
    split at hd
    · next e he =>
      simp only [List.mem_cons, List.not_mem_nil, or_false] at hd
      rcases hd with rfl | rfl
      · decide
      · exact isVisible_shortEscape he
    · split at hd
      · next hplain =>
        rw [List.mem_singleton.mp hd]
        simpa [IsVisible] using hplain
      · exact isVisible_of_mem_charEscape hd
  · decide

end Json
end SchemaScript
