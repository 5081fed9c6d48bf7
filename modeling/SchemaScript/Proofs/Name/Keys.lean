import SchemaScript.Proofs.Json.Strings
import SchemaScript.Proofs.Name.Identifiers

/-!
# Keys of fields

The name of a field is written as it is or as a JSON string, and either way the name can be
read off the key, so two names never have one key.  What is written as it is should be an
identifier, but the test looks past one line feed at the very end: an identifier with a line
feed behind it is written as it is, too, and is the only name that is written badly.

## Main definitions

* `IsLiteralOf` — the key is a string literal for the name.
* `IsKeyFor` — the key is the name, an identifier, or a literal for it.
* `EndsLine` — the name is an identifier with a line feed behind it.

## Main results

* `isKeyFor_fieldKey_iff` — when a name is written well.
* `fieldKey_injective` — different names have different keys.
* `fieldName_eq_self` — a property whose name starts with neither a capital nor a dollar
  sign gives its name to the field.
-/

namespace SchemaScript
namespace Name

/-- The key is a JSON string in printable ASCII characters, for the name. -/
structure IsLiteralOf (key name : String) : Prop where
  quoted : ∃ body, key.toList = '"' :: body ++ ['"']
  reads : Json.parse? key = some (.str name)
  visible : ∀ c ∈ key.toList, Json.IsVisible c

/-- The key is the name, which is an identifier then, or a literal for the name. -/
def IsKeyFor (name key : String) : Prop :=
  (key = name ∧ IsIdentifier name) ∨ IsLiteralOf key name

/-- The name is an identifier with a line feed behind it. -/
def EndsLine (name : String) : Prop := ∃ m, IsIdentifier m ∧ name = m ++ "\n"

/-! ### Names that are written as they are -/

theorem continuesIdentifier_iff (cs : List Char) :
    continuesIdentifier cs = true ↔
      cs.all isIdentifierChar = true ∨
        ∃ ds, cs = ds ++ ['\n'] ∧ ds.all isIdentifierChar = true := by
  induction cs using continuesIdentifier.induct with
  | case1 => simp [continuesIdentifier]
  | case2 => exact ⟨fun _ => Or.inr ⟨[], rfl, rfl⟩, fun _ => rfl⟩
  | case3 c cs hlast ih =>
    rw [continuesIdentifier, Bool.and_eq_true, ih, List.all_cons, Bool.and_eq_true]
    · constructor
      · rintro ⟨hc, h | ⟨ds, rfl, h⟩⟩
        · exact Or.inl ⟨hc, h⟩
        · exact Or.inr ⟨c :: ds, rfl, by rw [List.all_cons, hc, h]; rfl⟩
      · rintro (⟨hc, h⟩ | ⟨ds, hds, h⟩)
        · exact ⟨hc, Or.inl h⟩
        · -- the line feed stands behind the first character, as this one is not the last
          cases ds with
          | nil =>
            obtain ⟨rfl, rfl⟩ := List.cons.inj hds
            exact absurd rfl (hlast rfl)
          | cons d ds =>
            obtain ⟨rfl, rfl⟩ := List.cons.inj hds
            rw [List.all_cons, Bool.and_eq_true] at h
            exact ⟨h.1, Or.inr ⟨ds, rfl, h.2⟩⟩
    · exact hlast

/-- Identifiers are written as they are, with or without a line feed behind them. -/
theorem isPlainKey_iff (name : String) :
    isPlainKey name.toList = true ↔ IsIdentifier name ∨ EndsLine name := by
  have hends : EndsLine name ↔
      ∃ cs, name.toList = cs ++ ['\n'] ∧ formsIdentifier cs = true := by
    constructor
    · rintro ⟨m, hm, rfl⟩
      exact ⟨m.toList, String.toList_append, hm⟩
    · rintro ⟨cs, hcs, h⟩
      refine ⟨String.ofList cs, by rwa [IsIdentifier, String.toList_ofList], ?_⟩
      rw [← String.toList_inj, hcs, String.toList_append, String.toList_ofList]
      rfl
  rw [hends, IsIdentifier]
  cases name.toList with
  | nil => simp [isPlainKey, formsIdentifier]
  | cons c cs =>
    rw [isPlainKey, Bool.and_eq_true, continuesIdentifier_iff, formsIdentifier, Bool.and_eq_true]
    constructor
    · rintro ⟨hc, h | ⟨ds, rfl, h⟩⟩
      · exact Or.inl ⟨hc, h⟩
      · exact Or.inr ⟨c :: ds, rfl, by rw [formsIdentifier, hc, h]; rfl⟩
    · rintro (⟨hc, h⟩ | ⟨ds, hds, h⟩)
      · exact ⟨hc, Or.inl h⟩
      · cases ds with
        | nil => cases h
        | cons d ds =>
          obtain ⟨rfl, rfl⟩ := List.cons.inj hds
          rw [formsIdentifier, Bool.and_eq_true] at h
          exact ⟨h.1, Or.inr ⟨ds, rfl, h.2⟩⟩

/-- No quote stands at the start of a name that is written as it is. -/
theorem not_isPlainKey_quote (cs : List Char) : isPlainKey ('"' :: cs) = false := rfl

/-! ### Keys -/

theorem isLiteralOf_jsonAscii (name : String) :
    IsLiteralOf (String.ofList (Text.jsonAscii name.toList)) name where
  quoted := ⟨_, String.toList_ofList⟩
  reads := by rw [Json.parse?_jsonAscii, String.ofList_toList]
  visible := fun c hc => by
    rw [String.toList_ofList] at hc
    exact Json.isVisible_of_mem_jsonAscii hc

/-- What is not quoted is no literal for anything. -/
theorem not_isLiteralOf_of_isPlainKey {key name : String} (h : isPlainKey key.toList = true) :
    ¬ IsLiteralOf key name := by
  rintro ⟨⟨body, hbody⟩, -, -⟩
  rw [hbody, List.cons_append, not_isPlainKey_quote] at h
  cases h

theorem EndsLine.mem {name : String} (h : EndsLine name) : '\n' ∈ name.toList := by
  obtain ⟨m, -, rfl⟩ := h
  rw [String.toList_append]
  exact List.mem_append_right _ (List.mem_singleton.mpr rfl)

/-- There is no line feed in an identifier. -/
theorem not_isIdentifier_of_endsLine {name : String} (h : EndsLine name) :
    ¬ IsIdentifier name := by
  intro hname
  exact absurd (isIdentifierChar_of_mem hname h.mem) (by decide)

theorem fieldKey_of_endsLine {name : String} (h : EndsLine name) : fieldKey name = name :=
  if_pos ((isPlainKey_iff name).mpr (Or.inr h))

/-- **When a name is written well**: unless it is an identifier with a line feed behind it. -/
theorem isKeyFor_fieldKey_iff (name : String) : IsKeyFor name (fieldKey name) ↔ ¬ EndsLine name := by
  constructor
  · intro h hends
    rw [fieldKey_of_endsLine hends] at h
    rcases h with ⟨-, h⟩ | h
    · exact not_isIdentifier_of_endsLine hends h
    · exact not_isLiteralOf_of_isPlainKey ((isPlainKey_iff name).mpr (Or.inr hends)) h
  · intro hends
    rw [fieldKey]
    split
    · next h => exact Or.inl ⟨rfl, ((isPlainKey_iff name).mp h).resolve_right hends⟩
    · exact Or.inr (isLiteralOf_jsonAscii name)

/-- **Different names have different keys.** -/
theorem fieldKey_injective : Function.Injective fieldKey := by
  intro a b h
  by_cases ha : isPlainKey a.toList = true <;> by_cases hb : isPlainKey b.toList = true
  · rwa [fieldKey, fieldKey, if_pos ha, if_pos hb] at h
  · rw [fieldKey, fieldKey, if_pos ha, if_neg hb] at h
    exact absurd (h ▸ isLiteralOf_jsonAscii b) (not_isLiteralOf_of_isPlainKey ha)
  · rw [fieldKey, fieldKey, if_neg ha, if_pos hb] at h
    exact absurd (h ▸ isLiteralOf_jsonAscii a) (not_isLiteralOf_of_isPlainKey hb)
  · rw [fieldKey, fieldKey, if_neg ha, if_neg hb] at h
    -- the two literals are one text, which reads as one name
    have hreads := (isLiteralOf_jsonAscii a).reads
    rw [h, (isLiteralOf_jsonAscii b).reads, Option.some.injEq, Json.str.injEq] at hreads
    exact hreads.symm

/-! ### Names of fields -/

/-- The name of the property is not changed for the field. -/
def KeepsName (property : String) : Prop :=
  ∀ c ∈ property.toList.head?, Text.isCapital c = false ∧ c ≠ '$'

instance (property : String) : Decidable (KeepsName property) :=
  inferInstanceAs (Decidable (∀ c ∈ property.toList.head?, _))

theorem smallFirst_of_keepsName {property : String} (h : KeepsName property) :
    smallFirst property.toList = property.toList := by
  rw [KeepsName] at h
  cases hcs : property.toList with
  | nil => rfl
  | cons c cs =>
    rw [hcs] at h
    rw [smallFirst, (h c rfl).1, if_neg Bool.false_ne_true]

theorem fieldName_eq_self {property : String} (h : KeepsName property) :
    fieldName property = property := by
  rw [fieldName, smallFirst_of_keepsName h]
  split
  · next cs hcs => exact absurd rfl (h '$' (by rw [hcs]; rfl)).2
  · rw [String.ofList_toList]

end Name
end SchemaScript
