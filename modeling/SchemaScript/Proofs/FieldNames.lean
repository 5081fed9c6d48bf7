import SchemaScript.Proofs.Emission.Growth
import SchemaScript.Proofs.Name.Keys
import SchemaScript.Proofs.Schemas

/-!
# Names of fields

The fields of an interface are named one by one, each after its property and with no regard
to the others.  Making the name loses the case of a first letter, the separators of words
behind a capital and a leading dollar sign, and nothing tells apart what they told apart; but
writing the name down loses nothing.  So the keys of an interface are distinct exactly if the
names made from its properties are.

Nothing here depends on how the schemas of the properties are emitted.

## Main definitions

* `Field.IsNamedFor` — the field is named after the property.

## Main results

* `nodup_keys_emitStruct_iff` — when no two fields of an interface have one key.
* `isKeyFor_field_iff` — when the key of a field is an identifier or a literal.
* `fields_share_a_key`, `line_feed_stays_in_key` — inputs where they are not so.
-/

namespace SchemaScript

open Stateful

/-- The field is named after the property. -/
structure Field.IsNamedFor (f : Field) (property : String) : Prop where
  schemaName : f.schemaName = property
  name : f.name = Name.fieldKey (Name.fieldName property)

/-- The keys of fields, where they are named after properties. -/
theorem Field.map_name_eq {ps : List (String × Json)} {fs : List Field}
    (h : List.Forall₂ (fun p f => f.IsNamedFor p.1) ps fs) :
    fs.map (·.name) = (ps.map fun p => Name.fieldName p.1).map Name.fieldKey := by
  induction h with
  | nil => rfl
  | cons hf _ ih => rw [List.map_cons, List.map_cons, List.map_cons, hf.name, ih]

namespace Resolver

variable {ε : Type} {emit : Emitting ε}

/-! ### Fields of an interface -/

theorem isNamedFor_field {structFqn property : String} {struct schema : Json} {r r' : Resolver ε}
    {f : Field} (h : exec (field emit structFqn struct property schema) r = (.ok f, r')) :
    f.IsNamedFor property := by
  rw [exec_field] at h
  obtain ⟨t, -, rfl⟩ := eq_ok_of_mapValue h
  exact ⟨rfl, rfl⟩

/-- Once the schema of the property is emitted, the field is built. -/
theorem exists_field {structFqn property : String} (struct : Json) {schema : Json}
    {r r' : Resolver ε} {t : TypeExpr}
    (h : exec (emitInner emit (structFqn ++ "." ++ Name.fieldName property) schema
      (structFqn ++ "." ++ Name.fieldName property)) r = (.ok t, r')) :
    ∃ f, exec (field emit structFqn struct property schema) r = (.ok f, r') ∧
      f.IsNamedFor property ∧ f.type = t := by
  rw [exec_field, h]
  exact ⟨_, rfl, ⟨rfl, rfl⟩, rfl⟩

/-- There is a field for every property but extensions, named after it. -/
theorem isNamedFor_fields {structFqn : String} {struct : Json} {ps : List (String × Json)}
    {r r' : Resolver ε} {fs : List Field}
    (h : exec (fields emit structFqn struct ps) r = (.ok fs, r')) :
    List.Forall₂ (fun p f => f.IsNamedFor p.1) (ps.filter fun p => !isExtension p.1) fs := by
  induction ps generalizing r fs with
  | nil =>
    cases h
    exact .nil
  | cons p ps ih =>
    rw [exec_fields_cons] at h
    by_cases hx : isExtension p.1 = true
    · rw [if_pos hx] at h
      rw [List.filter_cons_of_neg (by simp [hx])]
      exact ih h
    · rw [if_neg hx] at h
      rw [List.filter_cons_of_pos (by simpa using hx)]
      rcases hf : exec (field emit structFqn struct p.1 p.2) r with ⟨e | f, r₁⟩ <;> rw [hf] at h
      · cases h
      · obtain ⟨rest, hrest, rfl⟩ := eq_ok_of_mapValue h
        exact .cons (isNamedFor_field hf) (ih hrest)

/-- An interface that is built waits with a field for every property but extensions. -/
theorem exists_fields_of_emitStruct {typeName fqn : String} {schema : Json} {r r' : Resolver ε}
    {t : TypeExpr} (hnew : r.queue.isKnown typeName = false)
    (h : exec (emitStruct emit typeName schema fqn) r = (.ok t, r')) :
    ∃ fs, r'.queue.waiting.find? typeName =
        some ⟨typeName, fqn, schema.get "description", some schema, .struct fs⟩ ∧
      List.Forall₂ (fun p f => f.IsNamedFor p.1) (Schema.properties schema) fs := by
  rw [exec_emitStruct, hnew, if_neg Bool.false_ne_true] at h
  rcases hf : exec (fields emit fqn schema (schema.get "properties").fields)
    (r.declared ⟨typeName, fqn, schema.get "description", some schema, .struct []⟩)
    with ⟨e | fs, r₁⟩ <;> rw [hf] at h
  · cases h
  · cases h
    refine ⟨fs, ?_, isNamedFor_fields hf⟩
    simp [completed, Table.find?_insert]

/-- **When no two fields of an interface have one key**: when no two properties make one name.
In particular this is so if the properties are distinct and none starts with a capital or a
dollar sign. -/
theorem nodup_keys_emitStruct_iff {typeName fqn : String} {schema : Json} {r r' : Resolver ε}
    {t : TypeExpr} (hnew : r.queue.isKnown typeName = false)
    (h : exec (emitStruct emit typeName schema fqn) r = (.ok t, r')) :
    ∃ fs, r'.queue.waiting.find? typeName =
        some ⟨typeName, fqn, schema.get "description", some schema, .struct fs⟩ ∧
      List.Forall₂ (fun p f => f.IsNamedFor p.1) (Schema.properties schema) fs ∧
      ((fs.map (·.name)).Nodup ↔
        ((Schema.properties schema).map fun p => Name.fieldName p.1).Nodup) ∧
      (((Schema.properties schema).map (·.1)).Nodup →
        (∀ p ∈ Schema.properties schema, Name.KeepsName p.1) → (fs.map (·.name)).Nodup) := by
  obtain ⟨fs, hfind, hfs⟩ := exists_fields_of_emitStruct hnew h
  have hiff : (fs.map (·.name)).Nodup ↔
      ((Schema.properties schema).map fun p => Name.fieldName p.1).Nodup := by
    rw [Field.map_name_eq hfs]
    exact List.nodup_map_iff Name.fieldKey_injective
  refine ⟨fs, hfind, hfs, hiff, fun hnodup hkeep => hiff.mpr ?_⟩
  have hsame : ((Schema.properties schema).map fun p => Name.fieldName p.1) =
      (Schema.properties schema).map (·.1) :=
    List.map_congr_left fun p hp => Name.fieldName_eq_self (hkeep p hp)
  rwa [hsame]

/-- Properties whose names are changed, quoted and kept. -/
def variedStruct : Json :=
  .obj [("properties", .obj [("FirstName", .obj [("type", .str "string")]),
    ("$ref-to", .obj [("type", .str "string")]), ("x-note", .obj []),
    ("age", .obj [("type", .str "integer")])])]

/-- The three fields have three keys. -/
theorem nodup_keys_emitStruct_variedStruct :
    (fresh [] .empty : Resolver Empty).queue.isKnown "S" = false ∧
      ∃ r' fs, exec (emitStruct (emitWith 1) "S" variedStruct "S")
          (fresh [] .empty : Resolver Empty) = (.ok (.named "S"), r') ∧
        r'.queue.waiting.find? "S" = some ⟨"S", "S", .null, some variedStruct, .struct fs⟩ ∧
        fs.map (·.schemaName) = ["FirstName", "$ref-to", "age"] ∧ (fs.map (·.name)).Nodup := by
  have hok : (exec (emitStruct (emitWith 1) "S" variedStruct "S")
      (fresh [] .empty : Resolver Empty)).1 = .ok (.named "S") :=
    eq_ok_of_toOption (by decide +kernel)
  have hnew : (fresh [] .empty : Resolver Empty).queue.isKnown "S" = false := rfl
  obtain ⟨fs, hfind, hfs, hiff, -⟩ := nodup_keys_emitStruct_iff hnew (Prod.ext hok rfl)
  refine ⟨hnew, _, fs, Prod.ext hok rfl, hfind, ?_, hiff.mpr (by decide +kernel)⟩
  have hnames : fs.map (·.schemaName) = (Schema.properties variedStruct).map (·.1) := by
    rw [← List.forall₂_eq_eq_eq, List.forall₂_map_left_iff, List.forall₂_map_right_iff]
    exact hfs.flip.imp fun f p hf => hf.schemaName
  exact hnames

/-- Two properties that differ in the case of the first letter only. -/
def twins : Json :=
  .obj [("properties", .obj [("Foo", .obj [("type", .str "string")]),
    ("foo", .obj [("type", .str "number")])])]

/-- **Two fields of one interface can have one key.** -/
theorem fields_share_a_key :
    ∃ r' fs, exec (emitStruct (emitWith 1) "S" twins "S") (fresh [] .empty : Resolver Empty) =
        (.ok (.named "S"), r') ∧
      r'.queue.waiting.find? "S" = some ⟨"S", "S", .null, some twins, .struct fs⟩ ∧
      fs.map (·.name) = ["foo", "foo"] ∧ ¬ (fs.map (·.name)).Nodup := by
  have hok : (exec (emitStruct (emitWith 1) "S" twins "S")
      (fresh [] .empty : Resolver Empty)).1 = .ok (.named "S") :=
    eq_ok_of_toOption (by decide +kernel)
  have hnew : (fresh [] .empty : Resolver Empty).queue.isKnown "S" = false := rfl
  obtain ⟨fs, hfind, hfs⟩ := exists_fields_of_emitStruct hnew (Prod.ext hok rfl)
  have hnames : fs.map (·.name) = ["foo", "foo"] :=
    (Field.map_name_eq hfs).trans (by decide +kernel)
  refine ⟨_, fs, Prod.ext hok rfl, hfind, hnames, ?_⟩
  rw [hnames]
  decide

/-! ### The key of a field -/

/-- **When the key of a field is well formed.**  Once the schema of the property is emitted, the
field is built, and its key is the name made from the property, an identifier then, or a string
literal for that name, unless the name is an identifier with a line feed behind it.  Such a
name is written as it is all the same. -/
theorem isKeyFor_field_iff {structFqn property : String} (struct : Json) {schema : Json}
    {r r' : Resolver ε} {t : TypeExpr}
    (h : exec (emitInner emit (structFqn ++ "." ++ Name.fieldName property) schema
      (structFqn ++ "." ++ Name.fieldName property)) r = (.ok t, r')) :
    ∃ f, exec (field emit structFqn struct property schema) r = (.ok f, r') ∧
      f.schemaName = property ∧ f.type = t ∧
      (Name.IsKeyFor (Name.fieldName property) f.name ↔
        ¬ Name.EndsLine (Name.fieldName property)) ∧
      (Name.EndsLine (Name.fieldName property) → f.name = Name.fieldName property) := by
  obtain ⟨f, hf, hnamed, htype⟩ := exists_field struct h
  refine ⟨f, hf, hnamed.schemaName, htype, ?_, ?_⟩
  · rw [hnamed.name]
    exact Name.isKeyFor_fieldKey_iff _
  · rw [hnamed.name]
    exact Name.fieldKey_of_endsLine

/-- The schema of a text. -/
def textSchema : Json := .obj [("type", .str "string")]

/-- The key of a property whose name is no identifier. -/
theorem isKeyFor_field_dashed :
    let place := "S" ++ "." ++ Name.fieldName "é-1"
    ∃ r', exec (emitInner (emitWith 1) place textSchema place) (fresh [] .empty : Resolver Empty) =
        (.ok (.scalar .string), r') ∧
      ∃ f, exec (field (emitWith 1) "S" (.obj []) "é-1" textSchema)
          (fresh [] .empty : Resolver Empty) = (.ok f, r') ∧
        Name.IsKeyFor "é-1" f.name ∧ ¬ Name.EndsLine "é-1" := by
  intro place
  have hname : Name.fieldName "é-1" = "é-1" := by decide +kernel
  have hends : ¬ Name.EndsLine "é-1" := fun h => absurd h.mem (by decide +kernel)
  have hok : (exec (emitInner (emitWith 1) place textSchema place)
      (fresh [] .empty : Resolver Empty)).1 = .ok (.scalar .string) :=
    eq_ok_of_toOption (by decide +kernel)
  obtain ⟨f, hf, -, -, hkey, -⟩ := isKeyFor_field_iff (.obj []) (Prod.ext hok rfl)
  rw [hname] at hkey
  exact ⟨_, Prod.ext hok rfl, f, hf, hkey.mpr hends, hends⟩

/-- **A line feed at the end of a name stays in the key**, which is then neither an identifier
nor a literal. -/
theorem line_feed_stays_in_key :
    ∃ f r', exec (field (emitWith 1) "S" (.obj []) "abc\n" textSchema)
        (fresh [] .empty : Resolver Empty) = (.ok f, r') ∧
      Name.fieldName "abc\n" = "abc\n" ∧ f.name = "abc\n" ∧ ¬ Name.IsKeyFor "abc\n" f.name := by
  have hname : Name.fieldName "abc\n" = "abc\n" := by decide +kernel
  have hends : Name.EndsLine "abc\n" := ⟨"abc", by decide, by decide⟩
  let place := "S" ++ "." ++ Name.fieldName "abc\n"
  have hok : (exec (emitInner (emitWith 1) place textSchema place)
      (fresh [] .empty : Resolver Empty)).1 = .ok (.scalar .string) :=
    eq_ok_of_toOption (by decide +kernel)
  obtain ⟨f, hf, hnamed, -⟩ := exists_field (.obj []) (Prod.ext hok rfl)
  have hkey := hnamed.name
  rw [hname] at hkey
  refine ⟨f, _, hf, hname, ?_, ?_⟩
  · rw [hkey, Name.fieldKey_of_endsLine hends]
  · rw [hkey, Name.isKeyFor_fieldKey_iff]
    exact not_not_intro hends

end Resolver
end SchemaScript
