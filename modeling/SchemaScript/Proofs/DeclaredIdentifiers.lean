import SchemaScript.Proofs.Name.Identifiers
import SchemaScript.Proofs.Shadowing

/-!
# Declared names and identifiers

A declaration is called after a definition, after a definition whose items or values it
describes, or after the place of a property.  The second and third are names made from paths,
which keep letters and digits only; the first keeps every character.  Nothing looks at the
name again before it is written, so it is an identifier only if the names of the definitions
see to it.

If the type name of every definition is an identifier, and if it and the name of the
definition lead with letters, then this goes on along the ways down into schemas, and all
declared names are identifiers.

## Main definitions

* `KeepsIdentifiers` — a type name and a place from which only identifiers are made.
* `IsCalled` — what a declaration is called after, and when that makes an identifier.

## Main results

* `isCalled_of_generate` — which declared names of a text are identifiers.
* `declared_name_has_dash` — a name that is none.
-/

namespace SchemaScript

open Stateful

/-! ### Names on the ways down -/

/-- The type name is an identifier, and what is made from it and from the place leads with a
letter. -/
structure KeepsIdentifiers (typeName place : String) : Prop where
  identifier : Name.IsIdentifier typeName
  typeLetter : Name.leadsWithLetter typeName.toList = true
  placeLetter : Name.leadsWithLetter place.toList = true
  /-- The place does not start like a reference. -/
  plain : Definitions.withoutStart place = place

namespace Site

variable {ds : Definitions} {root s : Site}

theorem keepsIdentifiers_inner {seed place : String} (schema : Json)
    (hseed : Name.leadsWithLetter seed.toList = true)
    (hplace : Name.leadsWithLetter place.toList = true)
    (hplain : Definitions.withoutStart place = place) :
    KeepsIdentifiers (inner seed schema place).typeName (inner seed schema place).place where
  identifier := (Name.isIdentifier_ofPath_iff seed).mpr hseed
  typeLetter := Name.leadsWithLetter_ofPath hseed
  placeLetter := by
    rw [inner, hplain]
    exact hplace
  plain := by rw [inner, hplain, hplain]

/-- **Identifiers lead to identifiers**, down to any depth. -/
theorem keepsIdentifiers_of_within (h : Within ds root s)
    (hroot : KeepsIdentifiers root.typeName root.place) : KeepsIdentifiers s.typeName s.place := by
  induction h with
  | self => exact hroot
  | lookUp _ _ ih => exact ih
  | items _ _ ih => exact keepsIdentifiers_inner _ ih.typeLetter ih.placeLetter ih.plain
  | values _ _ ih => exact keepsIdentifiers_inner _ ih.typeLetter ih.placeLetter ih.plain
  | @property t p _ _ _ _ ih =>
    have hplain : Definitions.withoutStart (t.propertyPlace p.1) = t.propertyPlace p.1 :=
      Definitions.withoutStart_append_dot ih.plain _
    have hletter : Name.leadsWithLetter (t.propertyPlace p.1).toList = true := by
      rw [propertyPlace, String.append_assoc, String.toList_append]
      exact Name.leadsWithLetter_append ih.placeLetter _
    exact keepsIdentifiers_inner _ hletter hletter hplain

/-- A site on the way down has the type name of the root or one made from it, or one made from
a path that its place is the end of. -/
theorem typeName_of_within (h : Within ds root s) :
    s.typeName = root.typeName ∨ s.typeName = Name.ofPath root.typeName ∨
      ∃ path, s.typeName = Name.ofPath path ∧ s.place.toList <:+ path.toList := by
  -- going on to items and values, the name is made again and the place stays
  have hinner : ∀ {t : Site} {schema : Json},
      (t.typeName = root.typeName ∨ t.typeName = Name.ofPath root.typeName ∨
        ∃ path, t.typeName = Name.ofPath path ∧ t.place.toList <:+ path.toList) →
      (inner t.typeName schema t.place).typeName = Name.ofPath root.typeName ∨
        ∃ path, (inner t.typeName schema t.place).typeName = Name.ofPath path ∧
          (inner t.typeName schema t.place).place.toList <:+ path.toList := by
    intro t schema ht
    rcases ht with ht | ht | ⟨path, ht, hplace⟩
    · exact Or.inl (congrArg Name.ofPath ht)
    · left
      rw [inner, ht, Name.ofPath_ofPath]
    · refine Or.inr ⟨path, ?_, (Definitions.withoutStart_suffix _).trans hplace⟩
      rw [inner, ht, Name.ofPath_ofPath]
  induction h with
  | self => exact Or.inl rfl
  | lookUp _ _ ih => exact ih
  | items _ _ ih => exact Or.inr (hinner ih)
  | values _ _ ih => exact Or.inr (hinner ih)
  | @property t p _ _ _ _ _ =>
    exact Or.inr (Or.inr ⟨t.propertyPlace p.1, rfl, Definitions.withoutStart_suffix _⟩)

end Site

/-! ### Declarations -/

/-- What a declaration is called after, and when its name is an identifier. -/
inductive IsCalled {ε : Type} (ds : Definitions) (d : Declaration ε) : Prop
  /-- It has the type name of a definition. -/
  | definition {path : String} (h : path ∈ ds.names) (hname : d.name = Name.ofDefinition path)
    (hiff : Name.IsIdentifier d.name ↔
      Name.formsIdentifier (Name.capitalFirst (Name.lastComponent path).toList) = true)
  /-- Its name is made from the type name of a definition. -/
  | part {path : String} (h : path ∈ ds.names)
    (hname : d.name = Name.ofPath (Name.ofDefinition path))
    (hiff : Name.IsIdentifier d.name ↔
      Name.leadsWithLetter (Name.ofDefinition path).toList = true)
  /-- Its name is made from a path, and the place is the end of this. -/
  | property {path : String} (hname : d.name = Name.ofPath path)
    (hplace : d.fqn.toList <:+ path.toList)
    (hiff : Name.IsIdentifier d.name ↔ Name.leadsWithLetter path.toList = true)

namespace Resolver

variable {ε : Type} {ds : Definitions} {s : Site} {d : Declaration ε}

theorem Declares.isCalled (h : Declares s (d.name, d)) (hs : ds.Stands s) : IsCalled ds d := by
  obtain ⟨path, place, hmem, -, hwithin⟩ := hs
  have hname : d.name = s.typeName := h.name
  have hplace : d.fqn = s.place := h.fqn
  rcases Site.typeName_of_within hwithin with htype | htype | ⟨seed, htype, hend⟩
  · refine .definition hmem (hname.trans htype) ?_
    rw [hname, htype]
    exact Name.isIdentifier_ofDefinition_iff path
  · refine .part hmem (hname.trans htype) ?_
    rw [hname, htype]
    exact Name.isIdentifier_ofPath_iff _
  · refine .property (hname.trans htype) (hplace ▸ hend) ?_
    rw [hname, htype]
    exact Name.isIdentifier_ofPath_iff seed

theorem Declares.isIdentifier (h : Declares s (d.name, d)) (hs : ds.Stands s)
    (hds : ∀ path ∈ ds.names, KeepsIdentifiers (Name.ofDefinition path) path) :
    Name.IsIdentifier d.name := by
  obtain ⟨path, place, hmem, hplace, hwithin⟩ := hs
  have hpath := hds path hmem
  obtain rfl : place = path := by
    rcases hplace with hplace | hplace
    · exact hplace
    · exact hplace.trans hpath.plain
  rw [show d.name = s.typeName from h.name]
  exact (Site.keepsIdentifiers_of_within hwithin hpath).identifier

end Resolver

/-! ### Texts -/

namespace Document

open Resolver

/-- **Which declared names are identifiers.**  Every declaration in the text is called after a
definition or a place, and its name is an identifier exactly if what it is called after has the
letters for it.  If the names of all definitions lead to identifiers, all declared names are
identifiers. -/
theorem isCalled_of_generate {compile : Compiler} {schema : Json} {s : Settings}
    {commandLine text : String} (hs : s.SelectsAll)
    (h : (generateWith compile schema s commandLine).1 = .ok text) :
    ∃ ds decls page, Definitions.ofJson (schema.get "definitions") = .ok ds ∧
      IsText s commandLine decls page text ∧ (∀ d ∈ decls, d.IsOn page ∧ IsCalled ds d) ∧
      ((∀ path ∈ ds.names, KeepsIdentifiers (Name.ofDefinition path) path) →
        ∀ d ∈ decls, Name.IsIdentifier d.name) := by
  obtain ⟨ds, r, page, hds, -, ht, -, hf, -⟩ := founded_of_generate hs h
  refine ⟨ds, r.queue.declarations, page, hds, ht, ?_, ?_⟩
  · intro d hd
    obtain ⟨t, hst, hdecl⟩ := exists_declares hf hd
    exact ⟨ht.isOn hd, hdecl.isCalled hst⟩
  · intro hnames d hd
    obtain ⟨t, hst, hdecl⟩ := exists_declares hf hd
    exact hdecl.isIdentifier hst hnames

/-- A definition with a dash in front of the last part of its name, and an enum inside. -/
def dashedPath : List (String × Json) :=
  [("my-lib.Box", .obj [("properties", .obj [
    ("kind-of", .obj [("type", .str "string"), ("enum", .arr [.str "x"])])])])]

/-- Both declared names are identifiers, that of the definition and that of the enum. -/
theorem isCalled_of_generate_dashedPath :
    let schema : Json := .obj [("definitions", .obj dashedPath)]
    let ds := Definitions.empty.defineAll dashedPath
    Settings.usual.SelectsAll ∧ ∃ text decls page, (generate schema .usual "").1 = .ok text ∧
      IsText .usual "" decls page text ∧
      (∀ path ∈ ds.names, KeepsIdentifiers (Name.ofDefinition path) path) ∧
      ∀ d ∈ decls, Name.IsIdentifier d.name := by
  intro schema ds
  have h : (generate schema .usual "").1 = .ok
      ("// Generated by json_schema_to_ts 0.1.0. DO NOT EDIT.\n// \n\n" ++
        "/**\n * @schema my-lib.Box\n */\nexport interface Box \x7b\n" ++
        "  /**\n   * @schema my-lib.Box#kind-of\n   */\n" ++
        "  readonly \"kind-of\"?: MyLibBoxKindOf;\n\n\x7d\n\n" ++
        "/**\n * @schema my-lib.Box.kind-of\n */\nexport enum MyLibBoxKindOf \x7b\n" ++
        "  /** x */\n  X = \"x\",\n\x7d\n\n") :=
    eq_ok_of_toOption (by decide +kernel)
  obtain ⟨ds', decls, page, hds, ht, -, hall⟩ := isCalled_of_generate Settings.selectsAll_usual h
  obtain rfl : ds' = ds := (Except.ok.inj hds).symm
  have hnames : ∀ path ∈ ds.names, KeepsIdentifiers (Name.ofDefinition path) path := by
    intro path hpath
    obtain rfl : path = "my-lib.Box" := by
      simpa using (show path ∈ ["my-lib.Box"] from hpath)
    exact ⟨by decide +kernel, by decide +kernel, by decide +kernel, by decide +kernel⟩
  exact ⟨Settings.selectsAll_usual, _, decls, page, h, ht, hnames, hall hnames⟩

/-- A definition with a dash in its name. -/
def dashed : List (String × Json) := [("foo-bar", .obj [("properties", .obj [])])]

/-- The text for the definition. -/
def dashedText : String :=
  "// Generated by json_schema_to_ts 0.1.0. DO NOT EDIT.\n// \n\n" ++
    "/**\n * @schema foo-bar\n */\nexport interface Foo-bar \x7b\n\x7d\n\n"

/-- **A declared name need not be an identifier**: the dash of the definition stands in the
declaration. -/
theorem declared_name_has_dash :
    (generate (.obj [("definitions", .obj dashed)]) .usual "").1 = .ok dashedText ∧
      ∃ decls page, IsText .usual "" decls page dashedText ∧
        ∃ d ∈ decls, d.name = "Foo-bar" ∧ ¬ Name.IsIdentifier d.name := by
  have h : (generate (.obj [("definitions", .obj dashed)]) .usual "").1 = .ok dashedText :=
    eq_ok_of_toOption (by decide +kernel)
  obtain ⟨r, hr, -, page, ht⟩ := exists_of_generate h
  obtain ⟨ds, hds, rfl⟩ := exists_of_resolver Settings.selectsAll_usual hr
  obtain rfl : ds = Definitions.empty.defineAll dashed := (Except.ok.inj hds).symm
  have hnames : (exec (emitRequests .usual)
      (fresh [] (Definitions.empty.defineAll dashed) : Resolver Empty)).2.queue.declarations.map
        (·.name) = ["Foo-bar"] := by decide +kernel
  obtain ⟨d, hd, hname⟩ := List.mem_map.mp (hnames ▸ List.mem_singleton.mpr rfl)
  refine ⟨h, _, page, ht, d, hd, hname, ?_⟩
  rw [hname]
  decide +kernel

end Document
end SchemaScript
