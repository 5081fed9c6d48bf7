import SchemaScript.Proofs.DefaultRuns

/-!
# Requests for what is not defined

A name that is picked out need not be defined.  Nothing is found for it, and emission then looks
for its type name among the definitions: nobody compares the two names.  If nothing is defined
there either, the request fails, and so does the run.  But the definition of the last part of a
path is found for the whole path, and it is emitted as if it was what was asked for.

## Main definitions

* `Document.Substitutes` — a definition is emitted in the place of one that is missing.

## Main results

* `exec_emitNamed_of_notMem` — requests for names that are not defined.
* `missing_of_generate` — runs with such a request.
* `missing_is_substituted` — a run that emits another definition.
-/

namespace SchemaScript

open Stateful

namespace Definitions

/-- Without the start of a reference, a name is no other name's type name: a path has a dot, and
what is left of a name without one is shorter. -/
theorem withoutStart_ne_ofDefinition {name : String} (h : Name.ofDefinition name ≠ name) :
    withoutStart name ≠ Name.ofDefinition name := by
  intro heq
  by_cases hdot : '.' ∈ name.toList
  · have hmem := dot_mem_withoutStart hdot
    rw [heq] at hmem
    exact Name.notMem_ofDefinition name hmem
  · cases hrest : Text.after? refStart.toList name.toList with
    | none =>
      have hself : withoutStart name = name := by
        rw [withoutStart, path?, hrest]
        rfl
      exact h (heq.symm.trans hself)
    | some rest =>
      have happend := Text.eq_append_of_after? hrest
      have hleft : (Name.ofDefinition name).toList = rest := by
        rw [← heq, withoutStart, path?, hrest, Option.map_some, Option.getD_some,
          String.toList_ofList]
      -- folding changes no lengths, and the capital form of the first character is that character
      have hcapital : Name.capitalFirst name.toList = name.toList := by
        refine Name.capitalFirst_eq_self fun c hc => ?_
        rw [happend] at hc
        cases hc
        decide +kernel
      have hlength := congrArg List.length hleft
      rw [Name.ofDefinition_of_notMem hdot, Name.typeName, String.toList_ofList,
        Name.typeNameChars, hcapital, Name.foldAcronyms_eq, Name.length_foldFrom, happend,
        List.length_append] at hlength
      have hstart : 0 < refStart.toList.length := by decide
      omega

end Definitions

/-! ### One request -/

namespace Resolver

variable {ε : Type}

/-- In the place of `null` there is what is defined under the type name, if anything is. -/
theorem exec_emit_null (typeName : String) (fqn : Option String) (r : Resolver ε) :
    exec (emit typeName (.inline .null) fqn) r =
      if (r.definitions.get typeName).isNull then (.error (.unknownType typeName), r)
      else exec (emit typeName (r.definitions.node typeName) fqn) r := by
  by_cases hnull : (r.definitions.get typeName).isNull = true
  · have hlooked : r.nodeFor typeName (.inline .null) = .error (.unknownType typeName) :=
      if_pos hnull
    rw [if_pos hnull, exec_emit_eq_step, exec_emitStep, hlooked]
  · have hlooked : r.nodeFor typeName (.inline .null) = .ok (r.definitions.node typeName) :=
      if_neg hnull
    -- what is found is not looked up again
    have hfound : r.nodeFor typeName (r.definitions.node typeName) =
        .ok (r.definitions.node typeName) := if_neg hnull
    rw [if_neg hnull, exec_emit_eq_step, exec_emit_eq_step, exec_emitStep, exec_emitStep, hlooked,
      hfound]

variable {r : Resolver ε} {name : String}

/-- **A request for a name that is not defined** is one for what is defined under its type name,
and it fails if nothing is. -/
theorem exec_emitNamed_of_notMem (h : name ∉ r.definitions.names) :
    exec (emitNamed name) r =
      if (r.definitions.get (Name.ofDefinition name)).isNull then
        (.error (.unknownType (Name.ofDefinition name)), r)
      else exec (emit (Name.ofDefinition name) (r.definitions.node (Name.ofDefinition name))
        (some name)) r := by
  rw [exec_emitNamed, Definitions.node_of_notMem h, exec_emit_null]

/-- If such a request succeeds, a definition of another name was found. -/
theorem found_of_notMem (h : name ∉ r.definitions.names) {t : TypeExpr} {r' : Resolver ε}
    (hexec : exec (emitNamed name) r = (.ok t, r')) :
    (r.definitions.get (Name.ofDefinition name)).isNull = false ∧
      Name.ofDefinition name ≠ name ∧
        exec (emit (Name.ofDefinition name) (r.definitions.node (Name.ofDefinition name))
          (some name)) r = (.ok t, r') := by
  rw [exec_emitNamed_of_notMem h] at hexec
  split at hexec
  · cases hexec
  · next hnull =>
    refine ⟨by rwa [Bool.not_eq_true] at hnull, fun heq => hnull ?_, hexec⟩
    rw [heq, Definitions.get_of_notMem h]
    rfl

/-- What is found is not the definition of the place.  So if it is to be declared, no expression
that is remembered can stand in for the declaration. -/
theorem isKnown_emitNamed_of_notMem (hd : r.definitions.Distinct)
    (h : name ∉ r.definitions.names) {kind : Kind}
    (hc : Schema.classify (r.definitions.get (Name.ofDefinition name)) = .ok kind)
    (hk : kind.isNamed = true) {t : TypeExpr} {r' : Resolver ε}
    (hexec : exec (emitNamed name) r = (.ok t, r')) :
    r'.queue.isKnown (Name.ofDefinition name) = true := by
  obtain ⟨-, hne, hemit⟩ := found_of_notMem h hexec
  have hother : r.isDefinition (Name.ofDefinition name)
      (r.definitions.node (Name.ofDefinition name))
      (Definitions.withoutStart ((some name).getD (Name.ofDefinition name))) = false := by
    rw [Bool.eq_false_iff]
    intro hdef
    rw [isDefinition, Bool.and_eq_true] at hdef
    exact Definitions.withoutStart_ne_ofDefinition hne (Definitions.eq_of_holds_node hd hdef.1)
  have hknown := isKnown_emit hc hk hother (congrArg Prod.fst hemit)
  rwa [hemit] at hknown

end Resolver

/-! ### Runs -/

namespace Document

open Resolver

/-- A definition is emitted in the place of one that is missing. -/
structure Substitutes (s : Settings) (commandLine : String) (es : List Exclusion)
    (ds : Definitions) (before : List Json) (name text : String) : Prop where
  /-- It has another name, the type name of the one asked for. -/
  other : Name.ofDefinition name ≠ name
  defined : Name.ofDefinition name ∈ ds.names
  notNull : (ds.get (Name.ofDefinition name)).isNull = false
  /-- It answers the request, once the ones before are answered. -/
  emitted : ∃ (r r' : Resolver Empty) (t : TypeExpr),
    exec (do emitAll before; note (.emitting name (Name.ofDefinition name))) (fresh es ds) =
        (.ok (), r) ∧
      exec (emitNamed name) r = (.ok t, r') ∧
      exec (emit (Name.ofDefinition name) (ds.node (Name.ofDefinition name)) (some name)) r =
        (.ok t, r')
  /-- If it is to be declared, the text has a declaration of its name. -/
  declared : ∀ kind, Schema.classify (ds.get (Name.ofDefinition name)) = .ok kind →
    kind.isNamed = true → ∃ decls page, IsText s commandLine decls page text ∧
      ∃ d ∈ decls, d.name = Name.ofDefinition name ∧
        ∃ word, Declaration.headLine word d.name ∈ page.lines

section

variable {compile : Compiler} {schema : Json} {s : Settings} {name : String}
  {before after : List Json}

/-- All requests up to one that succeeds, and the others. -/
theorem exec_emitAll_split {r r' : Resolver Empty}
    (h : exec (emitAll (before ++ .str name :: after)) r = (.ok (), r')) :
    ∃ r₁ t r₂,
      exec (do emitAll before; note (.emitting name (Name.ofDefinition name))) r = (.ok (), r₁) ∧
        Grows r r₁ ∧ exec (emitNamed name) r₁ = (.ok t, r₂) ∧ Grows r₂ r' := by
  rw [exec_emitAll_append] at h
  have hbefore := grows_emitAll before r
  rcases hx : exec (emitAll before) r with ⟨e | u, r₀⟩ <;> rw [hx] at h hbefore
  · cases h
  · dsimp only at h
    obtain ⟨t, r₂, hname, hafter⟩ := exec_emitAll_cons_eq_ok h
    have hgrows := grows_emitAll after r₂
    rw [hafter] at hgrows
    exact ⟨_, t, r₂, exec_bind_ok hx, hbefore.trans (Grows.noted r₀ _), hname, hgrows⟩

/-- If nothing is found for a request, the run fails there, if not before. -/
theorem generate_eq_error_of_notMem
    (hitems : s.emitTypes.items = .ok (before ++ .str name :: after))
    {es : List Exclusion} {ds : Definitions} (h : Reads compile schema s es ds)
    (hname : name ∉ ds.names)
    (hnull : (ds.get (Name.ofDefinition name)).isNull = true) (commandLine : String) :
    (generateWith compile schema s commandLine).1 = .error
      (match exec (emitAll before) (fresh es ds : Resolver Empty) with
      | (.ok _, _) => .unknownType (Name.ofDefinition name)
      | (.error e, _) => e) := by
  have hgrows := grows_emitAll before (fresh es ds : Resolver Empty)
  rw [h.generate_eq (requests_of_items hitems (by simp) _), exec_emitAll_append]
  rcases hx : exec (emitAll before) (fresh es ds : Resolver Empty) with ⟨e | u, r⟩
  · rfl
  · rw [hx] at hgrows
    let r₁ : Resolver Empty := r.noted [.emitting name (Name.ofDefinition name)]
    have hdefs : r₁.definitions = ds := hgrows.definitions
    have hfails : exec (emitNamed name) r₁ =
        (.error (.unknownType (Name.ofDefinition name)), r₁) := by
      rw [exec_emitNamed_of_notMem (by rwa [hdefs]), hdefs, if_pos hnull]
    dsimp only
    rw [exec_emitAll_cons, hfails]

/-- If there is a text, something was found. -/
theorem substitutes_of_generate (hitems : s.emitTypes.items = .ok (before ++ .str name :: after))
    {es : List Exclusion} {ds : Definitions} (h : Reads compile schema s es ds)
    (hname : name ∉ ds.names)
    {commandLine text : String} (htext : (generateWith compile schema s commandLine).1 = .ok text) :
    Substitutes s commandLine es ds before name text := by
  rw [h.generate_eq (requests_of_items hitems (by simp) _)] at htext
  have hu := isUnwritten_emitAll (before ++ .str name :: after)
    (isUnwritten_fresh (ε := Empty) es ds)
  rcases hx : exec (emitAll (before ++ .str name :: after)) (fresh es ds : Resolver Empty)
    with ⟨e | u, r⟩ <;> rw [hx] at htext hu
  · cases htext
  · obtain ⟨r₁, t, r₂, hbefore, hgrows, hemit, hafter⟩ := exec_emitAll_split hx
    have hdefs : r₁.definitions = ds := hgrows.definitions
    have hname₁ : name ∉ r₁.definitions.names := by rwa [hdefs]
    obtain ⟨hnull, hne, hfound⟩ := found_of_notMem hname₁ hemit
    rw [hdefs] at hnull hfound
    refine ⟨hne, Definitions.mem_names_of_get hnull, hnull, ⟨r₁, r₂, t, hbefore, hemit, hfound⟩,
      fun kind hc hk => ?_⟩
    have hdistinct : r₁.definitions.Distinct := hdefs.symm ▸ h.distinct
    have hknown := isKnown_emitNamed_of_notMem hdistinct hname₁ (hdefs.symm ▸ hc) hk hemit
    obtain ⟨d, hd, hdname⟩ := hu.exists_of_isKnown (hafter.isKnown hknown)
    obtain ⟨page, ht⟩ := exists_isText_of_textFor htext
    exact ⟨_, page, ht, d, hd, hdname, ht.exists_headLine hd⟩

/-- **Runs with a request for what is not defined.**  If nothing is defined under its type name
either, there is no text: the run fails there, or before.  If there is a text, another definition
is emitted in the place of the one that is missing.  This is so for every compiler of
patterns. -/
theorem missing_of_generate (hitems : s.emitTypes.items = .ok (before ++ .str name :: after))
    (hmissing : ∀ es ds, Reads compile schema s es ds → name ∉ ds.names) (commandLine : String) :
    ((∀ es ds, Reads compile schema s es ds → (ds.get (Name.ofDefinition name)).isNull = true) →
      ∃ e, (generateWith compile schema s commandLine).1 = .error e) ∧
    (∀ es ds, Reads compile schema s es ds → (ds.get (Name.ofDefinition name)).isNull = true →
      (generateWith compile schema s commandLine).1 = .error
        (match exec (emitAll before) (fresh es ds : Resolver Empty) with
        | (.ok _, _) => .unknownType (Name.ofDefinition name)
        | (.error e, _) => e)) ∧
    ∀ text, (generateWith compile schema s commandLine).1 = .ok text →
      ∃ es ds, Reads compile schema s es ds ∧ Substitutes s commandLine es ds before name text := by
  refine ⟨fun hnull => ?_, fun es ds hreads hnull => ?_, fun text htext => ?_⟩
  · rcases reads_or_fails compile schema s commandLine with ⟨es, ds, hreads⟩ | ⟨e, he, -⟩
    · exact ⟨_, generate_eq_error_of_notMem hitems hreads (hmissing es ds hreads)
        (hnull es ds hreads) commandLine⟩
    · exact ⟨e, he⟩
  · exact generate_eq_error_of_notMem hitems hreads (hmissing es ds hreads) hnull commandLine
  · rcases reads_or_fails compile schema s commandLine with ⟨es, ds, hreads⟩ | ⟨e, he, -⟩
    · exact ⟨es, ds, hreads, substitutes_of_generate hitems hreads (hmissing es ds hreads) htext⟩
    · rw [he] at htext
      cases htext

end

/-! ### A request for a path -/

/-- An interface, and an alias for it. -/
def leaflet : Json := .obj [("definitions", .obj [("Leaflet", .obj [("properties", .obj [])])])]

/-- Settings with an alias, one request and no comment. -/
def requesting (name : String) : Settings :=
  { Settings.usual with
    aliases := .obj [("Flyer", .str "Leaflet")]
    emitTypes := .arr [.str name]
    generationComment := .bool false }

theorem names_of_reads_leaflet {compile : Compiler} {name : String} {es : List Exclusion}
    {ds : Definitions} (h : Reads compile leaflet (requesting name) es ds) :
    ds.names = ["Leaflet", "Flyer"] := by
  obtain ⟨given, as, hr, has, rfl⟩ := h
  obtain ⟨es', given', -, hgiven, heq⟩ := resolver_eq_ok hr
  cases has
  cases hgiven
  cases heq
  rfl

theorem reads_leaflet (compile : Compiler) (name : String) :
    Reads compile leaflet (requesting name) []
      (definitionsOf [("Leaflet", .obj [("properties", .obj [])])]
        [("Flyer", .str "Leaflet")]) :=
  ⟨_, _, rfl, rfl, rfl⟩

theorem generate_leaflet : (generate leaflet (requesting "print.Leaflet") "").1 = .ok
    "/**\n * @schema print.Leaflet\n */\nexport interface Leaflet \x7b\n\x7d\n\n" :=
  eq_ok_of_toOption (by decide +kernel)

/-- Neither of two paths is defined: one fails, for its last part is not defined either, and the
other one is answered with the interface. -/
theorem missing_of_generate_leaflet :
    (∀ name, (requesting name).emitTypes.items = .ok ([] ++ .str name :: [])) ∧
    (∀ name ∈ ["print.Brochure", "print.Leaflet"], ∀ es ds,
      Reads Pattern.compile? leaflet (requesting name) es ds → name ∉ ds.names) ∧
    (generate leaflet (requesting "print.Brochure") "").1 = .error (.unknownType "Brochure") ∧
    ∃ es ds text, (generate leaflet (requesting "print.Leaflet") "").1 = .ok text ∧
      Substitutes (requesting "print.Leaflet") "" es ds [] "print.Leaflet" text := by
  have hmissing : ∀ name ∈ ["print.Brochure", "print.Leaflet"], ∀ es ds,
      Reads Pattern.compile? leaflet (requesting name) es ds → name ∉ ds.names := by
    intro name hname es ds h
    rw [names_of_reads_leaflet h]
    clear h
    revert name
    decide
  have hitems : ∀ name, (requesting name).emitTypes.items = .ok ([] ++ .str name :: []) :=
    fun _ => rfl
  refine ⟨hitems, hmissing, ?_, ?_⟩
  · have hbrochure := missing_of_generate (hitems "print.Brochure") (hmissing _ (by simp)) ""
    have herror := hbrochure.2.1 [] _ (reads_leaflet _ _) (by decide +kernel)
    rwa [show Name.ofDefinition "print.Brochure" = "Brochure" by decide +kernel] at herror
  · have hleaflet := missing_of_generate (hitems "print.Leaflet") (hmissing _ (by simp)) ""
    obtain ⟨es, ds, -, hsubstitutes⟩ := hleaflet.2.2 _ generate_leaflet
    exact ⟨es, ds, _, generate_leaflet, hsubstitutes⟩

/-- **A run that emits another definition**: the path is neither a definition nor an alias, but
its last part is defined. -/
theorem missing_is_substituted :
    (requesting "print.Leaflet").emitTypes = .arr [.str "print.Leaflet"] ∧
    (∀ es ds, Reads Pattern.compile? leaflet (requesting "print.Leaflet") es ds →
      "print.Leaflet" ∉ ds.names) ∧
    (generate leaflet (requesting "print.Leaflet") "").1 = .ok
      "/**\n * @schema print.Leaflet\n */\nexport interface Leaflet \x7b\n\x7d\n\n" := by
  refine ⟨rfl, fun es ds h => ?_, generate_leaflet⟩
  rw [names_of_reads_leaflet h]
  decide

end Document
end SchemaScript
