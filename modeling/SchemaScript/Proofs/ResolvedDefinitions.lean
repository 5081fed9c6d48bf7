import SchemaScript.Proofs.Aliases
import SchemaScript.Proofs.PublicRuns
import SchemaScript.Proofs.References

/-!
# Resolved definitions stay resolved

A definition that is no scalar is remembered under its type name when it is emitted as itself.
The table of what is remembered only grows at its end: an interface that fails cuts off what
came after it was queued, and no more.  So whatever is done later, a request for the definition
is answered from the table, as itself or by a reference, and changes nothing.

One request by a reference does change something.  A reference can be a definition, too, and
if it is emitted as that one, the answer is remembered under its own type name.

## Main definitions

* `Resolver.Resolves` — a definition is emitted as itself, with an expression.
* `Resolver.Requests` — a schema that is a reference is admitted, and so is what it leads to.
* `Resolver.IsResolvedTo` — requests for a definition are answered with an expression.

## Main results

* `isResolvedTo_operateAll` — a resolved definition stays resolved during a history.
* `isResolvedTo_of_reaches` — and during a run of public commands.
* `resolved_ne_of_registered_reference` — a registered reference is remembered.
-/

namespace SchemaScript
namespace Resolver

open Stateful

variable {ε : Type}

/-! ### What histories leave in place -/

/-- Exclusions stay, and what is remembered grows at its end. -/
structure Retains (r r' : Resolver ε) : Prop where
  exclusions : r'.exclusions = r.exclusions
  resolved : r.resolved.entries <+: r'.resolved.entries

namespace Retains

variable {r r' r'' : Resolver ε}

theorem refl (r : Resolver ε) : Retains r r := ⟨rfl, List.prefix_rfl⟩

theorem trans (h : Retains r r') (h' : Retains r' r'') : Retains r r'' :=
  ⟨h'.exclusions.trans h.exclusions, h.resolved.trans h'.resolved⟩

end Retains

/-- One operation. -/
theorem retains_operate (op : Operation ε) (r : Resolver ε) :
    Retains r (exec (operate op) r).2 := by
  cases op with
  | emit typeName node fqn =>
    rw [exec_operate_emit]
    have hgrows := grows_emit typeName node fqn r
    exact ⟨hgrows.exclusions, hgrows.resolved⟩
  | takeOver name script =>
    rw [exec_operate_takeOver, exec_enqueueCustom]
    dsimp only
    split <;> exact ⟨rfl, List.prefix_rfl⟩
  | define name node => exact ⟨rfl, List.prefix_rfl⟩
  | addAlias name target => exact ⟨rfl, List.prefix_rfl⟩
  | retire name =>
    rw [exec_operate_retire]
    split <;> exact ⟨rfl, List.prefix_rfl⟩

/-- A whole history. -/
theorem retains_operateAll (ops : List (Operation ε)) (r : Resolver ε) :
    Retains r (operateAll ops r).2 := by
  induction ops generalizing r with
  | nil => exact Retains.refl r
  | cons op ops ih => exact (retains_operate op r).trans (ih _)

/-! ### Definitions emitted as themselves -/

/-- What is defined under the name is no scalar, and it is emitted as itself with the
expression. -/
structure Resolves (r : Resolver ε) (name : String) (t : TypeExpr) (r' : Resolver ε) : Prop where
  /-- The name does not start as a reference does. -/
  bare : Definitions.withoutStart name = name
  kind : ∃ kind, Schema.classify (r.definitions.get name) = .ok kind ∧ kind.scalar? = none
  given : exec (emit (Name.ofDefinition name) (r.definitions.node name) (some name)) r = (.ok t, r')

/-- A definition under a bare name, emitted as itself. -/
theorem exec_emit_bare {r : Resolver ε} {name : String} {kind : Kind}
    (hbare : Definitions.withoutStart name = name)
    (ha : r.admission (Name.ofDefinition name) (r.definitions.node name) name = .ok kind)
    (hs : kind.scalar? = none) :
    exec (emit (Name.ofDefinition name) (r.definitions.node name) (some name)) r =
      exec (emitDefinition emitAt kind (Name.ofDefinition name) (r.definitions.get name)
        name) r := by
  have hnull := Schema.not_isNull_of_classify (classify_of_admission ha) hs
  rw [exec_emit_eq_step, exec_emitStep, nodeFor_of_not_isNull r hnull]
  simp only [Option.getD_some, hbare, ha, hs, isDefinition_node hnull, if_true]
  rfl

/-- The expression of a definition that was emitted is remembered. -/
theorem find?_of_emitDefinition {emit : Emitting ε} {kind : Kind} {typeName fqn : String}
    {schema : Json} {r r' : Resolver ε} {t : TypeExpr}
    (h : exec (emitDefinition emit kind typeName schema fqn) r = (.ok t, r')) :
    r'.resolved.find? typeName = some t := by
  rw [exec_emitDefinition] at h
  cases hfind : r.resolved.find? typeName with
  | some u =>
    rw [hfind] at h
    cases h
    exact hfind
  | none =>
    rw [hfind] at h
    rcases hexec : exec (emitKind emit kind typeName schema fqn) (r.opened typeName ⟨fqn, kind⟩)
      with ⟨o, v⟩
    rw [hexec] at h
    dsimp only at h
    split at h
    · cases o with
      | error e => cases h
      | ok u =>
        cases h
        simp [remembered, Table.find?_insert]
    · cases h

namespace Resolves

variable {r r' : Resolver ε} {name : String} {t : TypeExpr}

/-- Since the emission was answered, it was admitted. -/
theorem admission (h : Resolves r name t r') :
    ∃ kind, r.admission (Name.ofDefinition name) (r.definitions.node name) name = .ok kind ∧
      kind.scalar? = none := by
  obtain ⟨kind, hk, hs⟩ := h.kind
  have hnull : (r.definitions.node name).schema.isNull = false :=
    Schema.not_isNull_of_classify hk hs
  have hgiven := h.given
  rw [exec_emit_eq_step, exec_emitStep, nodeFor_of_not_isNull r hnull] at hgiven
  dsimp only at hgiven
  rw [Option.getD_some, h.bare] at hgiven
  cases ha : r.admission (Name.ofDefinition name) (r.definitions.node name) name with
  | error e =>
    rw [ha] at hgiven
    cases hgiven
  | ok kind' =>
    have hk' : Schema.classify (r.definitions.get name) = .ok kind' := classify_of_admission ha
    rw [hk, Except.ok.injEq] at hk'
    exact ⟨kind', rfl, hk' ▸ hs⟩

/-- What was given is remembered. -/
theorem find? (h : Resolves r name t r') :
    r'.resolved.find? (Name.ofDefinition name) = some t := by
  obtain ⟨kind, ha, hs⟩ := h.admission
  have hgiven := h.given
  rw [exec_emit_bare h.bare ha hs] at hgiven
  exact find?_of_emitDefinition hgiven

end Resolves

/-! ### Requests by references -/

/-- The schema is a reference to the name and can be emitted under the type name at the
place, and no exclusion stops it. -/
structure Requests (r : Resolver ε) (typeName : String) (node : Node) (fqn : Option String)
    (name : String) : Prop where
  schema : node.schema = reference name
  named : Name.IsTypeName typeName
  admitted : r.isExcluded (Definitions.withoutStart (fqn.getD typeName)) = false
  free : Exclusion.stops r.exclusions name = false

/-- The schema is a definition, and would be emitted as that one. -/
abbrev IsRegistered (r : Resolver ε) (typeName : String) (node : Node) (fqn : Option String) :
    Prop :=
  r.isDefinition typeName node (Definitions.withoutStart (fqn.getD typeName)) = true

/-- A reference to what is remembered is answered. -/
theorem read_of_find? {r : Resolver ε} {name : String} {t : TypeExpr}
    (hfree : Exclusion.stops r.exclusions name = false)
    (hfind : r.resolved.find? (Name.ofDefinition name) = some t) (fqn : String) :
    r.read (reference name) fqn = .answered t [] := by
  unfold read
  rw [path?_reference]
  dsimp only
  rw [isExcluded_eq_stops, hfree, hfind]
  rfl

section

variable {r : Resolver ε} {typeName name : String} {node : Node} {fqn : Option String}
  {t : TypeExpr} (h : Requests r typeName node fqn name)

include h

/-- A request comes to the step that emits a reference. -/
theorem Requests.exec_eq :
    let place := Definitions.withoutStart (fqn.getD typeName)
    exec (emit typeName node fqn) r =
      if r.isDefinition typeName node place then
        exec (emitDefinition emitAt .ref typeName (reference name) place) r
      else exec (emitRef emitAt (reference name) place) r := by
  intro place
  have hnode : r.nodeFor typeName node = .ok node :=
    nodeFor_of_not_isNull r (by rw [h.schema]; rfl) typeName
  have hadm : r.admission typeName node place = .ok .ref := by
    have hplace := h.admitted
    rw [isExcluded, Option.isSome_eq_false_iff, Option.isNone_iff_eq_none] at hplace
    rw [admission, if_neg (not_not.mpr h.named), hplace, h.schema]
    rfl
  rw [exec_emit_eq_step, exec_emitStep, hnode]
  dsimp only
  rw [hadm, h.schema]
  rfl

/-- A reference that is not emitted as a definition is answered and changes nothing. -/
theorem Requests.exec_of_find? (hreg : ¬ r.IsRegistered typeName node fqn)
    (hfind : r.resolved.find? (Name.ofDefinition name) = some t) :
    exec (emit typeName node fqn) r = (.ok t, r) := by
  rw [h.exec_eq, if_neg hreg, exec_emitRef, read_of_find? h.free hfind]
  dsimp only
  rw [noted_nil]

/-- A reference that is emitted as a definition is answered and remembered. -/
theorem Requests.exec_of_isRegistered (hopening : r.opening = .empty)
    (hreg : r.IsRegistered typeName node fqn)
    (hother : ∀ u, r.resolved.find? typeName = some u → u = t)
    (hfind : r.resolved.find? (Name.ofDefinition name) = some t) :
    exec (emit typeName node fqn) r = (.ok t, r.remembered typeName t) := by
  rw [h.exec_eq, if_pos hreg, exec_emitDefinition]
  cases hown : r.resolved.find? typeName with
  | some u =>
    obtain rfl := hother u hown
    rw [remembered, Table.insert_of_find? hown]
  | none =>
    let place := Definitions.withoutStart (fqn.getD typeName)
    let o : Opening := ⟨place, .ref⟩
    have hread : (r.opened typeName o).read (reference name) place = .answered t [] :=
      read_of_find? (r := r.opened typeName o) h.free hfind place
    have hexec : exec (emitKind emitAt .ref typeName (reference name) place) (r.opened typeName o) =
        (.ok t, r.opened typeName o) := by
      rw [emitKind, exec_emitRef, hread]
      dsimp only
      rw [noted_nil]
    have hclosed : (r.opened typeName o).closed typeName = r := by
      rw [opened, closed, Table.erase_insert o (by rw [hopening]; exact List.not_mem_nil)]
    have hopen : (r.opened typeName o).opening.contains typeName = true := by
      simp [opened]
    dsimp only
    rw [hexec]
    dsimp only
    rw [if_pos hopen, hclosed]

end

/-! ### Resolved definitions -/

/-- Requests for the definition are answered with the expression and change nothing, but a
reference that is emitted as a definition is remembered, if nothing else is under its type
name. -/
structure IsResolvedTo (r : Resolver ε) (name : String) (t : TypeExpr) : Prop where
  itself : exec (emit (Name.ofDefinition name) (r.definitions.node name) (some name)) r = (.ok t, r)
  reference : ∀ typeName node fqn, Requests r typeName node fqn name →
    ¬ r.IsRegistered typeName node fqn → exec (emit typeName node fqn) r = (.ok t, r)
  registered : ∀ typeName node fqn, Requests r typeName node fqn name →
    r.IsRegistered typeName node fqn → (∀ u, r.resolved.find? typeName = some u → u = t) →
      exec (emit typeName node fqn) r = (.ok t, r.remembered typeName t)

/-- From a state on that retains what an emission left, and has the same under the name. -/
theorem isResolvedTo_of_retains {r r' r'' : Resolver ε} {name : String} {t : TypeExpr}
    (h : Resolves r name t r') (hretains : Retains r r'') (hafter : Retains r' r'')
    (hopening : r''.opening = .empty)
    (hsame : r''.definitions.node name = r.definitions.node name) :
    IsResolvedTo r'' name t := by
  have hfind : r''.resolved.find? (Name.ofDefinition name) = some t :=
    Table.find?_of_prefix hafter.resolved h.find?
  refine ⟨?_, fun typeName node fqn hreq hreg => hreq.exec_of_find? hreg hfind,
    fun typeName node fqn hreq hreg hother =>
      hreq.exec_of_isRegistered hopening hreg hother hfind⟩
  obtain ⟨kind, ha, hs⟩ := h.admission
  have ha' : r''.admission (Name.ofDefinition name) (r''.definitions.node name) name =
      .ok kind := by
    rw [hsame]
    unfold Resolver.admission exclusionOf at ha ⊢
    rwa [hretains.exclusions]
  rw [exec_emit_bare h.bare ha' hs, exec_emitDefinition, hfind]

/-- **A resolved definition stays resolved** during a history that does not define it again. -/
theorem isResolvedTo_operateAll {r r' : Resolver ε} (hr : r.IsSettled) {name : String}
    {t : TypeExpr} (h : Resolves r name t r') (ops : List (Operation ε))
    (hsame : (operateAll ops r').2.definitions.node name = r.definitions.node name) :
    IsResolvedTo (operateAll ops r').2 name t := by
  have hr' : r' =
      (exec (emit (Name.ofDefinition name) (r.definitions.node name) (some name)) r).2 :=
    (congrArg Prod.snd h.given).symm
  have hafter : Retains r' (operateAll ops r').2 := retains_operateAll ops r'
  have hbefore : Retains r r' := by
    have hgrows := grows_emit (Name.ofDefinition name) (r.definitions.node name) (some name) r
    rw [← hr'] at hgrows
    exact ⟨hgrows.exclusions, hgrows.resolved⟩
  have hsettled : r'.IsSettled := hr' ▸ isSettled_emit _ _ _ hr
  exact isResolvedTo_of_retains h (hbefore.trans hafter) hafter
    (isSettled_operateAll ops hsettled).opening hsame

/-- **A registered reference is remembered**: it is answered with the expression of the
resolved definition, but the state is another one, and so is a later answer. -/
theorem resolved_ne_of_registered_reference :
    let r₀ : Resolver Empty := fresh [] (Definitions.empty.defineAll
      [("D", .obj [("type", .str "object"), ("properties", .obj [])]), ("A", reference "D")])
    let r := (exec (emit (Name.ofDefinition "D") (r₀.definitions.node "D") (some "D")) r₀).2
    let r' := (exec (emit "A" (r.definitions.node "A") (some "A")) r).2
    Resolves r₀ "D" (.named "D") r ∧ Requests r "A" (r.definitions.node "A") (some "A") "D" ∧
      r.definitions.node "D" = r₀.definitions.node "D" ∧
        (exec (emit "A" (r.definitions.node "A") (some "A")) r).1 = .ok (.named "D") ∧ r' ≠ r ∧
          ((operateAll [.takeOver "A" none] r).2.ask "X" "A" none).1 = .ok (.named "A") ∧
            ((operateAll [.takeOver "A" none] r').2.ask "X" "A" none).1 = .ok (.named "D") := by
  intro r₀ r r'
  have hresolves : Resolves r₀ "D" (.named "D") r :=
    ⟨by decide +kernel, ⟨.struct, rfl, rfl⟩,
      Prod.ext (eq_ok_of_toOption (by decide +kernel)) rfl⟩
  have hdefinitions : r.definitions = r₀.definitions := (grows_emit _ _ _ r₀).definitions
  have hrequests : Requests r "A" (r.definitions.node "A") (some "A") "D" :=
    ⟨by rw [hdefinitions]; rfl, by decide +kernel, by decide +kernel, by decide +kernel⟩
  have hkeys : r.resolved.keys = ["D"] ∧ r'.resolved.keys = ["D", "A"] := by decide +kernel
  have hne : r' ≠ r := by
    intro h
    rw [h] at hkeys
    exact absurd (hkeys.1.symm.trans hkeys.2) (by decide)
  exact ⟨hresolves, hrequests, by rw [hdefinitions], eq_ok_of_toOption (by decide +kernel), hne,
    eq_ok_of_toOption (by decide +kernel), eq_ok_of_toOption (by decide +kernel)⟩

end Resolver

/-! ### Runs -/

namespace Workshop

open Stateful Machine Resolver

/-- **A resolved definition stays resolved.**  If at some state of a run of public commands a
definition is emitted as itself, every later state in which it is still the same answers
requests for it with the same expression. -/
theorem isResolvedTo_of_reaches (es : List Exclusion) (ds : Definitions) (cs : List Command)
    (hcs : ∀ c ∈ cs, isPublic c = true) {m₀ m₁ m : Machine}
    (h₀ : Reaches (.ofSession cs (.ofResolver (.fresh es ds))) m₀) (h₁ : Reaches m₀ m₁)
    (h : Reaches m₁ m) {name : String} {t : TypeExpr}
    (hresolves : Resolves m₀.workshop.resolver name t m₁.workshop.resolver)
    (hsame : m.workshop.resolver.definitions.node name =
      m₀.workshop.resolver.definitions.node name) :
    m.workshop.resolver.IsResolvedTo name t := by
  obtain ⟨⟨ops, hfirst⟩, hopen⟩ := (respects_ofSession hcs es ds).exists_operations h₀
  obtain ⟨⟨ops', hlast⟩, -⟩ := (hopen.exists_operations h₁).2.exists_operations h
  have hsettled : m₀.workshop.resolver.IsSettled :=
    hfirst ▸ isSettled_operateAll ops (isSettled_fresh es ds)
  rw [← hlast] at hsame ⊢
  exact isResolvedTo_operateAll hsettled hresolves ops' hsame

/-- Emitting a definition by its name emits it as itself. -/
theorem resolver_session_emitNamed (name : String) (w : Workshop Script) :
    (session [.emitNamed name] w).2.resolver =
      (exec (emit (Name.ofDefinition name) (w.resolver.definitions.node name) (some name))
        w.resolver).2 := by
  rw [← exec_emitNamed]
  show (exec (performStep (performWith 127) (.emitNamed name)) w).2.resolver = _
  rw [performStep, exec_resolving, exec_bind_pure]
  rfl

theorem resolver_session_emit (typeName : String) (schema : Json) (fqn : Option String)
    (w : Workshop Script) :
    (session [.emit typeName (.given schema) fqn] w).2.resolver =
      (exec (emit typeName (.inline schema) fqn) w.resolver).2 := by
  show (exec (performStep (performWith 127) (.emit typeName (.given schema) fqn)) w).2.resolver = _
  rw [performStep, exec_resolving, exec_bind_ok (exec_get _), exec_bind_pure]
  rfl

/-- A map of texts, and an interface that refers to it. -/
def mapAndRecord : Definitions :=
  Definitions.empty.defineAll
    [("Map", .obj [("additionalProperties", .obj [("type", .str "string")])]),
      ("Record", .obj [("properties", .obj [("map", reference "Map")])])]

/-- A declaration made by hand takes the name of the map and is written. -/
def takenName : List Command := [.takeOver "Map" (some [.line "map"]), .renderShared]

/-- An interface that fails behind another one. -/
def failing : Json :=
  .obj [("properties", .obj [("a", reference "Record"), ("b", .obj [("type", .str "array")])])]

/-- The map is emitted with its name taken, and stays resolved behind a failure. -/
theorem isResolvedTo_of_reaches_takenName :
    let w₀ := (session takenName (.ofResolver (.fresh [] mapAndRecord))).2
    let w₁ := (session [.emitNamed "Map"] w₀).2
    let w₂ := (session [.emit "Bad" (.given failing) none] w₁).2
    Resolves w₀.resolver "Map" (.map (.scalar .string)) w₁.resolver ∧
      w₂.resolver.definitions.node "Map" = w₀.resolver.definitions.node "Map" ∧
        w₂.resolver.queue.written = ["Map"] ∧ w₂.resolver.queue.names = [] ∧
          w₂.resolver.IsResolvedTo "Map" (.map (.scalar .string)) := by
  intro w₀ w₁ w₂
  have hresolves : Resolves w₀.resolver "Map" (.map (.scalar .string)) w₁.resolver :=
    ⟨by decide +kernel, ⟨.map, eq_ok_of_toOption (by decide +kernel), rfl⟩,
      Prod.ext (eq_ok_of_toOption (by decide +kernel)) (resolver_session_emitNamed "Map" w₀).symm⟩
  have hw₁ : w₁.resolver.definitions = w₀.resolver.definitions := by
    rw [resolver_session_emitNamed]
    exact (grows_emit _ _ _ w₀.resolver).definitions
  have hw₂ : w₂.resolver.definitions = w₁.resolver.definitions := by
    rw [resolver_session_emit]
    exact (grows_emit _ _ _ w₁.resolver).definitions
  have hsame : w₂.resolver.definitions.node "Map" = w₀.resolver.definitions.node "Map" := by
    rw [hw₂, hw₁]
  let rest : List Command := [.emit "Bad" (.given failing) none]
  exact ⟨hresolves, hsame, by decide +kernel, by decide +kernel,
    isResolvedTo_of_reaches [] mapAndRecord (takenName ++ ([.emitNamed "Map"] ++ rest))
      (by decide) (reaches_ofSession_append takenName ([.emitNamed "Map"] ++ rest) _)
      (reaches_ofSession_append [.emitNamed "Map"] rest w₀) (reaches_session rest w₁)
      hresolves hsame⟩

end Workshop
end SchemaScript
