import SchemaScript.Proofs.Emission.Failures
import SchemaScript.Proofs.Schemas

/-!
# Stable names

A type name starts with a character that is its own capital form, and has no acronym left to
fold; so taking the type name again changes nothing.  A name that is made from a path moreover
has letters and digits only and is made from itself.  Emission makes the names of the schemas
inside another one in this way: layer by layer arrays and maps go by one name, and nobody is
asked to emit under what is no type name.

## Main definitions

* `Name.IsFolded` — there is no acronym to fold.
* `Name.IsStable` — made of letters and digits, and left alone by both ways to make names.
* `Layer`, `IsWithin` — arrays and maps around a schema.

## Main results

* `Name.isTypeName_iff` — what type names look like.
* `Name.typeName_typeName` — the type name of a type name.
* `Resolver.exec_emitKind_layers` — the schema inside arrays and maps, and its name.
* `Resolver.emitStep_congr` — emissions lead to others under type names only.
* `Resolver.stable_names` — names made from paths, and what emission uses them for.
-/

namespace SchemaScript

open Stateful

/-! ### Type names -/

namespace Name

/-- No capital stands behind a capital, unless a small letter follows it. -/
def IsFolded (afterCapital : Bool) : List Char → Bool
  | [] => true
  | c :: cs => (!(afterCapital && c.isUpper) || startsSmall cs) && IsFolded c.isUpper cs

/-- Folding changes what is not folded, and nothing else. -/
theorem foldFrom_eq_self_iff {b : Bool} {cs : List Char} :
    foldFrom b cs = cs ↔ IsFolded b cs = true := by
  induction cs generalizing b with
  | nil => exact ⟨fun _ => rfl, fun _ => rfl⟩
  | cons c cs ih =>
    rw [foldFrom, IsFolded, List.cons.injEq, ih, Bool.and_eq_true (!_ || _)]
    refine and_congr_left fun _ => ?_
    by_cases hc : (b && c.isUpper && !startsSmall cs) = true
    · -- a capital is no small letter
      rw [if_pos hc]
      simp only [Bool.and_eq_true, Bool.not_eq_true'] at hc
      refine iff_of_false (fun hlower => ?_) (by simp [hc])
      have hsmall := Char.isUpper_toLower_eq_false c
      rw [hlower, hc.1.2] at hsmall
      cases hsmall
    · rw [if_neg hc]
      refine iff_of_true rfl ?_
      cases hb : (b && c.isUpper) <;> simp_all

/-- **What type names look like**: they start with a character that is its own capital form, and
have no acronym to fold. -/
theorem isTypeName_iff {s : String} :
    IsTypeName s ↔ (∀ c ∈ s.toList.head?, Text.capitals c = [c]) ∧
      IsFolded false s.toList = true := by
  have hchars : IsTypeName s ↔ foldFrom false (capitalFirst s.toList) = s.toList := by
    rw [IsTypeName, typeName, typeNameChars, foldAcronyms_eq, ← String.toList_inj,
      String.toList_ofList]
  rw [hchars]
  constructor
  · intro h
    have hfirst : ∀ c ∈ s.toList.head?, Text.capitals c = [c] := by
      intro c hc
      cases hs : s.toList with
      | nil => simp [hs] at hc
      | cons d cs =>
        rw [hs, List.head?_cons, Option.mem_some_iff] at hc
        subst hc
        rw [hs, capitalFirst] at h
        -- folding changes no lengths, so the capital form is one character
        have hlength : (Text.capitals d).length = 1 := by
          have := congrArg List.length h
          rw [length_foldFrom, List.length_append, List.length_cons] at this
          omega
        obtain ⟨e, he⟩ := List.length_eq_one_iff.mp hlength
        rw [he, List.singleton_append] at h
        have hhead := congrArg List.head? h
        rw [head?_foldFrom, List.head?_cons, List.head?_cons, Option.some.injEq] at hhead
        rw [he, hhead]
    rw [capitalFirst_eq_self hfirst] at h
    exact ⟨hfirst, foldFrom_eq_self_iff.mp h⟩
  · rintro ⟨hfirst, hfolded⟩
    rw [capitalFirst_eq_self hfirst]
    exact foldFrom_eq_self_iff.mpr hfolded

/-- **The type name of a type name is that name**, for there is nothing left to do: exactly the
names are left alone that start with a character that is its own capital form, and have no
acronym to fold. -/
theorem typeName_typeName (s : String) :
    typeName (typeName s) = typeName s ∧
      (typeName s = s ↔ (∀ c ∈ s.toList.head?, Text.capitals c = [c]) ∧
        IsFolded false s.toList = true) :=
  ⟨isTypeName_typeName s, isTypeName_iff⟩

/-- The capital form of one character can be an acronym. -/
example : typeName "ßX" = "Ssx" := by decide +kernel

/-! ### Names made from paths -/

/-- A name of letters and digits that both ways to make names leave alone. -/
structure IsStable (t : String) : Prop where
  alphanum : ∀ c ∈ t.toList, c.isAlphanum = true
  /-- It does not start with a small letter. -/
  start : ∀ c ∈ t.toList.head?, c.isLower = false
  typeName : typeName t = t
  ofPath : ofPath t = t

/-- **A name that is made from a path is stable**, for it is letters and digits in order. -/
theorem isStable_ofPath (path : String) : IsStable (ofPath path) where
  alphanum := isAlphanum_of_isFormed (isFormed_ofPath path)
  start := by
    intro c hc
    have hformed := isFormed_ofPath path
    cases hchars : (ofPath path).toList with
    | nil => simp [hchars] at hc
    | cons d cs =>
      rw [hchars, List.head?_cons, Option.mem_some_iff] at hc
      subst hc
      rw [hchars, isFormed_cons] at hformed
      rw [Bool.eq_false_iff]
      -- no letter stands before the first character
      exact fun hlower => Bool.false_ne_true (hformed.2.1 hlower)
  typeName := isTypeName_ofPath path
  ofPath := ofPath_ofPath path

end Name

/-! ### Layers -/

/-- What stands around a schema. -/
inductive Layer
  | array
  | map

namespace Layer

/-- The kind of a schema with the layer. -/
def kind : Layer → Kind
  | array => .array
  | map => .map

@[simp] theorem scalar?_kind (l : Layer) : l.kind.scalar? = none := by
  cases l <;> rfl

/-- The schema inside. -/
def inner : Layer → Json → Json
  | array, v => v.get "items"
  | map, v => v.get "additionalProperties"

/-- The expression with the layer. -/
def around : Layer → TypeExpr → TypeExpr
  | array, t => .array t
  | map, t => .map t

/-- The expression with several layers, the outermost first. -/
def allAround (ls : List Layer) (t : TypeExpr) : TypeExpr := ls.foldr around t

end Layer

/-- One schema stands inside another one, with these layers around it. -/
def IsWithin : List Layer → Json → Json → Prop
  | [], v, w => v = w
  | l :: ls, v, w =>
    Schema.classify v = .ok l.kind ∧ (l.inner v).isObject = true ∧ IsWithin ls (l.inner v) w

namespace Resolver

variable {ε : Type} {r : Resolver ε}

theorem mapValue_mapValue {α β γ σ : Type} (f : α → β) (g : β → γ) (o : Except Failure α × σ) :
    mapValue g (mapValue f o) = mapValue (fun a => g (f a)) o := by
  obtain ⟨e | a, s⟩ := o <;> rfl

/-- A layer is emitted with what is inside it, under the name made from its own. -/
theorem exec_emitKind_layer (emit : Emitting ε) (l : Layer) {v : Json}
    (hv : (l.inner v).isObject = true) (typeName place : String) (r : Resolver ε) :
    exec (emitKind emit l.kind typeName v place) r =
      mapValue l.around
        (exec (emit (Name.ofPath typeName) (.inline (l.inner v)) place) r) := by
  cases l with
  | array =>
    have hitems : (v.get "items").isObject = true := hv
    show exec (emitArray emit typeName v place) r = _
    rw [exec_emitArray, if_pos hitems]
    rfl
  | map =>
    show exec (emitMap emit typeName v place) r = _
    rw [exec_emitMap]
    rfl

/-- A schema that stands inside another one is emitted as what it is, unless an exclusion hits
the place. -/
theorem exec_emitAt_inline {v : Json} {kind : Kind} (hc : Schema.classify v = .ok kind)
    (hk : kind.scalar? = none) {typeName place : String} (hname : Name.IsTypeName typeName)
    (hfree : r.exclusionOf (Definitions.withoutStart place) = none) :
    exec (emitAt typeName (.inline v) place) r =
      exec (emitKind emitAt kind typeName v (Definitions.withoutStart place)) r := by
  have hnull : v.isNull = false := Schema.not_isNull_of_classify hc hk
  have hfound : r.nodeFor typeName (.inline v) = .ok (.inline v) :=
    nodeFor_of_not_isNull r (n := .inline v) hnull typeName
  have hadmitted : r.admission typeName (.inline v) (Definitions.withoutStart place) =
      .ok kind := by
    rw [admission, if_neg (not_not_intro hname), hfree]
    exact hc
  have hinline := not_isDefinition_inline hnull hfound (Definitions.withoutStart place)
  rw [emitAt, exec_emit_eq_step, Option.getD_some, exec_emitStep, hfound]
  simp only [hadmitted, hk, hinline, Bool.false_eq_true, if_false]
  rfl

/-- **The schema inside arrays and maps is emitted under one name**, however many there are. -/
theorem exec_emitKind_layers {l : Layer} {ls : List Layer} {v w : Json}
    (h : IsWithin (l :: ls) v w) (typeName : String) {place : String}
    (hfree : ∀ k < ls.length, r.exclusionOf (Definitions.withoutStart^[k + 1] place) = none) :
    exec (emitKind emitAt l.kind typeName v place) r =
      mapValue (Layer.allAround (l :: ls)) (exec (emitAt (Name.ofPath typeName) (.inline w)
        (Definitions.withoutStart^[ls.length] place)) r) := by
  obtain ⟨-, hv, h⟩ := h
  rw [exec_emitKind_layer emitAt l hv]
  induction ls generalizing l v typeName place with
  | nil =>
    cases h
    rfl
  | cons l' ls ih =>
    obtain ⟨hc, hv', h⟩ := h
    have hfirst : r.exclusionOf (Definitions.withoutStart place) = none :=
      hfree 0 (Nat.zero_lt_succ _)
    have hrest : ∀ k < ls.length, r.exclusionOf
        (Definitions.withoutStart^[k + 1] (Definitions.withoutStart place)) = none :=
      fun k hk => hfree (k + 1) (Nat.succ_lt_succ hk)
    rw [exec_emitAt_inline hc l'.scalar?_kind (Name.isTypeName_ofPath typeName) hfirst,
      exec_emitKind_layer emitAt l' hv', ih _ hrest hv' h, Name.ofPath_ofPath, mapValue_mapValue]
    rfl

/-! ### Names handed down -/

section

variable {emit emit' : Emitting ε}
  (h : ∀ typeName, Name.IsTypeName typeName → emit typeName = emit' typeName)

include h

theorem emitInner_congr (seed : String) (schema : Json) (fqn : String) :
    emitInner emit seed schema fqn = emitInner emit' seed schema fqn := by
  rw [emitInner, emitInner, h _ (Name.isTypeName_ofPath seed)]

theorem emitRef_congr (schema : Json) (fqn : String) :
    emitRef emit schema fqn = emitRef emit' schema fqn := by
  simp only [emitRef, h _ (Name.isTypeName_ofDefinition _)]

theorem fields_congr (structFqn : String) (struct : Json) (ps : List (String × Json)) :
    fields emit structFqn struct ps = fields emit' structFqn struct ps := by
  induction ps with
  | nil => rfl
  | cons p ps ih => simp only [fields, field, emitInner_congr h, ih]

theorem emitKind_congr (kind : Kind) (typeName : String) (schema : Json) (fqn : String) :
    emitKind emit kind typeName schema fqn = emitKind emit' kind typeName schema fqn := by
  cases kind with
  | ref => exact emitRef_congr h schema fqn
  | array => simp only [emitKind, emitArray, emitInner_congr h]
  | map => simp only [emitKind, emitMap, emitInner_congr h]
  | struct => simp only [emitKind, emitStruct, fields_congr h]
  | _ => rfl

/-- **A step leads to emissions under type names only**: what would be done under other names
makes no difference. -/
theorem emitStep_congr : emitStep emit = emitStep emit' := by
  funext typeName node fqn
  simp only [emitStep, emitDefinition, emitKind_congr h]

end

/-- **An emission fails for a name if that was asked for and is no type name**, and only then:
none of those that it leads to does. -/
theorem fails_for_name_iff {typeName name expected : String} {node : Node} {fqn : Option String} :
    (exec (emit typeName node fqn) r).1 = .error (.nameNotNormalized name expected) ↔
      ¬ Name.IsTypeName typeName ∧ (∃ n, r.nodeFor typeName node = .ok n) ∧
        name = typeName ∧ expected = Name.typeName typeName := by
  constructor
  · intro h
    obtain ⟨hname, heq⟩ := of_isMisnaming_of_emit h rfl
    obtain ⟨hgiven, hexpected⟩ := Failure.nameNotNormalized.inj heq
    refine ⟨hname, ?_, hgiven, hexpected⟩
    cases hfound : r.nodeFor typeName node with
    | ok n => exact ⟨n, rfl⟩
    | error e =>
      rw [exec_emit_eq_step, exec_emitStep, hfound] at h
      cases h
      cases isFault_of_nodeFor hfound
  · rintro ⟨hname, ⟨n, hfound⟩, rfl, rfl⟩
    rw [exec_emit_eq_step, exec_emitStep, hfound]
    dsimp only
    rw [admission, if_pos hname]

/-- **Names made from paths are stable.**  So the schema inside arrays and maps is emitted under
one name, however many there are.  Emissions lead to others under type names only, and none of
these fails for its name. -/
theorem stable_names :
    (∀ path, Name.IsStable (Name.ofPath path)) ∧
    (∀ (l : Layer) (ls : List Layer) (v w : Json) (typeName place : String) (r : Resolver ε),
      IsWithin (l :: ls) v w →
        (∀ k < ls.length, r.exclusionOf (Definitions.withoutStart^[k + 1] place) = none) →
          exec (emitKind emitAt l.kind typeName v place) r =
            mapValue (Layer.allAround (l :: ls)) (exec (emitAt (Name.ofPath typeName) (.inline w)
              (Definitions.withoutStart^[ls.length] place)) r)) ∧
    (∀ emit emit' : Emitting ε,
      (∀ typeName, Name.IsTypeName typeName → emit typeName = emit' typeName) →
        emitStep emit = emitStep emit') ∧
    ∀ (typeName : String) (node : Node) (fqn : Option String) (r : Resolver ε)
      (name expected : String),
        (exec (emit typeName node fqn) r).1 = .error (.nameNotNormalized name expected) ↔
          ¬ Name.IsTypeName typeName ∧ (∃ n, r.nodeFor typeName node = .ok n) ∧
            name = typeName ∧ expected = Name.typeName typeName := by
  refine ⟨Name.isStable_ofPath, fun l ls v w typeName place r h hfree => ?_,
    fun emit emit' h => emitStep_congr h,
    fun typeName node fqn r name expected => fails_for_name_iff⟩
  exact exec_emitKind_layers h typeName hfree

/-- Lists of interfaces under texts. -/
def ledger : Json :=
  .obj [("additionalProperties", .obj [("type", .str "array"),
    ("items", .obj [("properties", .obj [])])])]

/-- A path with an acronym and a number, two layers, and a name that is no type name. -/
theorem stable_names_ledger :
    Name.ofPath "Foo.URLPath.1st" = "FooUrlPath1St" ∧ Name.IsStable "FooUrlPath1St" ∧
    IsWithin [.map, .array] ledger (.obj [("properties", .obj [])]) ∧
    exec (emitKind emitAt .map "K8S" ledger "K8S") (fresh [] .empty : Resolver Empty) =
      mapValue (fun t => .map (.array t)) (exec (emitAt "K8S" (.inline (.obj
        [("properties", .obj [])])) "K8S") (fresh [] .empty)) ∧
    emitStep (fun typeName node fqn =>
        if Name.IsTypeName typeName then emitAt typeName node fqn else throw .outOfFuel) =
      emitStep (emitAt : Emitting Empty) ∧
    (exec (emit "VPC" (.inline ledger) none) (fresh [] .empty : Resolver Empty)).1 =
      .error (.nameNotNormalized "VPC" "Vpc") := by
  obtain ⟨hstable, hlayers, hstep, hmisnamed⟩ := stable_names (ε := Empty)
  have hpath : Name.ofPath "Foo.URLPath.1st" = "FooUrlPath1St" := by decide +kernel
  have hwithin : IsWithin [.map, .array] ledger (.obj [("properties", .obj [])]) :=
    ⟨rfl, rfl, rfl, rfl, rfl⟩
  have hrows := hlayers .map [.array] ledger _ "K8S" "K8S" (fresh [] .empty) hwithin
    fun _ _ => rfl
  have hname : Name.ofPath "K8S" = "K8S" := by decide +kernel
  have hplace : Definitions.withoutStart^[[Layer.array].length] "K8S" = "K8S" := by
    decide +kernel
  rw [hname, hplace] at hrows
  have hexpected : Name.typeName "VPC" = "Vpc" := by decide +kernel
  refine ⟨hpath, hpath ▸ hstable _, hwithin, hrows, hstep _ _ fun typeName h => ?_,
    (hmisnamed _ _ _ _ _ _).mpr ?_⟩
  · funext node fqn
    rw [if_pos h]
  · exact ⟨by decide +kernel, ⟨.inline ledger, rfl⟩, rfl, hexpected.symm⟩

end Resolver
end SchemaScript
