import SchemaScript.Resolver.Emission

/-!
# Outcomes of emission

What every part of an emission gives and which state it leaves, as one equation a
part.  The changes of the state have names of their own here, so that later
arguments speak of a state that is noted, declared, opened or reverted and never
look into a computation again.

The emissions that a part leads to stay a parameter in the equations: they hold for
whatever is handed down.

## Main definitions

* `Resolver.noted`, `declared`, `completed`, `reverted` — changes of notes and queue.
* `Resolver.opened`, `closed`, `remembered` — changes around a definition.
* `Resolver.Reference`, `Resolver.read` — what a reference comes to by itself.

## Main results

* `exec_emitRef`, `exec_emitArray`, `exec_emitMap`, `exec_emitUnion`, `exec_emitEnum`,
  `exec_emitStruct` — the kinds.
* `exec_emitDefinition`, `exec_emitStep` — a definition, and one emission.
-/

namespace SchemaScript

namespace Stateful

variable {σ α β : Type}

/-- An outcome with its value replaced. -/
def mapValue (f : α → β) (o : Except Failure α × σ) : Except Failure β × σ := (o.1.map f, o.2)

theorem eq_ok_of_mapValue {f : α → β} {o : Except Failure α × σ} {b : β} {s : σ}
    (h : mapValue f o = (.ok b, s)) : ∃ a, o = (.ok a, s) ∧ b = f a := by
  obtain ⟨e | a, t⟩ := o
  · cases h
  · cases h
    exact ⟨a, rfl, rfl⟩

theorem eq_error_of_mapValue {f : α → β} {o : Except Failure α × σ} {e : Failure}
    (h : (mapValue f o).1 = .error e) : o.1 = .error e := by
  obtain ⟨e' | a, t⟩ := o
  · cases h
    rfl
  · cases h

/-- Going on with a value only replaces the value. -/
theorem exec_bind_pure (m : Stateful σ α) (f : α → β) (s : σ) :
    exec (m >>= fun a => pure (f a)) s = mapValue f (exec m s) := by
  rw [exec_bind]
  rcases exec m s with ⟨_ | a, t⟩ <;> rfl

@[simp] theorem exec_map (f : α → β) (m : Stateful σ α) (s : σ) :
    exec (f <$> m) s = mapValue f (exec m s) := by
  rw [map_eq_pure_bind, exec_bind_pure]

/-- What a computation of two parts goes through if it succeeds. -/
theorem exec_bind_eq_ok {m : Stateful σ α} {f : α → Stateful σ β} {s t : σ} {b : β}
    (h : exec (m >>= f) s = (.ok b, t)) :
    ∃ a u, exec m s = (.ok a, u) ∧ exec (f a) u = (.ok b, t) := by
  rw [exec_bind] at h
  rcases hm : exec m s with ⟨e | a, u⟩ <;> rw [hm] at h
  · cases h
  · exact ⟨a, u, rfl, h⟩

/-- A result can be compared by its value where failures cannot. -/
theorem eq_ok_of_toOption {o : Except Failure α} {a : α} (h : o.toOption = some a) :
    o = .ok a := by
  cases o with
  | error e => cases h
  | ok b => exact congrArg Except.ok (Option.some.inj h)

theorem exists_error_of_toOption {o : Except Failure α} (h : o.toOption = none) :
    ∃ e, o = .error e := by
  cases o with
  | error e => exact ⟨e, rfl⟩
  | ok b => cases h

end Stateful

namespace Resolver

open Stateful

variable {ε : Type}

/-! ### References -/

/-- The resolver with further notes. -/
def noted (r : Resolver ε) (ns : List Note) : Resolver ε := { r with notes := r.notes ++ ns }

@[simp] theorem exec_note (n : Note) (r : Resolver ε) :
    exec (note n) r = (.ok (), r.noted [n]) := rfl

@[simp] theorem noted_nil (r : Resolver ε) : r.noted [] = r := by simp [noted]

/-- What a reference comes to before anything is emitted for it. -/
inductive Reference
  /-- It leads nowhere. -/
  | failed (e : Failure)
  /-- Its expression is known already. -/
  | answered (t : TypeExpr) (ns : List Note)
  /-- The definition that it leads to is to be emitted. -/
  | followed (name : String) (node : Node) (place : String)

/-- What a reference comes to in a state. -/
def read (r : Resolver ε) (schema : Json) (fqn : String) : Reference :=
  match Definitions.path? (schema.get "$ref") with
  | none => .failed (.invalidReference (schema.get "$ref"))
  | some path =>
    if r.isExcluded (Definitions.refTo path) || r.isExcluded path then
      .answered .any [.excludedReference fqn path]
    else match r.resolved.find? (Name.ofDefinition path) with
      | some t => .answered t []
      | none =>
        if r.isOpenUnnamed (Name.ofDefinition path) then
          .answered .any [.recursiveReference (Definitions.refTo path) r.opening.entries]
        else if r.queue.isKnown (Name.ofDefinition path) then
          .answered (.named (Name.ofDefinition path)) []
        else match r.definitions.resolve (schema.get "$ref") with
          | .error e => .failed e
          | .ok node => .followed (Name.ofDefinition path) node (Definitions.refTo path)

/-- A reference is read; only one that is followed emits something. -/
theorem exec_emitRef (emit : Emitting ε) (schema : Json) (fqn : String) (r : Resolver ε) :
    exec (emitRef emit schema fqn) r =
      match r.read schema fqn with
      | .failed e => (.error e, r)
      | .answered t ns => (.ok t, r.noted ns)
      | .followed name node place => exec (emit name node place) r := by
  simp only [emitRef, read]
  generalize Definitions.path? (schema.get "$ref") = p
  cases p with
  | none => rfl
  | some path =>
    simp only [exec_bind, exec_get]
    -- the cases in the order in which `read` tries them
    by_cases hx : (r.isExcluded (Definitions.refTo path) || r.isExcluded path) = true
    · simp only [hx, if_true, exec_bind, exec_note, exec_pure]
    · simp only [hx, if_false, Bool.false_eq_true]
      cases r.resolved.find? (Name.ofDefinition path) with
      | some t => simp
      | none =>
        by_cases ho : r.isOpenUnnamed (Name.ofDefinition path) = true
        · simp only [ho, if_true, exec_bind, exec_note, exec_pure]
        · by_cases hk : r.queue.isKnown (Name.ofDefinition path) = true
          · simp [ho, hk]
          · simp only [ho, hk, if_false, exec_bind, exec_lift, Bool.false_eq_true]
            cases r.definitions.resolve (schema.get "$ref") <;> rfl

theorem exec_emitRef_answered (emit : Emitting ε) {schema : Json} {fqn : String} {r : Resolver ε}
    {t : TypeExpr} {ns : List Note} (h : r.read schema fqn = .answered t ns) :
    exec (emitRef emit schema fqn) r = (.ok t, r.noted ns) := by
  rw [exec_emitRef, h]

theorem exec_emitRef_followed (emit : Emitting ε) {schema : Json} {fqn : String} {r : Resolver ε}
    {name place : String} {node : Node} (h : r.read schema fqn = .followed name node place) :
    exec (emitRef emit schema fqn) r = exec (emit name node place) r := by
  rw [exec_emitRef, h]

/-! ### Arrays and maps -/

theorem exec_emitArray (emit : Emitting ε) (typeName : String) (schema : Json) (fqn : String)
    (r : Resolver ε) :
    exec (emitArray emit typeName schema fqn) r =
      if (schema.get "items").isObject then
        mapValue .array (exec (emitInner emit typeName (schema.get "items") fqn) r)
      else (.error (.unsupportedArray typeName (schema.get "items")), r) := by
  unfold emitArray
  simp only
  split
  · exact exec_bind_pure ..
  · rfl

theorem exec_emitMap (emit : Emitting ε) (typeName : String) (schema : Json) (fqn : String)
    (r : Resolver ε) :
    exec (emitMap emit typeName schema fqn) r =
      mapValue .map (exec (emitInner emit typeName (schema.get "additionalProperties") fqn) r) :=
  exec_bind_pure ..

/-! ### Declarations -/

/-- The resolver with a declaration that entered the queue. -/
def declared (r : Resolver ε) (d : Declaration ε) : Resolver ε :=
  { r with
    queue := { r.queue with waiting := r.queue.waiting.insert d.name d }
    notes := r.notes ++ [.queued d.body.word d.name d.fqn] }

theorem exec_enqueue (d : Declaration ε) (replace : Bool) (r : Resolver ε) :
    exec (enqueue d replace) r =
      if r.queue.accepts d.name replace then (.ok true, r.declared d) else (.ok false, r) := by
  simp only [enqueue, exec_bind, exec_get]
  by_cases h : r.queue.accepts d.name replace = true
  · simp only [h, if_true, exec_bind, exec_set, exec_note, exec_pure, Queue.register]
    rfl
  · simp only [h, if_false, exec_pure, Bool.false_eq_true]

/-- A name that is not known can enter. -/
theorem accepts_of_not_isKnown {q : Queue ε} {name : String} (h : q.isKnown name = false) :
    q.accepts name false = true := by
  simp only [Queue.isKnown, Bool.or_eq_false_iff] at h
  simp [Queue.accepts, h.1, h.2]

theorem exec_emitUnion (typeName : String) (schema : Json) (fqn : String) (r : Resolver ε) :
    exec (emitUnion typeName schema fqn) r =
      (.ok (.named typeName),
        if r.queue.isKnown typeName then r
        else r.declared ⟨typeName, fqn, schema.get "description", some schema,
          .union (optionTypes schema)⟩) := by
  simp only [emitUnion, exec_bind, exec_get]
  by_cases h : r.queue.isKnown typeName = true
  · simp [h]
  · rw [Bool.not_eq_true] at h
    simp [h, exec_enqueue, accepts_of_not_isKnown h, mapValue, Except.map]

/-- The note tells of the new name of a member. -/
def isRenaming : Note → Bool
  | .renamedMember _ _ _ _ => true
  | _ => false

/-- The members for some values do not depend on the state; making them takes notes of
new names. -/
theorem exec_members (typeName fqn : String) (used seen : List String) (values : List Json) :
    ∃ (ms : Except Failure (List Member)) (ns : List Note), (∀ n ∈ ns, isRenaming n = true) ∧
      ∀ r : Resolver ε, exec (members typeName fqn used seen values) r = (ms, r.noted ns) := by
  induction values generalizing used seen with
  | nil => exact ⟨.ok [], [], fun _ h => absurd h List.not_mem_nil, fun r => by simp [members]⟩
  | cons value values ih =>
    cases value with
    | str value =>
      by_cases h : value ∈ seen
      · -- a value that was seen before makes no member
        obtain ⟨ms, ns, hns, hms⟩ := ih used seen
        exact ⟨ms, ns, hns, fun r => by simp [members, h, hms]⟩
      · let base := Name.memberName value
        let name := if base ∈ used then Name.freshName base used else base
        obtain ⟨ms, ns, hns, hms⟩ := ih (name :: used) (value :: seen)
        by_cases hb : base ∈ used
        · -- a name that is taken gives way to a fresh one, with a note
          refine ⟨ms.map (⟨name, value⟩ :: ·), .renamedMember fqn value base name :: ns, ?_, ?_⟩
          · exact List.forall_mem_cons.mpr ⟨rfl, hns⟩
          intro r
          simp only [members, h, hb, base, if_false, if_true]
          rw [exec_bind_ok (exec_note _ r), exec_bind_pure]
          have hm := hms (r.noted [.renamedMember fqn value base name])
          simp only [name, hb, base, if_true] at hm
          rw [hm]
          simp [mapValue, noted, name, base, hb]
        · refine ⟨ms.map (⟨name, value⟩ :: ·), ns, hns, fun r => ?_⟩
          simp only [members, h, hb, base, if_false]
          rw [exec_bind_pure]
          have hm := hms r
          simp only [name, hb, base, if_false] at hm
          rw [hm]
          simp [mapValue, name, base, hb]
    | _ => exact ⟨_, [], fun _ h => absurd h List.not_mem_nil, fun r => by simp [members]; rfl⟩

/-- Whether the values make an enum does not depend on the state. -/
theorem exec_emitEnum (typeName : String) (schema : Json) (fqn : String) :
    ∃ (ms : Except Failure (List Member)) (ns : List Note), (∀ n ∈ ns, isRenaming n = true) ∧
      ∀ r : Resolver ε, exec (emitEnum typeName schema fqn) r =
        if r.queue.isKnown typeName then (.ok (.named typeName), r)
        else match ms with
          | .error e => (.error e, r.noted ns)
          | .ok ms => (.ok (.named typeName), (r.noted ns).declared
              ⟨typeName, fqn, schema.get "description", some schema, .enum ms⟩) := by
  cases hv : enumValues typeName schema with
  | error e =>
    refine ⟨.error e, [], fun _ h => absurd h List.not_mem_nil, fun r => ?_⟩
    -- the values are looked at only if the name is new
    simp only [emitEnum, exec_bind, exec_get]
    by_cases h : r.queue.isKnown typeName = true
    · simp [h]
    · simp [h, exec_bind, hv]
  | ok values =>
    obtain ⟨ms, ns, hns, hms⟩ := exec_members (ε := ε) typeName fqn [] [] values
    refine ⟨ms, ns, hns, fun r => ?_⟩
    simp only [emitEnum, exec_bind, exec_get]
    by_cases h : r.queue.isKnown typeName = true
    · simp [h]
    · rw [Bool.not_eq_true] at h
      cases ms with
      | error e => simp [h, exec_bind, hv, hms]
      | ok ms =>
        have hk : (r.noted ns).queue.accepts typeName false = true := accepts_of_not_isKnown h
        simp [h, exec_bind, hv, hms, exec_enqueue, hk, mapValue, Except.map]

/-! ### Interfaces -/

theorem exec_field (emit : Emitting ε) (structFqn : String) (struct : Json) (property : String)
    (schema : Json) (r : Resolver ε) :
    exec (field emit structFqn struct property schema) r =
      mapValue
        (fun type => {
          name := Name.fieldKey (Name.fieldName property)
          schemaName := property
          type
          optional := !requires struct property
          fqn := structFqn ++ "#" ++ property
          description := schema.get "description" })
        (exec (emitInner emit (structFqn ++ "." ++ Name.fieldName property) schema
          (structFqn ++ "." ++ Name.fieldName property)) r) :=
  exec_bind_pure ..

theorem exec_fields_cons (emit : Emitting ε) (structFqn : String) (struct : Json)
    (p : String × Json) (ps : List (String × Json)) (r : Resolver ε) :
    exec (fields emit structFqn struct (p :: ps)) r =
      if isExtension p.1 then exec (fields emit structFqn struct ps) r
      else match exec (field emit structFqn struct p.1 p.2) r with
        | (.ok f, r) => mapValue (f :: ·) (exec (fields emit structFqn struct ps) r)
        | (.error e, r) => (.error e, r) := by
  obtain ⟨property, schema⟩ := p
  simp only [fields]
  split
  · rfl
  · rw [exec_bind]
    rcases exec (field emit structFqn struct property schema) r with ⟨e | f, r'⟩
    · rfl
    · exact exec_bind_pure ..

/-- The resolver with a waiting declaration completed. -/
def completed (r : Resolver ε) (d : Declaration ε) : Resolver ε :=
  { r with queue := { r.queue with waiting := r.queue.waiting.insert d.name d } }

/-- The resolver with the queue and the resolved definitions cut back to the sizes
they had before. -/
def reverted (r before : Resolver ε) : Resolver ε :=
  { r with
    queue := r.queue.rollback before.queue.checkpoint
    resolved := r.resolved.take before.resolved.size
    notes := r.notes ++ (if (r.queue.since before.queue.checkpoint).isEmpty then []
      else [.withdrew (r.queue.since before.queue.checkpoint)]) }

theorem exec_undoSince (before r : Resolver ε) :
    exec (undoSince before) r = (.ok (), r.reverted before) := by
  simp only [undoSince, withdraw, exec_bind, exec_get, exec_set]
  by_cases h : (r.queue.since before.queue.checkpoint).isEmpty = true
  · simp [h, reverted]
  · simp [h, reverted, noted, mapValue, Except.map]

/-- An interface is queued, its fields are emitted, and then it is completed, or all is
reverted. -/
theorem exec_emitStruct (emit : Emitting ε) (typeName : String) (schema : Json) (fqn : String)
    (r : Resolver ε) :
    exec (emitStruct emit typeName schema fqn) r =
      if r.queue.isKnown typeName then (.ok (.named typeName), r)
      else
        match exec (fields emit fqn schema (schema.get "properties").fields)
          (r.declared ⟨typeName, fqn, schema.get "description", some schema, .struct []⟩) with
        | (.ok fs, r') => (.ok (.named typeName), r'.completed
            ⟨typeName, fqn, schema.get "description", some schema, .struct fs⟩)
        | (.error e, r') => (.error e, r'.reverted r) := by
  simp only [emitStruct, exec_bind, exec_get]
  by_cases h : r.queue.isKnown typeName = true
  · simp [h]
  · rw [Bool.not_eq_true] at h
    simp only [h, exec_bind, exec_enqueue, accepts_of_not_isKnown h, exec_tryCatch, if_true,
      Bool.not_false, Bool.false_eq_true, if_false]
    rcases exec (fields emit fqn schema (schema.get "properties").fields)
      (r.declared ⟨typeName, fqn, schema.get "description", some schema, .struct []⟩)
      with ⟨e | fs, r'⟩
    · simp [exec_undoSince]
    · simp [complete, exec_modify, completed]

/-! ### Definitions -/

/-- The resolver with a definition marked as open. -/
def opened (r : Resolver ε) (typeName : String) (o : Opening) : Resolver ε :=
  { r with opening := r.opening.insert typeName o }

/-- The resolver with the mark of a definition taken off. -/
def closed (r : Resolver ε) (typeName : String) : Resolver ε :=
  { r with opening := r.opening.erase typeName }

/-- The resolver that knows the expression of a definition. -/
def remembered (r : Resolver ε) (typeName : String) (t : TypeExpr) : Resolver ε :=
  { r with resolved := r.resolved.insert typeName t }

theorem exec_closeDefinition (typeName : String) (r : Resolver ε) :
    exec (closeDefinition typeName) r =
      if r.opening.contains typeName then (.ok (), r.closed typeName)
      else (.error (.nameGone typeName), r) := by
  simp only [closeDefinition, exec_bind, exec_get]
  split <;> rfl

/-- A definition that is not resolved yet is open while it is emitted. -/
theorem exec_emitDefinition (emit : Emitting ε) (kind : Kind) (typeName : String) (schema : Json)
    (fqn : String) (r : Resolver ε) :
    exec (emitDefinition emit kind typeName schema fqn) r =
      match r.resolved.find? typeName with
      | some t => (.ok t, r)
      | none =>
        match exec (emitKind emit kind typeName schema fqn) (r.opened typeName ⟨fqn, kind⟩) with
        | (o, r') =>
          if r'.opening.contains typeName then
            match o with
            | .ok t => (.ok t, (r'.closed typeName).remembered typeName t)
            | .error e => (.error e, r'.closed typeName)
          else (.error (.nameGone typeName), r') := by
  simp only [emitDefinition, exec_bind, exec_get]
  cases r.resolved.find? typeName with
  | some t => rfl
  | none =>
    simp only [exec_bind, openDefinition, exec_modify, exec_tryCatch]
    have ho : { r with opening := r.opening.insert typeName ⟨fqn, kind⟩ } =
      r.opened typeName ⟨fqn, kind⟩ := rfl
    rw [ho]
    rcases exec (emitKind emit kind typeName schema fqn) (r.opened typeName ⟨fqn, kind⟩)
      with ⟨e | t, r'⟩
    · -- the mark is taken off whichever way the kind was emitted
      by_cases h : r'.opening.contains typeName = true <;>
        simp [h, exec_closeDefinition]
    · by_cases h : r'.opening.contains typeName = true <;>
        simp [h, exec_closeDefinition, remembered]

/-! ### One emission -/

/-- A schema that is no `null` is emitted itself. -/
theorem nodeFor_of_not_isNull (r : Resolver ε) {n : Node} (h : n.schema.isNull = false)
    (typeName : String) : r.nodeFor typeName n = .ok n := by
  rw [nodeFor, h]
  rfl

/-- What is emitted is the schema at hand, or in the place of `null` what is defined under the
type name. -/
theorem of_nodeFor {r : Resolver ε} {typeName : String} {node n : Node}
    (h : r.nodeFor typeName node = .ok n) :
    n = node ∨ node.schema.isNull = true ∧ n = r.definitions.node typeName := by
  unfold nodeFor at h
  dsimp only at h
  split at h
  · next hnull =>
    split at h <;> cases h
    exact Or.inr ⟨hnull, rfl⟩
  · cases h
    exact Or.inl rfl

theorem exec_emitStep (emit : Emitting ε) (typeName : String) (node : Node) (fqn : String)
    (r : Resolver ε) :
    exec (emitStep emit typeName node fqn) r =
      match r.nodeFor typeName node with
      | .error e => (.error e, r)
      | .ok node =>
        match r.admission typeName node (Definitions.withoutStart fqn) with
        | .error e => (.error e, r)
        | .ok kind =>
          match kind.scalar? with
          | some s => (.ok (.scalar s),
              r.noted (if kind = .fallback then [.untyped (Definitions.withoutStart fqn)] else []))
          | none =>
            if r.isDefinition typeName node (Definitions.withoutStart fqn) then
              exec (emitDefinition emit kind typeName node.schema
                (Definitions.withoutStart fqn)) r
            else exec (emitKind emit kind typeName node.schema
                (Definitions.withoutStart fqn)) r := by
  simp only [emitStep, exec_bind, exec_get, exec_lift]
  cases r.nodeFor typeName node with
  | error e => rfl
  | ok node =>
    simp only
    cases r.admission typeName node (Definitions.withoutStart fqn) with
    | error e => rfl
    | ok kind =>
      simp only
      cases kind.scalar? with
      | some s => by_cases h : kind = .fallback <;> simp [h, mapValue, Except.map]
      | none => simp only; split <;> rfl

end Resolver
end SchemaScript
