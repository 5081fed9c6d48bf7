import SchemaScript.Proofs.Emission.Atomicity
import SchemaScript.Proofs.Emission.Sites
import SchemaScript.Proofs.Schemas

/-!
# What is built

Every declaration that an emission leaves in the queue is built in full for the schema of a
site: an interface has one field for each property that is no extension, in the order of
the schema, an enum the members for its values, and a union the types of its branches.
This is so whether the emission succeeds or fails, for an interface that lacks fields is
withdrawn.

The expressions of the fields are left to a relation between sites and expressions, for
what they come to depends on more than the schema.  It can be any one in which the emissions
of schemas written inside others stand.

## Main definitions

* `Site.field`, `Site.Declared` — the declaration for a site.
* `Resolver.Adds` — what holds of all that came into the queue.
* `Resolver.Relates` — the expressions of schemas inside others stand in the relation.
* `Resolver.Builds` — a waiting declaration is built in full.

## Main results

* `adds_emitWith`, `adds_emit` — emissions add what is built in full.
-/

namespace SchemaScript

namespace Site

/-- The field that an interface has for a property. -/
def field (s : Site) (p : String × Json) (type : TypeExpr) : Field where
  name := Name.fieldKey (Name.fieldName p.1)
  schemaName := p.1
  type := type
  optional := !Resolver.requires s.schema p.1
  fqn := s.place ++ "#" ++ p.1
  description := p.2.get "description"

/-- The members are those for the values of the schema. -/
def HasMembers (ε : Type) (s : Site) (ms : List Member) : Prop :=
  ∃ values, Resolver.enumValues s.typeName s.schema = .ok values ∧
    ∀ r : Resolver ε,
      (Stateful.exec (Resolver.members s.typeName s.place [] [] values) r).1 = .ok ms

/-- The fields are those for the properties of the schema, with related expressions. -/
def HasFields (T : Site → TypeExpr → Prop) (s : Site) (ps : List (String × Json))
    (fs : List Field) : Prop :=
  List.Forall₂ (fun p f => ∃ t, f = s.field p t ∧ T (s.property p) t) ps fs

/-- Every field is that for a property. -/
theorem HasFields.exists_of_mem {T : Site → TypeExpr → Prop} {s : Site}
    {ps : List (String × Json)} {fs : List Field} (h : s.HasFields T ps fs) {f : Field}
    (hf : f ∈ fs) : ∃ p ∈ ps, ∃ t, f = s.field p t ∧ T (s.property p) t := by
  induction h with
  | nil => exact absurd hf List.not_mem_nil
  | @cons p g ps fs hg _ ih =>
    rcases List.mem_cons.mp hf with rfl | hf
    · exact ⟨p, List.mem_cons_self, hg⟩
    · obtain ⟨q, hq, hqf⟩ := ih hf
      exact ⟨q, List.mem_cons_of_mem p hq, hqf⟩

/-- The declaration is the one for the schema of the site. -/
inductive Declared {ε : Type} (T : Site → TypeExpr → Prop) (s : Site) : Declaration ε → Prop
  | union (hk : Schema.classify s.schema = .ok .union) :
    Declared T s ⟨s.typeName, s.place, s.schema.get "description", some s.schema,
      .union (Resolver.optionTypes s.schema)⟩
  | enum {ms : List Member} (hk : Schema.classify s.schema = .ok .enumString)
    (hms : s.HasMembers ε ms) :
    Declared T s ⟨s.typeName, s.place, s.schema.get "description", some s.schema, .enum ms⟩
  | struct {fs : List Field} (hk : Schema.classify s.schema = .ok .struct)
    (hfs : s.HasFields T (Schema.properties s.schema) fs) :
    Declared T s ⟨s.typeName, s.place, s.schema.get "description", some s.schema, .struct fs⟩

namespace Declared

variable {ε : Type} {T : Site → TypeExpr → Prop} {s : Site} {d : Declaration ε}

theorem name (h : Declared T s d) : d.name = s.typeName := by
  cases h <;> rfl

/-- What is declared is of a kind that is declared under a name of its own. -/
theorem exists_kind (h : Declared T s d) :
    ∃ kind, Schema.classify s.schema = .ok kind ∧ kind.isNamed = true := by
  cases h with
  | union hk => exact ⟨.union, hk, rfl⟩
  | enum hk _ => exact ⟨.enumString, hk, rfl⟩
  | struct hk _ => exact ⟨.struct, hk, rfl⟩

end Declared
end Site

namespace Resolver

open Stateful

variable {ε : Type}

/-! ### What comes into the queue -/

/-- The predicate holds of all entries that came behind the ones there were. -/
def Adds (P : String × Declaration ε → Prop) (r r' : Resolver ε) : Prop :=
  ∃ es, r'.queue.waiting.entries = r.queue.waiting.entries ++ es ∧ ∀ e ∈ es, P e

namespace Adds

variable {P : String × Declaration ε → Prop} {r r' r'' : Resolver ε}

theorem of_eq (h : r'.queue.waiting = r.queue.waiting) : Adds P r r' :=
  ⟨[], by rw [h, List.append_nil], fun _ he => absurd he List.not_mem_nil⟩

theorem refl (r : Resolver ε) : Adds P r r := of_eq rfl

theorem trans (h : Adds P r r') (h' : Adds P r' r'') : Adds P r r'' := by
  obtain ⟨es, he, hes⟩ := h
  obtain ⟨es', he', hes'⟩ := h'
  refine ⟨es ++ es', by rw [he', he, List.append_assoc], fun e hm => ?_⟩
  exact (List.mem_append.mp hm).elim (hes e) (hes' e)

theorem declared {d : Declaration ε} (hk : r.queue.isKnown d.name = false)
    (hd : P (d.name, d)) : Adds P r (r.declared d) := by
  refine ⟨_, entries_declared hk, fun e he => ?_⟩
  rwa [List.mem_singleton.mp he]

/-- A declaration is completed where it stands, so only the completed one counts. -/
theorem completed {c d : Declaration ε} (hk : r.queue.isKnown d.name = false)
    (hn : c.name = d.name) (hd : P (d.name, d)) (h : Adds P (r.declared c) r') :
    Adds P r (r'.completed d) := by
  obtain ⟨es, he, hes⟩ := h
  rw [entries_declared (hn ▸ hk), List.append_assoc, List.singleton_append, hn] at he
  refine ⟨_, Table.insert_of_split d he (notMem_keys_of_not_isKnown hk), fun e hm => ?_⟩
  rcases List.mem_cons.mp hm with rfl | hm
  · exact hd
  · exact hes e hm

/-- Reverting takes out all that came. -/
theorem reverted (hg : Grows r r') : Adds P r (r'.reverted r) :=
  of_eq (congrArg Queue.waiting hg.reverted_eq.1)

/-- What holds of the entries there were and of those that can come holds of all. -/
theorem forall_mem {Q : String × Declaration ε → Prop} (h : Adds P r r')
    (hr : ∀ e ∈ r.queue.waiting.entries, Q e) (hP : ∀ e, P e → Q e) :
    ∀ e ∈ r'.queue.waiting.entries, Q e := by
  obtain ⟨es, he, hes⟩ := h
  intro e hm
  rw [he, List.mem_append] at hm
  exact hm.elim (hr e) fun hnew => hP e (hes e hnew)

end Adds

/-! ### Enums -/

/-- A new enum is declared with the members for its values, or it is refused. -/
theorem exec_emitEnum_new {s : Site} {r : Resolver ε} (hk : r.queue.isKnown s.typeName = false) :
    (∃ e ns, exec (emitEnum s.typeName s.schema s.place) r = (.error e, r.noted ns)) ∨
      ∃ ms ns, s.HasMembers ε ms ∧
        exec (emitEnum s.typeName s.schema s.place) r =
          (.ok (.named s.typeName), (r.noted ns).declared ⟨s.typeName, s.place,
            s.schema.get "description", some s.schema, .enum ms⟩) := by
  cases hv : enumValues s.typeName s.schema with
  | error e => exact Or.inl ⟨e, [], by simp [emitEnum, exec_bind, hk, hv]⟩
  | ok values =>
    obtain ⟨ms, ns, -, hms⟩ := exec_members (ε := ε) s.typeName s.place [] [] values
    cases ms with
    | error e => exact Or.inl ⟨e, ns, by simp [emitEnum, exec_bind, hk, hv, hms]⟩
    | ok ms =>
      have ha : (r.noted ns).queue.accepts s.typeName false = true := accepts_of_not_isKnown hk
      refine Or.inr ⟨ms, ns, ⟨values, hv, fun r' => by rw [hms]⟩, ?_⟩
      simp [emitEnum, exec_bind, hk, hv, hms, exec_enqueue, ha, mapValue, Except.map]

/-! ### Emission -/

/-- What a schema inside another one is emitted as stands in the relation to its site. -/
def Relates (T : Site → TypeExpr → Prop) (emit : Emitting ε) : Prop :=
  ∀ seed schema place (r r' : Resolver ε) t,
    exec (emit (Name.ofPath seed) (.inline schema) place) r = (.ok t, r') →
      T (.inner seed schema place) t

/-- The waiting declaration is built in full for a site whose schemas all satisfy the
predicate. -/
def Builds (T : Site → TypeExpr → Prop) (Q : Json → Prop) (e : String × Declaration ε) : Prop :=
  ∃ s : Site, Schema.Everywhere Q s.schema ∧ e.1 = s.typeName ∧ s.Declared T e.2

/-- From definitions and a schema that satisfy the predicate on, the emission adds what is
built in full. -/
def AlwaysBuilds (T : Site → TypeExpr → Prop) (Q : Json → Prop) (emit : Emitting ε) : Prop :=
  ∀ typeName node fqn (r : Resolver ε), r.definitions.Each (Schema.Everywhere Q) →
    Schema.Everywhere Q node.schema → Adds (Builds T Q) r (exec (emit typeName node fqn) r).2

section

variable {T : Site → TypeExpr → Prop} {Q : Json → Prop} {emit : Emitting ε}
  (he : AlwaysBuilds T Q emit) {r : Resolver ε}
  (hr : r.definitions.Each (Schema.Everywhere Q)) {s : Site} (hs : Schema.Everywhere Q s.schema)

include he hr

theorem adds_emitRef (schema : Json) (fqn : String) :
    Adds (Builds T Q) r (exec (emitRef emit schema fqn) r).2 := by
  rw [exec_emitRef]
  cases hread : r.read schema fqn with
  | failed e => exact Adds.refl r
  | answered t ns => exact Adds.of_eq rfl
  | followed name node place =>
    have hnode : Schema.Everywhere Q node.schema := by
      unfold read at hread
      split at hread
      · cases hread
      · next path hp =>
        split at hread
        · cases hread
        · split at hread
          · cases hread
          · split at hread
            · cases hread
            · split at hread
              · cases hread
              · split at hread
                · cases hread
                · next hres =>
                  cases hread
                  rw [(Definitions.resolve_eq_ok hp hres).1]
                  exact hr path
    exact he name node place r hr hnode

include hs

theorem adds_emitArray (hk : Schema.classify s.schema = .ok .array) :
    Adds (Builds T Q) r (exec (emitArray emit s.typeName s.schema s.place) r).2 := by
  rw [exec_emitArray]
  split
  · exact he _ _ _ r hr (hs.items hk)
  · exact Adds.refl r

theorem adds_emitMap (hk : Schema.classify s.schema = .ok .map) :
    Adds (Builds T Q) r (exec (emitMap emit s.typeName s.schema s.place) r).2 := by
  rw [exec_emitMap]
  exact he _ _ _ r hr (hs.values hk)

omit he hr in
theorem adds_emitUnion (hk : Schema.classify s.schema = .ok .union) :
    Adds (Builds T Q) r (exec (emitUnion s.typeName s.schema s.place) r).2 := by
  rw [exec_emitUnion]
  dsimp only
  split
  · exact Adds.refl r
  · next hnew =>
    rw [Bool.not_eq_true] at hnew
    exact Adds.declared (d := ⟨s.typeName, s.place, _, some s.schema, _⟩) hnew
      ⟨s, hs, rfl, .union hk⟩

omit he hr in
theorem adds_emitEnum (hk : Schema.classify s.schema = .ok .enumString) :
    Adds (Builds T Q) r (exec (emitEnum s.typeName s.schema s.place) r).2 := by
  cases hnew : r.queue.isKnown s.typeName with
  | true =>
    obtain ⟨ms, ns, -, hexec⟩ := exec_emitEnum (ε := ε) s.typeName s.schema s.place
    rw [hexec, if_pos hnew]
    exact Adds.refl r
  | false =>
    rcases exec_emitEnum_new (s := s) hnew with ⟨e, ns, hexec⟩ | ⟨ms, ns, hms, hexec⟩
    · rw [hexec]
      exact Adds.of_eq rfl
    · rw [hexec]
      exact Adds.declared (r := r.noted ns) hnew ⟨s, hs, rfl, .enum hk hms⟩

/-- Field after field, and if all succeed, there is one for each property. -/
theorem adds_fields (hT : Relates T emit) (hgrow : AlwaysGrows emit)
    (hk : Schema.classify s.schema = .ok .struct) {ps : List (String × Json)}
    (hps : ∀ p ∈ ps, p ∈ (s.schema.get "properties").fields) :
    Adds (Builds T Q) r (exec (fields emit s.place s.schema ps) r).2 ∧
      ∀ fs, (exec (fields emit s.place s.schema ps) r).1 = .ok fs →
        s.HasFields T (ps.filter fun p => !isExtension p.1) fs := by
  induction ps generalizing r with
  | nil =>
    refine ⟨Adds.refl r, fun fs hfs => ?_⟩
    cases hfs
    exact .nil
  | cons p ps ih =>
    have hrest : ∀ q ∈ ps, q ∈ (s.schema.get "properties").fields :=
      fun q hq => hps q (List.mem_cons_of_mem p hq)
    rw [exec_fields_cons, List.filter_cons]
    by_cases hx : isExtension p.1 = true
    · simp only [hx, if_true, Bool.not_true, Bool.false_eq_true, if_false]
      exact ih hr hrest
    · rw [Bool.not_eq_true] at hx
      simp only [hx, Bool.false_eq_true, if_false, Bool.not_false, if_true]
      have hp : p ∈ Schema.properties s.schema :=
        Schema.mem_properties.mpr ⟨hps p List.mem_cons_self, hx⟩
      let place := s.place ++ "." ++ Name.fieldName p.1
      have hfirst := he (Name.ofPath place) (.inline p.2) place r hr (hs.property hk hp)
      have hg := hgrow (Name.ofPath place) (.inline p.2) place r
      rw [exec_field, emitInner]
      rcases hexec : exec (emit (Name.ofPath place) (.inline p.2) place) r with ⟨e | t, r'⟩ <;>
        rw [hexec] at hfirst hg
      · refine ⟨hfirst, fun fs hfs => ?_⟩
        cases hfs
      · obtain ⟨hadds, hfields⟩ := ih (r := r') (by rwa [hg.definitions]) hrest
        refine ⟨hfirst.trans hadds, fun fs hfs => ?_⟩
        rcases hx : exec (fields emit s.place s.schema ps) r' with ⟨e | rest, r''⟩ <;>
          rw [hx] at hfields <;> simp only [mapValue, Except.map, hx] at hfs
        · cases hfs
        · cases hfs
          exact .cons ⟨t, rfl, hT _ _ _ _ _ _ hexec⟩ (hfields rest rfl)

theorem adds_emitStruct (hT : Relates T emit) (hgrow : AlwaysGrows emit)
    (hk : Schema.classify s.schema = .ok .struct) :
    Adds (Builds T Q) r (exec (emitStruct emit s.typeName s.schema s.place) r).2 := by
  rw [exec_emitStruct]
  split
  · exact Adds.refl r
  · next hnew =>
    rw [Bool.not_eq_true] at hnew
    let c : Declaration ε :=
      ⟨s.typeName, s.place, s.schema.get "description", some s.schema, .struct []⟩
    have hps : ∀ p ∈ (s.schema.get "properties").fields,
        p ∈ (s.schema.get "properties").fields := fun _ hp => hp
    obtain ⟨hadds, hfields⟩ := adds_fields he (r := r.declared c) hr hs hT hgrow hk hps
    have hg := (grows_declared (d := c) hnew rfl).trans
      (grows_fields hgrow s.place s.schema (s.schema.get "properties").fields (r.declared c))
    rcases hexec : exec (fields emit s.place s.schema (s.schema.get "properties").fields)
      (r.declared c) with ⟨e | fs, r'⟩ <;> rw [hexec] at hadds hfields hg
    · exact Adds.reverted hg
    · exact Adds.completed (c := c)
        (d := ⟨s.typeName, s.place, _, some s.schema, .struct fs⟩) hnew rfl
        ⟨s, hs, rfl, .struct hk (hfields fs rfl)⟩ hadds

theorem adds_emitKind (hT : Relates T emit) (hgrow : AlwaysGrows emit) {kind : Kind}
    (hk : Schema.classify s.schema = .ok kind) :
    Adds (Builds T Q) r (exec (emitKind emit kind s.typeName s.schema s.place) r).2 := by
  cases kind with
  | ref => exact adds_emitRef he hr s.schema s.place
  | union => exact adds_emitUnion hs hk
  | array => exact adds_emitArray he hr hs hk
  | enumString => exact adds_emitEnum hs hk
  | map => exact adds_emitMap he hr hs hk
  | struct => exact adds_emitStruct he hr hs hT hgrow hk
  | _ => exact Adds.refl r

theorem adds_emitDefinition (hT : Relates T emit) (hgrow : AlwaysGrows emit) {kind : Kind}
    (hk : Schema.classify s.schema = .ok kind) :
    Adds (Builds T Q) r (exec (emitDefinition emit kind s.typeName s.schema s.place) r).2 := by
  rw [exec_emitDefinition]
  cases r.resolved.find? s.typeName with
  | some t => exact Adds.refl r
  | none =>
    have hin := adds_emitKind he (r := r.opened s.typeName ⟨s.place, kind⟩) hr hs hT hgrow hk
    rcases hexec : exec (emitKind emit kind s.typeName s.schema s.place)
      (r.opened s.typeName ⟨s.place, kind⟩) with ⟨x, r'⟩
    rw [hexec] at hin
    -- the queue is the same whether the mark is taken off or not
    dsimp only
    split
    · cases x <;> exact hin
    · exact hin

end

section

variable {T : Site → TypeExpr → Prop} {Q : Json → Prop}

theorem alwaysBuilds_emitStep {emit : Emitting ε} (he : AlwaysBuilds T Q emit)
    (hT : Relates T emit) (hgrow : AlwaysGrows emit) : AlwaysBuilds T Q (emitStep emit) := by
  intro typeName node fqn r hr hs
  rw [exec_emitStep]
  cases hn : r.nodeFor typeName node with
  | error e => exact Adds.refl r
  | ok n =>
    have hn' : Schema.Everywhere Q n.schema := by
      rcases of_nodeFor hn with rfl | ⟨-, rfl⟩
      · exact hs
      · exact hr typeName
    dsimp only
    cases ha : r.admission typeName n (Definitions.withoutStart fqn) with
    | error e => exact Adds.refl r
    | ok kind =>
      have hk := classify_of_admission ha
      dsimp only
      split
      · exact Adds.of_eq rfl
      · split
        · exact adds_emitDefinition he hr (s := ⟨typeName, n, Definitions.withoutStart fqn⟩) hn'
            hT hgrow hk
        · exact adds_emitKind he hr (s := ⟨typeName, n, Definitions.withoutStart fqn⟩) hn'
            hT hgrow hk

variable (hT : ∀ n, Relates T (emitWith n : Emitting ε))

include hT

/-- **What an emission leaves in the queue is built in full**, down to any depth. -/
theorem adds_emitWith (n : Nat) : AlwaysBuilds T Q (emitWith n : Emitting ε) := by
  induction n with
  | zero => exact fun _ _ _ r _ _ => Adds.refl r
  | succ n ih => exact alwaysBuilds_emitStep ih (hT n) (grows_emitWith n)

theorem adds_emit {r : Resolver ε} (hr : r.definitions.Each (Schema.Everywhere Q))
    (typeName : String) {node : Node} (hs : Schema.Everywhere Q node.schema)
    (fqn : Option String) : Adds (Builds T Q) r (exec (emit typeName node fqn) r).2 := by
  rw [exec_emit]
  exact adds_emitWith hT _ _ _ _ r hr hs

end

/-- Nothing may be asked of the expressions. -/
theorem relates_true (emit : Emitting ε) : Relates (fun _ _ => True) emit :=
  fun _ _ _ _ _ _ _ => trivial

end Resolver
end SchemaScript
