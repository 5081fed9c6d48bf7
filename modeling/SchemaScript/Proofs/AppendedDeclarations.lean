import SchemaScript.Proofs.Emission.Building
import SchemaScript.Proofs.Emission.Termination
import SchemaScript.Proofs.FailedEmissions

/-!
# Declarations that an emission appends

An emission that succeeds between operations leaves the definitions, the written names and
the declarations that wait as they are, and puts what is new behind them.  An interface
comes first of what is new: it enters before its properties are emitted, and what these put
in the queue follows, property after property.

## Main definitions

* `Resolver.Appends` — only the ends of the queue and of the resolved definitions change.
* `Site.EmitsProperties` — the properties are emitted one after the other.
* `Site.EmitsInterface` — an interface, and behind it what its properties put in the queue.

## Main results

* `queue_emitStruct` — an interface changes nothing, or it is emitted.
* `emit_appends` — a successful emission between operations.
-/

namespace SchemaScript

open Stateful

variable {ε : Type}

namespace Site

/-- The interface with the given fields. -/
def interface (ε : Type) (s : Site) (fs : List Field) : Declaration ε :=
  ⟨s.typeName, s.place, s.schema.get "description", some s.schema, .struct fs⟩

@[simp] theorem name_interface (s : Site) (fs : List Field) :
    (s.interface ε fs).name = s.typeName := rfl

/-- The properties are emitted one after the other, each from the state that the one before
left.  A field has the expression that its emission gave, and the entries that came into
the queue meanwhile are listed for each property. -/
inductive EmitsProperties (s : Site) : Resolver ε → List (String × Json) → List Field →
    List (List (String × Declaration ε)) → Resolver ε → Prop
  | nil (r : Resolver ε) : EmitsProperties s r [] [] [] r
  | cons {r r' r'' : Resolver ε} {p : String × Json} {ps : List (String × Json)} {t : TypeExpr}
    {fs : List Field} {new : List (String × Declaration ε)}
    {news : List (List (String × Declaration ε))}
    (given : exec (Resolver.emit (s.property p).typeName (.inline p.2)
      (some (s.propertyPlace p.1))) r = (.ok t, r'))
    (queued : r'.queue.waiting.entries = r.queue.waiting.entries ++ new)
    (rest : EmitsProperties s r' ps fs news r'') :
    EmitsProperties s r (p :: ps) (s.field p t :: fs) (new :: news) r''

/-- All that the properties put in the queue stands behind what was there. -/
theorem EmitsProperties.entries {s : Site} {r r' : Resolver ε} {ps : List (String × Json)}
    {fs : List Field} {news : List (List (String × Declaration ε))}
    (h : s.EmitsProperties r ps fs news r') :
    r'.queue.waiting.entries = r.queue.waiting.entries ++ news.flatten := by
  induction h with
  | nil => rw [List.flatten_nil, List.append_nil]
  | cons _ queued _ ih => rw [ih, queued, List.flatten_cons, List.append_assoc]

/-- From the one state to the other the interface of the site came into the queue, behind
all that waited, and behind it what its properties put there, in their order.  They are
emitted from the first state, in which definitions may be marked as open and the interface
waits without fields. -/
def EmitsInterface (s : Site) (r r' : Resolver ε) : Prop :=
  ∃ (opening : Table Opening) (last : Resolver ε) (fs : List Field)
    (news : List (List (String × Declaration ε))),
    s.EmitsProperties (Resolver.declared { r with opening := opening } (s.interface ε []))
      (Schema.properties s.schema) fs news last ∧
    r'.queue.waiting.entries =
      r.queue.waiting.entries ++ (s.typeName, s.interface ε fs) :: news.flatten

/-- Marks and expressions do not matter. -/
theorem EmitsInterface.of_opened {s : Site} {r r' r'' : Resolver ε} {typeName : String}
    {o : Opening} (h : s.EmitsInterface (r.opened typeName o) r')
    (hq : r''.queue = r'.queue) : s.EmitsInterface r r'' := by
  obtain ⟨opening, last, fs, news, hemits, hentries⟩ := h
  refine ⟨opening, last, fs, news, hemits, ?_⟩
  rw [hq, hentries]
  rfl

end Site

namespace Resolver

/-! ### Interfaces -/

/-- Fields are made by the emissions of the properties that are no extensions. -/
theorem emitsProperties_fields {s : Site} {ps : List (String × Json)} {r r' : Resolver ε}
    {fs : List Field} (h : exec (fields emitAt s.place s.schema ps) r = (.ok fs, r')) :
    ∃ news, s.EmitsProperties r (ps.filter fun p => !isExtension p.1) fs news r' := by
  induction ps generalizing r fs with
  | nil =>
    cases h
    exact ⟨[], .nil _⟩
  | cons p ps ih =>
    rw [exec_fields_cons] at h
    rw [List.filter_cons]
    by_cases hx : isExtension p.1 = true
    · rw [if_pos hx] at h
      rw [hx]
      exact ih h
    · rw [if_neg hx, exec_field, emitInner] at h
      rw [Bool.not_eq_true] at hx
      rw [hx]
      let place := s.place ++ "." ++ Name.fieldName p.1
      have hg := grows_emit (Name.ofPath place) (.inline p.2) (some place) r
      rcases hemit : exec (emit (Name.ofPath place) (.inline p.2) (some place)) r
        with ⟨e | t, r₁⟩ <;> rw [emitAt, hemit] at h
      · cases h
      · rw [hemit] at hg
        obtain ⟨rest, hrest, rfl⟩ := eq_ok_of_mapValue h
        obtain ⟨news, hnews⟩ := ih hrest
        obtain ⟨new, hnew, -⟩ := hg.waiting
        exact ⟨new :: news, .cons hemit hnew hnews⟩

/-- An interface whose name is known changes nothing; any other is emitted. -/
theorem queue_emitStruct {s : Site} {r r' : Resolver ε} {t : TypeExpr}
    (h : exec (emitStruct emitAt s.typeName s.schema s.place) r = (.ok t, r')) :
    r'.queue = r.queue ∨ s.EmitsInterface r r' := by
  rw [exec_emitStruct] at h
  split at h
  · cases h
    exact Or.inl rfl
  · next hnew =>
    right
    rw [Bool.not_eq_true] at hnew
    have hg := grows_fields grows_emitAt s.place s.schema (s.schema.get "properties").fields
      (r.declared (s.interface ε []))
    rcases hexec : exec (fields emitAt s.place s.schema (s.schema.get "properties").fields)
      (r.declared (s.interface ε [])) with ⟨e | fs, last⟩
    · rw [Site.interface] at hexec
      rw [hexec] at h
      cases h
    · rw [hexec] at hg
      rw [Site.interface] at hexec
      rw [hexec] at h
      cases h
      obtain ⟨news, hemits⟩ := emitsProperties_fields hexec
      -- the same entries came behind the head as stand behind the complete interface
      obtain ⟨es, hbefore, hafter, -⟩ :=
        entries_completed (c := s.interface ε []) (d := s.interface ε fs) hnew rfl hg
      have hhead : (r.declared (s.interface ε [])).queue.waiting.entries =
          r.queue.waiting.entries ++ [(s.typeName, s.interface ε [])] := entries_declared hnew
      have hes : es = news.flatten := by
        have hentries : last.queue.waiting.entries =
            (r.declared (s.interface ε [])).queue.waiting.entries ++ news.flatten :=
          hemits.entries
        rw [hbefore, hhead] at hentries
        simpa using hentries
      exact ⟨r.opening, last, fs, news, hemits, hes ▸ hafter⟩

/-- The same of an emission of a schema of that kind. -/
theorem queue_emit_struct {typeName : String} {node n : Node} {fqn : Option String}
    {r r' : Resolver ε} {t : TypeExpr} (h : exec (emit typeName node fqn) r = (.ok t, r'))
    (hn : r.nodeFor typeName node = .ok n) (hk : Schema.classify n.schema = .ok .struct) :
    r'.queue = r.queue ∨
      Site.EmitsInterface ⟨typeName, n, Definitions.withoutStart (fqn.getD typeName)⟩ r r' := by
  let s : Site := ⟨typeName, n, Definitions.withoutStart (fqn.getD typeName)⟩
  rw [exec_emit_eq_step, exec_emitStep, hn] at h
  dsimp only at h
  cases ha : r.admission typeName n s.place with
  | error e =>
    rw [ha] at h
    cases h
  | ok kind =>
    have hkind := classify_of_admission ha
    rw [hk, Except.ok.injEq] at hkind
    subst hkind
    rw [ha] at h
    dsimp only [Kind.scalar?] at h
    split at h
    · rw [exec_emitDefinition] at h
      cases hfind : r.resolved.find? typeName with
      | some u =>
        rw [hfind] at h
        cases h
        exact Or.inl rfl
      | none =>
        rw [hfind] at h
        dsimp only at h
        rcases hexec : exec (emitKind emitAt .struct typeName n.schema s.place)
          (r.opened typeName ⟨s.place, .struct⟩) with ⟨e | u, r₁⟩ <;> rw [hexec] at h <;>
          dsimp only at h <;> split at h <;> cases h
        -- taking the mark off and remembering the name leave the queue
        rcases queue_emitStruct (s := s) hexec with hq | hq
        · exact Or.inl hq
        · exact Or.inr (hq.of_opened rfl)
    · exact queue_emitStruct (s := s) h

/-! ### Successful emissions -/

/-- Between two states in which no definition is open, only the ends of the queue and of
the resolved definitions change. -/
structure Appends (r r' : Resolver ε) : Prop where
  exclusions : r'.exclusions = r.exclusions
  definitions : r'.definitions = r.definitions
  written : r'.queue.written = r.queue.written
  waiting : r.queue.waiting.entries <+: r'.queue.waiting.entries
  resolved : r.resolved.entries <+: r'.resolved.entries
  opening : r.opening = .empty ∧ r'.opening = .empty

theorem Grows.appends {r r' : Resolver ε} (h : Grows r r') (ho : r.opening = .empty) :
    Appends r r' where
  exclusions := h.exclusions
  definitions := h.definitions
  written := h.written
  waiting := h.prefix_waiting
  resolved := h.resolved
  opening := ⟨ho, h.opening_eq_empty ho⟩

/-- **A successful emission only appends**, and if it emits an interface it leaves the queue
as it is, or the interface comes first of what is new, and what its properties put in the
queue follows in their order. -/
theorem emit_appends (es : List Exclusion) (ds : Definitions) (ops : List (Operation ε))
    (typeName : String) (node : Node) (fqn : Option String) (t : TypeExpr)
    (h : (exec (emit typeName node fqn) (operateAll ops (fresh es ds)).2).1 = .ok t) :
    let before := (operateAll ops (fresh es ds)).2
    let after := (exec (emit typeName node fqn) before).2
    Appends before after ∧
      ∀ n, before.nodeFor typeName node = .ok n → Schema.classify n.schema = .ok .struct →
        after.queue = before.queue ∨
          Site.EmitsInterface ⟨typeName, n, Definitions.withoutStart (fqn.getD typeName)⟩
            before after := by
  intro before after
  have hs : before.IsSettled := isSettled_operateAll ops (isSettled_fresh es ds)
  refine ⟨(grows_emit typeName node fqn before).appends hs.opening, fun n hn hk => ?_⟩
  exact queue_emit_struct (r := before) (Prod.ext h rfl) hn hk

/-- Interfaces that lead to one another, and an enum inside of one. -/
def nestedInterfaces : Definitions :=
  Definitions.empty.defineAll
    [("a.Foo", .obj [("properties", .obj [
        ("kind", .obj [("enum", .arr [.str "x"]), ("type", .str "string")]),
        ("x-note", .obj [("properties", .obj [])]),
        ("bar", .obj [("$ref", .str "#/definitions/a.Bar")]),
        ("tail", .obj [("properties", .obj [])])])]),
      ("a.Bar", .obj [("properties", .obj [
        ("foo", .obj [("$ref", .str "#/definitions/a.Foo")]),
        ("baz", .obj [("$ref", .str "#/definitions/a.Baz")])])]),
      ("a.Baz", .obj [("properties", .obj [])])]

/-- Behind a failure and an emission of `a.Baz`, `a.Foo` comes first, and what its second
field leads to before the third one. -/
theorem emit_appends_nestedInterfaces :
    let ops : List (Operation Empty) :=
      [.emit "Bad" (.inline (.obj [("type", .str "array")])) none,
        .emit "Baz" (nestedInterfaces.node "a.Baz") (some "a.Baz")]
    let before := (operateAll ops (fresh [] nestedInterfaces)).2
    let foo := nestedInterfaces.node "a.Foo"
    let after := (exec (emit "Foo" foo (some "a.Foo")) before).2
    before.queue.names = ["Baz"] ∧
      after.queue.names = ["Baz", "Foo", "AFooKind", "Bar", "AFooTail"] ∧
        Appends before after ∧ Site.EmitsInterface ⟨"Foo", foo, "a.Foo"⟩ before after := by
  intro ops before foo after
  have hnames : before.queue.names = ["Baz"] ∧
      after.queue.names = ["Baz", "Foo", "AFooKind", "Bar", "AFooTail"] := by decide +kernel
  have hgiven : (exec (emit "Foo" foo (some "a.Foo")) before).1 = .ok (.named "Foo") :=
    eq_ok_of_toOption (by decide +kernel)
  obtain ⟨happends, hstruct⟩ := emit_appends [] nestedInterfaces ops "Foo" foo (some "a.Foo") _
    hgiven
  refine ⟨hnames.1, hnames.2, happends, ?_⟩
  have hplace : Definitions.withoutStart "a.Foo" = "a.Foo" := by decide +kernel
  rcases hstruct foo rfl rfl with hq | hemits
  · have heq : after.queue.names = before.queue.names := congrArg Queue.names hq
    rw [hnames.1, hnames.2] at heq
    exact absurd heq (by decide)
  · rwa [Option.getD_some, hplace] at hemits

end Resolver
end SchemaScript
