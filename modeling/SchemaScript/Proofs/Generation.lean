import SchemaScript.Proofs.Documents
import SchemaScript.Proofs.Rendering

/-!
# Generation in steps

A document and settings of the right shapes give definitions, with the aliases entered, and
a list of requests.  The text depends on what the requests leave in the queue and on
nothing else of the state.

## Main definitions

* `Document.definitionsOf` — the definitions of a document and of aliases.
* `Document.textFor` — the text for declarations.

## Main results

* `generate_eq_of_resolver`, `generate_eq` — generation is emission of the requests and the text
  for what waits then.
* `exists_textFor` — there is a text for declarations that can be written.
-/

namespace SchemaScript

open Stateful

/-- A value with items counts as given. -/
theorem Json.truthy_of_items {v : Json} {vs : List Json} (h : v.items = .ok vs) (hne : vs ≠ []) :
    v.truthy = true := by
  cases v with
  | arr ws =>
    cases h
    simpa [truthy] using hne
  | str s =>
    cases h
    simpa [truthy] using hne
  | obj fs =>
    cases h
    simpa [truthy] using hne
  | _ => cases h

/-! ### Definitions -/

namespace Definitions

/-- The definitions with aliases entered one after the other. -/
def withAliases (ds : Definitions) : List (String × Json) → Definitions
  | [] => ds
  | (name, target) :: as => (ds.addAlias name target.display).withAliases as

theorem isStamped_withAliases {ds : Definitions} (h : ds.IsStamped)
    (as : List (String × Json)) : (ds.withAliases as).IsStamped := by
  induction as generalizing ds with
  | nil => exact h
  | cons a as ih => exact ih (isStamped_define h a.1 _)

theorem each_withAliases {P : Json → Prop} {ds : Definitions} (h : ds.Each P)
    (href : ∀ text, P (.obj [("$ref", .str text)])) (as : List (String × Json)) :
    (ds.withAliases as).Each P := by
  induction as generalizing ds with
  | nil => exact h
  | cons a as ih => exact ih (each_addAlias h href a.1 a.2.display)

/-- The fields of an object are the definitions that it lists. -/
theorem ofJson_obj (fs : List (String × Json)) : ofJson (.obj fs) = .ok (empty.defineAll fs) := by
  cases fs <;> rfl

end Definitions

namespace Document

open Resolver

/-- The definitions of a document with aliases entered. -/
def definitionsOf (fs as : List (String × Json)) : Definitions :=
  (Definitions.empty.defineAll fs).withAliases as

theorem isStamped_definitionsOf (fs as : List (String × Json)) : (definitionsOf fs as).IsStamped :=
  Definitions.isStamped_withAliases (Definitions.isStamped_defineAll Definitions.isStamped_empty fs)
    as

/-- What holds of the schemas of a document and of references holds of the definitions. -/
theorem each_definitionsOf {P : Json → Prop} (hnull : P .null)
    (href : ∀ text, P (.obj [("$ref", .str text)])) {fs : List (String × Json)}
    (hfs : ∀ name v, (name, v) ∈ fs → P v) (as : List (String × Json)) :
    (definitionsOf fs as).Each P :=
  Definitions.each_withAliases (Definitions.each_defineAll (Definitions.each_empty hnull) hfs) href
    as

/-! ### Requests -/

section

variable {ε : Type}

theorem exec_enterAliases (as : List (String × Json)) (r : Resolver ε) :
    exec (enterAliases as) r =
      (.ok (), { r with definitions := r.definitions.withAliases as }) := by
  induction as generalizing r with
  | nil => rfl
  | cons a as ih => exact ih { r with definitions := r.definitions.addAlias a.1 a.2.display }

/-- Entering the aliases and emitting what is requested. -/
theorem exec_emitRequests {s : Settings} {as : List (String × Json)} (has : s.aliases = .obj as)
    (es : List Exclusion) (given : Definitions) {names : List Json}
    (hnames : requests (fresh es (given.withAliases as) : Resolver ε) s.emitTypes = .ok names) :
    exec (emitRequests s) (fresh es given : Resolver ε) =
      exec (emitAll names) (fresh es (given.withAliases as)) := by
  unfold emitRequests
  rw [has]
  dsimp only
  rw [exec_bind_ok (exec_enterAliases as _), exec_bind_ok (exec_get _)]
  show exec (do emitAll (← requests (fresh es (given.withAliases as)) s.emitTypes)) _ = _
  rw [hnames]
  rfl

/-- What is picked out is what is requested. -/
theorem requests_of_items {emitTypes : Json} {names : List Json}
    (h : emitTypes.items = .ok names) (hne : names ≠ []) (r : Resolver ε) :
    requests r emitTypes = .ok names := by
  rw [requests, Json.truthy_of_items h hne, if_pos rfl, h]

end

/-! ### The text -/

/-- The text for declarations: the comment and then the declarations, on one page. -/
def textFor (s : Settings) (commandLine : String) (ds : List (Declaration Empty)) :
    Except Failure String :=
  match exec (writeHeader s commandLine >>= fun _ => Declaration.writeAll ds)
    (Page.blank s.indent.str?) with
  | (.ok _, p) => .ok p.text
  | (.error e, _) => .error e

theorem exists_isText_of_textFor {s : Settings} {commandLine text : String}
    {ds : List (Declaration Empty)} (h : textFor s commandLine ds = .ok text) :
    ∃ page, IsText s commandLine ds page text := by
  unfold textFor at h
  split at h
  · next u p hp =>
    cases h
    exact ⟨p, hp, rfl⟩
  · cases h

/-- What is composed is the text for what waits once everything requested is emitted. -/
theorem exec_compose {s : Settings} {commandLine : String} {r : Resolver Empty}
    (hr : IsUnwritten r) :
    (exec (compose s commandLine) (.ofResolver r)).1 =
      match exec (emitRequests s) r with
      | (.ok _, r') => textFor s commandLine r'.queue.declarations
      | (.error e, _) => .error e := by
  have hu := isUnwritten_emitRequests s hr
  rcases hx : exec (emitRequests s) r with ⟨e | u, r'⟩ <;> rw [hx] at hu
  · have hres : exec (Workshop.resolving (emitRequests s)) (.ofResolver r) =
        (.error e, { Workshop.ofResolver r with resolver := r' }) := by
      rw [Workshop.exec_resolving, show (Workshop.ofResolver r).resolver = r from rfl, hx]
    rw [compose, exec_bind_error hres]
  · let w : Workshop Empty := ⟨r', .blank s.indent.str?, .blank (some Page.usualIndent)⟩
    have hres : exec (Workshop.resolving (emitRequests s)) (.ofResolver r) =
        (.ok u, { Workshop.ofResolver r with resolver := r' }) := by
      rw [Workshop.exec_resolving, show (Workshop.ofResolver r).resolver = r from rfl, hx]
    have hhead : exec (Workshop.writing .shared (writeHeader s commandLine)) w =
        ((exec (writeHeader s commandLine) (.blank s.indent.str?)).1,
          w.withPage (exec (writeHeader s commandLine) (.blank s.indent.str?)).2 .shared) :=
      Workshop.exec_writing .shared _ w
    rw [compose, exec_bind_ok hres, exec_bind_ok (exec_modify _ _)]
    show (exec _ w).1 = textFor s commandLine r'.queue.declarations
    rw [textFor]
    rcases hh : exec (writeHeader s commandLine) (.blank s.indent.str?) with ⟨e | u', p⟩ <;>
      rw [hh] at hhead
    · rw [exec_bind_error hhead, exec_bind_error hh]
    · -- in a document there are no scripts at all
      have hno : ∀ e ∈ r'.queue.waiting.entries, e.2.body.script? = none := fun e _ => by
        cases e.2.body.script? with
        | none => rfl
        | some v => exact v.elim
      have hdrain : Workshop.WritesAll .shared (Workshop.drain Empty.elim Empty.elim .shared)
          (w.withPage p .shared) := Workshop.exec_drain_of_noScripts hno hu.settled.nodup
      rw [exec_bind_ok hhead, exec_bind_ok hh]
      rcases hd : exec (Declaration.writeAll r'.queue.declarations) p with ⟨e | u'', q⟩
      · have herror : (exec (Workshop.drain Empty.elim Empty.elim .shared)
            (w.withPage p .shared)).1 = .error e := hdrain.1.trans (congrArg Prod.fst hd)
        rcases hw : exec (Workshop.drain Empty.elim Empty.elim .shared) (w.withPage p .shared)
          with ⟨o, v⟩
        rw [hw] at herror
        rw [exec_bind_error (hw.trans (Prod.ext herror rfl))]
      · rw [exec_bind_ok (hdrain.2 q hd), exec_bind_ok (exec_get _)]
        rfl

section

variable {compile : Compiler}

/-- Once the document and the settings are read, generation is emission and the text. -/
theorem generate_of_resolver {schema : Json} {s : Settings} {r : Resolver Empty}
    (hr : resolver compile schema s = .ok r) (commandLine : String) :
    (generateWith compile schema s commandLine).1 =
      match exec (emitRequests s) r with
      | (.ok _, r') => textFor s commandLine r'.queue.declarations
      | (.error e, _) => .error e := by
  rw [← exec_compose (isUnwritten_of_resolver hr)]
  unfold generateWith
  rw [hr]

/-- **Generation in steps**: the requests are emitted, and the text is that for what waits
then. -/
theorem generate_eq_of_resolver {schema : Json} {s : Settings} {es : List Exclusion}
    {given : Definitions} {as : List (String × Json)} {names : List Json}
    (hr : resolver compile schema s = .ok (fresh es given)) (has : s.aliases = .obj as)
    (hnames : requests (fresh es (given.withAliases as) : Resolver Empty) s.emitTypes = .ok names)
    (commandLine : String) :
    (generateWith compile schema s commandLine).1 =
      match exec (emitAll names) (fresh es (given.withAliases as)) with
      | (.ok _, r) => textFor s commandLine r.queue.declarations
      | (.error e, _) => .error e := by
  rw [generate_of_resolver hr, exec_emitRequests has es given hnames]

/-- Generation for a document that lists definitions. -/
theorem generate_eq {schema : Json} {s : Settings} {es : List Exclusion}
    {fs as : List (String × Json)} {names : List Json}
    (hfs : schema.get "definitions" = .obj fs) (hes : Exclusion.ofJson compile s.exclude = .ok es)
    (has : s.aliases = .obj as)
    (hnames : requests (fresh es (definitionsOf fs as) : Resolver Empty) s.emitTypes = .ok names)
    (commandLine : String) :
    (generateWith compile schema s commandLine).1 =
      match exec (emitAll names) (fresh es (definitionsOf fs as)) with
      | (.ok _, r) => textFor s commandLine r.queue.declarations
      | (.error e, _) => .error e := by
  have hobj : schema.isObject = true := by
    cases schema with
    | obj _ => rfl
    | _ => cases hfs
  have hr : resolver compile schema s = .ok (fresh es (Definitions.empty.defineAll fs)) := by
    rw [resolver, if_pos hobj, Resolver.ofJsonWith, hes, hfs, Definitions.ofJson_obj]
    rfl
  exact generate_eq_of_resolver hr has hnames commandLine

end

/-- **There is a text for declarations that can be written**, if the exclusions and the
indentation are of the right shapes. -/
theorem exists_textFor {s : Settings} {patterns : List Json} {indent : String}
    (hexclude : s.exclude = .arr patterns) (hindent : s.indent = .str indent)
    (commandLine : String) {ds : List (Declaration Empty)} (hds : ∀ d ∈ ds, d.IsWritable) :
    ∃ text, textFor s commandLine ds = .ok text := by
  have hhead : Page.Shifts (writeHeader s commandLine) := by
    obtain ⟨ls, hls⟩ : ∃ ls, header commandLine s.exclude = .ok ls := by
      unfold header headerText
      rw [hexclude]
      split <;> exact ⟨_, rfl⟩
    unfold writeHeader
    split
    · rw [hls]
      exact (Page.shifts_pure ls).bind fun ls => (Comment.shifts_writeLines ls).bind fun _ =>
        Page.shifts_line ""
    · exact Page.shifts_pure ()
  obtain ⟨_, ls, h⟩ := (hhead.bind fun _ => Declaration.shifts_writeAll hds).appends indent 0
  have hblank : Page.blank s.indent.str? = ⟨some indent, [], 0⟩ := by
    rw [hindent]
    rfl
  refine ⟨Page.text ⟨some indent, [] ++ ls, 0⟩, ?_⟩
  rw [textFor, hblank, h []]

end Document
end SchemaScript
