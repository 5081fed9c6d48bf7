import SchemaScript.Proofs.Emission.Invariants
import SchemaScript.Proofs.SplitRendering
import SchemaScript.Proofs.WritingScripts

/-!
# Declarations made by hand

Once a name is taken over, the declaration made by hand keeps it.  Emissions that ask for
the name or refer to it find it known, and one that fails takes back only what came behind
the declarations that waited.  So the name waits with the script that took it over last, at
its place among the others, until a rendering comes to it and writes what the script
writes; from then on the name cannot be taken over any more.

## Main definitions

* `Command.isWriting` — public commands that bring in only scripts without commands.
* `Command.drain?` — where a rendering drains to.
* `Workshop.Prevails` — what holds of a name that was taken over.

## Main results

* `isInvariant_isSound` — emissions keep the queue sound.
* `goesOn_session` — a session, seen from a name that it does not take over.
* `takeOver_prevails` — taking over a name.
-/

namespace SchemaScript

open Stateful Queue

/-! ### Emissions -/

namespace Resolver

variable {ε : Type}

/-- **Emissions keep the queue sound.** -/
theorem isInvariant_isSound : IsInvariant fun r : Resolver ε => r.queue.IsSound :=
  isInvariant_of_register fun _ d replace h _ => h.register d replace

end Resolver

/-! ### Commands -/

namespace Command

/-- The command is public, and the script that it brings in, if it does, only writes. -/
def isWriting : Command → Bool
  | .takeOver _ script => allOption (fun _ => false) script
  | c => isPublic c

/-- The page that a rendering drains to, and the workshop when it begins. -/
def drain? (w : Workshop Script) : Command → Option (Surface × Workshop Script)
  | .render indent => some (.sheet, w.onSheet (.blank indent))
  | .renderShared => some (.shared, w)
  | _ => none

end Command

namespace Workshop

/-- The queue is sound, and the scripts that wait have no commands. -/
abbrev IsCalm (w : Workshop Script) : Prop :=
  IsOrderly (fun s => SchemaScript.isWriting s = true) w.resolver.queue

theorem isCalm_ofResolver (es : List Exclusion) (ds : Definitions) :
    IsCalm (.ofResolver (.fresh es ds)) := isOrderly_empty

/-- What a command does to the queue. -/
inductive Acts (c : Command) (w w' : Workshop Script) : Prop
  | emits (typeName : String) (node : Node) (fqn : Option String)
    (h : w'.resolver = (exec (Resolver.emit typeName node fqn) w.resolver).2)
  | registers (h : w'.resolver.queue = w.resolver.queue.registerAll c.registration?.toList)
  | renders {perform : Command → Working Script Answer} {on : Surface} {start v : Workshop Script}
    {ts : List (Turn Script)} (hs : start.resolver = w.resolver)
    (hts : Turns (runScript perform on) on start ts v) (h : w'.resolver = v.resolver)

/-- The end of a drain leaves the resolver alone. -/
theorem Stops.resolver {perform : Command → Working Script Answer} {on : Surface}
    {w : Workshop Script} {out : Except Failure Unit × Workshop Script}
    (h : Stops (runScript perform on) on w out) (hw : w.IsCalm) :
    out.2.resolver = w.resolver := by
  cases h with
  | @interrupted name d e w' hnext hf =>
    have hd := resolver_writeDeclaration perform on
      (hw.scripts _ (List.mem_of_head? hnext)) w
    rwa [hf] at hd
  | _ => rfl

/-- **A rendering takes turns** and answers the text of the page, unless it fails. -/
theorem exists_turns_perform {w : Workshop Script} (hw : w.IsCalm) {c : Command} {on : Surface}
    {start : Workshop Script} (hc : c.drain? w = some (on, start)) :
    ∃ ts v, Turns (runScript (performWith (nestingLimit - 1)) on) on start ts v ∧
      (exec (perform c) w).2.resolver = v.resolver ∧
      ∀ a, (exec (perform c) w).1 = .ok a → a = .text (v.page on).text := by
  let run := runScript (performWith (nestingLimit - 1))
  have hdrain : ∀ on (start : Workshop Script), start.IsCalm → ∃ ts v,
      Turns (run on) on start ts v ∧
        (exec (drain scriptWeight (run on) on) start).2.resolver = v.resolver ∧
        ∀ v', exec (drain scriptWeight (run on) on) start = (.ok (), v') → v' = v := by
    intro on start hstart
    have hrun := onlyEnlarge_of_isWriting (performWith (nestingLimit - 1)) on
    obtain ⟨ts, v, hts, hstop⟩ := exists_stops hrun scriptWeight hstart
    refine ⟨ts, v, hts, hstop.resolver (hts.isOrderly hrun hstart), fun v' hv' => ?_⟩
    rw [hv'] at hstop
    cases hstop
    rfl
  rw [perform_eq]
  cases c with
  | render indent =>
    cases hc
    obtain ⟨ts, v, hts, hresolver, htext⟩ := hdrain .sheet (w.onSheet (.blank indent)) hw
    refine ⟨ts, v, hts, ?_⟩
    rw [performStep, exec_bind_pure, exec_render]
    rcases hx : exec (drain scriptWeight (run .sheet) .sheet) (w.onSheet (.blank indent))
      with ⟨e | u, v'⟩ <;> rw [hx] at hresolver
    · refine ⟨hresolver, fun a ha => ?_⟩
      cases ha
    · refine ⟨hresolver, fun a ha => ?_⟩
      cases ha
      rw [htext v' hx]
      rfl
  | renderShared =>
    cases hc
    obtain ⟨ts, v, hts, hresolver, htext⟩ := hdrain .shared w hw
    refine ⟨ts, v, hts, ?_⟩
    rw [performStep, exec_bind]
    rcases hx : exec (drain scriptWeight (run .shared) .shared) w with ⟨e | u, v'⟩ <;>
      rw [hx] at hresolver
    · refine ⟨hresolver, fun a ha => ?_⟩
      cases ha
    · refine ⟨hresolver, fun a ha => ?_⟩
      cases ha
      rw [htext v' hx]
      rfl
  | _ => cases hc

theorem acts_perform {w : Workshop Script} (hw : w.IsCalm) {c : Command}
    (hc : c.isWriting = true) : Acts c w (exec (perform c) w).2 := by
  have hrendering : ∀ {on start}, c.drain? w = some (on, start) →
      start.resolver = w.resolver → Acts c w (exec (perform c) w).2 := by
    intro on start hdrain hstart
    obtain ⟨ts, v, hts, hresolver, -⟩ := exists_turns_perform hw hdrain
    exact .renders hstart hts hresolver
  cases c with
  | emit typeName source fqn =>
    refine .emits typeName (nodeOf w.resolver source) fqn ?_
    rw [perform_eq, performStep, exec_resolving, exec_bind_ok (exec_get _), exec_bind_pure]
    rfl
  | emitNamed name =>
    refine .emits (Name.ofDefinition name) (w.resolver.definitions.node name) (some name) ?_
    rw [perform_eq, performStep, exec_resolving, exec_bind_pure, Resolver.exec_emitNamed]
    rfl
  | render indent => exact hrendering rfl rfl
  | renderShared => exact hrendering rfl rfl
  | emitEnum _ _ _ => cases hc
  | rollback _ => cases hc
  | _ => exact .registers (queue_performStep rfl w)

/-- What a command registers is made by hand. -/
theorem registration?_of_isWriting {c : Command} (hc : c.isWriting = true)
    {x : Registration Script} (hx : c.registration? = some x) :
    ∃ name script, c = .takeOver name script ∧ x = (.byHand name script, true) ∧
      OnlyWrites x.1 := by
  cases c with
  | takeOver name script =>
    cases hx
    refine ⟨name, script, rfl, rfl, fun s hs => ?_⟩
    rw [show script = some s from hs] at hc
    exact hc
  | register _ _ => cases hc
  | registerScript _ _ _ _ _ => cases hc
  | _ => cases hx

/-- **One command** leaves the workshop calm. -/
theorem isCalm_perform {w : Workshop Script} (hw : w.IsCalm) {c : Command}
    (hc : c.isWriting = true) : (exec (perform c) w).2.IsCalm := by
  cases acts_perform hw hc with
  | emits typeName node fqn h =>
    rw [IsCalm, h]
    refine ⟨Resolver.keeps_emit Resolver.isInvariant_isSound typeName node fqn hw.sound, ?_⟩
    obtain ⟨es, he, hb⟩ := (Resolver.grows_emit typeName node fqn w.resolver).waiting
    intro e hm s hs
    rw [he, List.mem_append] at hm
    rcases hm with hm | hm
    · exact hw.scripts e hm s hs
    · -- what is emitted has no script
      rw [(hb e hm).2] at hs
      cases hs
  | registers h =>
    rw [IsCalm, h]
    refine hw.registerAll fun x hx => ?_
    obtain ⟨_, _, -, -, honly⟩ := registration?_of_isWriting hc (Option.mem_toList.mp hx)
    exact honly
  | @renders perform on start v ts hs hts h =>
    rw [IsCalm, h]
    exact hts.isOrderly (onlyEnlarge_of_isWriting perform on) (hs ▸ hw)

/-- **One command**, seen from a name that it does not take over. -/
theorem goesOn_perform {w : Workshop Script} (hw : w.IsCalm) {c : Command}
    (hc : c.isWriting = true) {n : String} (hn : ∀ script, c ≠ .takeOver n script) :
    GoesOn n w.resolver.queue (exec (perform c) w).2.resolver.queue := by
  cases acts_perform hw hc with
  | emits typeName node fqn h =>
    have hg := Resolver.grows_emit typeName node fqn w.resolver
    rw [h]
    exact goesOn_of_prefix n hg.written hg.prefix_waiting
  | registers h =>
    rw [h]
    cases hx : c.registration? with
    | none => exact GoesOn.refl n _
    | some x =>
      obtain ⟨name, script, rfl, rfl, -⟩ := registration?_of_isWriting hc hx
      refine goesOn_register (d := .byHand name script) ?_ w.resolver.queue true
      rintro rfl
      exact hn script rfl
  | @renders perform on start v ts hs hts h =>
    rw [h, ← hs]
    exact hts.goesOn (hs ▸ hw) n

/-! ### Sessions -/

section

variable {w : Workshop Script} (hw : w.IsCalm) {cs : List Command}
  (hcs : ∀ c ∈ cs, c.isWriting = true)

include hw hcs

theorem isCalm_session : (session cs w).2.IsCalm := by
  induction cs generalizing w with
  | nil => exact hw
  | cons c cs ih =>
    rw [session_cons]
    exact ih (isCalm_perform hw (hcs c List.mem_cons_self))
      fun d hd => hcs d (List.mem_cons_of_mem c hd)

/-- **A session, seen from a name** that it does not take over. -/
theorem goesOn_session {n : String} (hn : ∀ script, .takeOver n script ∉ cs) :
    GoesOn n w.resolver.queue (session cs w).2.resolver.queue := by
  induction cs generalizing w with
  | nil => exact GoesOn.refl n _
  | cons c cs ih =>
    have hc := hcs c List.mem_cons_self
    have hfirst : GoesOn n w.resolver.queue (exec (perform c) w).2.resolver.queue :=
      goesOn_perform hw hc fun script h => hn script (h ▸ List.mem_cons_self)
    rw [session_cons]
    refine hfirst.trans (ih (isCalm_perform hw hc) (fun d hd => ?_) fun script hm => ?_)
    · exact hcs d (List.mem_cons_of_mem c hd)
    · exact hn script (List.mem_cons_of_mem c hm)

/-- What is written stays written, whatever is taken over. -/
theorem isWritten_session {n : String} (h : w.resolver.queue.isWritten n = true) :
    (session cs w).2.resolver.queue.isWritten n = true := by
  induction cs generalizing w with
  | nil => exact h
  | cons c cs ih =>
    have hc := hcs c List.mem_cons_self
    rw [session_cons]
    refine ih (isCalm_perform hw hc) (fun d hd => hcs d (List.mem_cons_of_mem c hd)) ?_
    cases acts_perform hw hc with
    | emits typeName node fqn he =>
      rw [he, isWritten, (Resolver.grows_emit typeName node fqn w.resolver).written]
      exact h
    | registers hq =>
      rw [hq, isWritten, written_registerAll]
      exact h
    | @renders perform on start v ts hs hts hv =>
      have hgoes := hts.goesOn (hs ▸ hw) n
      rw [hv]
      rw [hs] at hgoes
      exact isWritten_iff.mpr (hgoes.written.subset (isWritten_iff.mp h))

end

/-! ### Taking over -/

/-- A written name cannot be taken over. -/
theorem exec_takeOver_of_isWritten {n : String} {w : Workshop Script}
    (h : w.resolver.queue.isWritten n = true) (script : Option Script) :
    exec (perform (.takeOver n script)) w = (.ok .nothing, w) := by
  have hrefused : w.resolver.queue.accepts n true = false := by
    rw [Queue.accepts, h]
    rfl
  rw [perform_eq, performStep, exec_resolving, exec_bind_pure, Resolver.exec_enqueueCustom,
    hrefused]
  rfl

/-- What holds of a name that was taken over, when and since. -/
structure Prevails (n : String) (script : Option Script) (before taken w : Workshop Script) :
    Prop where
  /-- The declaration made by hand waits under the name, at the place that the name had or at
  the end, and all else is as it was. -/
  admits : before.resolver.queue.Admits (.byHand n script) taken.resolver.queue
  /-- It waits there until the name is written. -/
  waits : w.resolver.queue.isWritten n = false →
    w.resolver.queue.waiting.find? n = some (.byHand n script)
  /-- Until then the names around it keep their order: those in front are written one after
  the other, and new ones come at the end. -/
  order : w.resolver.queue.isWritten n = false → ∃ done rest new,
    taken.resolver.queue.names = done ++ rest ∧ w.resolver.queue.names = rest ++ new ∧
      w.resolver.queue.written = taken.resolver.queue.written ++ done ∧ n ∈ rest
  /-- The rendering by which the name is written writes what the script writes, and all else
  that it writes is of other names. -/
  renders : w.resolver.queue.isWritten n = false →
    ∀ c on start, c.drain? w = some (on, start) →
      (exec (perform c) w).2.resolver.queue.isWritten n = true →
      ∃ s us t vs v, script = some s ∧
        Renders (performWith (nestingLimit - 1)) on n s start us t vs v ∧
        (exec (perform c) w).2.resolver = v.resolver ∧
        ∀ a, (exec (perform c) w).1 = .ok a → a = .text (v.page on).text
  /-- From then on nothing waits under the name, and taking it over changes nothing. -/
  closed : w.resolver.queue.isWritten n = true → ∀ cs, (∀ c ∈ cs, c.isWriting = true) →
    (session cs w).2.resolver.queue.isWaiting n = false ∧
      ∀ other, exec (perform (.takeOver n other)) (session cs w).2 =
        (.ok .nothing, (session cs w).2)

/-- **Declarations made by hand prevail.**  In a session of public commands with scripts that
only write, a name that is not written when it is taken over waits with the script that
took it over last, whatever is emitted since, until a rendering writes it. -/
theorem takeOver_prevails (es : List Exclusion) (ds : Definitions) (before after : List Command)
    (n : String) (script : Option Script)
    (hcs : ∀ c ∈ before ++ .takeOver n script :: after, c.isWriting = true)
    (hlast : ∀ other, .takeOver n other ∉ after) :
    let w₀ := (session before (.ofResolver (.fresh es ds))).2
    let w₁ := (exec (perform (.takeOver n script)) w₀).2
    w₀.resolver.queue.isWritten n = false → Prevails n script w₀ w₁ (session after w₁).2 := by
  intro w₀ w₁ hnew
  have hbefore : ∀ c ∈ before, c.isWriting = true :=
    fun c hc => hcs c (List.mem_append_left _ hc)
  have htake : (Command.takeOver n script).isWriting = true :=
    hcs _ (List.mem_append_right _ List.mem_cons_self)
  have hafter : ∀ c ∈ after, c.isWriting = true :=
    fun c hc => hcs c (List.mem_append_right _ (List.mem_cons_of_mem _ hc))
  have hw₀ : w₀.IsCalm := isCalm_session (isCalm_ofResolver es ds) hbefore
  have hw₁ : w₁.IsCalm := isCalm_perform hw₀ htake
  have hw : (session after w₁).2.IsCalm := isCalm_session hw₁ hafter
  have hqueue : w₁.resolver.queue = w₀.resolver.queue.register (.byHand n script) true :=
    queue_performStep rfl w₀
  have hadmits : w₀.resolver.queue.Admits (.byHand n script) w₁.resolver.queue := by
    rw [hqueue]
    exact admits_register (accepts_iff.mpr ⟨hnew, Or.inl rfl⟩)
  have hgoes := goesOn_session hw₁ hafter hlast
  have hwaits : (session after w₁).2.resolver.queue.isWritten n = false →
      (session after w₁).2.resolver.queue.waiting.find? n = some (.byHand n script) :=
    fun hn => hgoes.kept _ hadmits.found hn
  refine ⟨hadmits, hwaits, fun hn => ?_, fun hn c on start hc hwritten => ?_,
    fun hn cs hcs' => ?_⟩
  · have hfound : w₁.resolver.queue.waiting.find? n = some (.byHand n script) := hadmits.found
    have hwait : w₁.resolver.queue.isWaiting n = true := by
      rw [isWaiting, Table.contains, hfound]
      rfl
    exact hgoes.exists_names hwait hn
  · obtain ⟨ts, v, hts, hresolver, htext⟩ := exists_turns_perform hw hc
    have hstart : start.resolver = (session after w₁).2.resolver := by
      cases c <;> cases hc <;> rfl
    rw [hresolver] at hwritten
    obtain ⟨s, us, t, vs, hs, hrenders⟩ := exists_renders (hstart ▸ hw) hts
      (hstart ▸ hwaits hn) (hstart ▸ hn) hwritten
    exact ⟨s, us, t, vs, v, hs, hrenders, hresolver, htext⟩
  · have hstill := isWritten_session hw hcs' hn
    refine ⟨?_, exec_takeOver_of_isWritten hstill⟩
    rw [Bool.eq_false_iff]
    intro hwait
    rw [(isCalm_session hw hcs').sound.disjoint n hwait] at hstill
    cases hstill

/-- An interface that refers to `Bar`, the definition of `Bar`, and one that refers to `Bar`
and fails behind it. -/
def barDefinitions : Definitions :=
  Definitions.empty.defineAll
    [("Foo", .obj [("properties", .obj [("bar", .obj [("$ref", .str "#/definitions/Bar")])])]),
      ("Bar", .obj [("properties", .obj [])]),
      ("Bad", .obj [("properties", .obj [("bar", .obj [("$ref", .str "#/definitions/Bar")]),
        ("list", .obj [("type", .str "array")])])]),
      ("Baz", .obj [("properties", .obj [])])]

/-- What a rendering of the interfaces `Foo` and `Baz` writes, with what a script writes for
`Bar` between them. -/
def barText : String :=
  "/**\n * @schema Foo\n */\nexport interface Foo \x7b\n" ++
    "/**\n * @schema Foo#bar\n */\nreadonly bar?: Bar;\n\n\x7d\n\n" ++
    "export type Bar = string;\n\n" ++
    "/**\n * @schema Baz\n */\nexport interface Baz \x7b\n\x7d\n\n"

/-- `Bar` is taken over twice while it waits behind `Foo`.  Then it is asked for, something
that refers to it fails, and another interface comes behind it. -/
theorem takeOver_prevails_barDefinitions :
    let line (text : String) : Option Script := some [.line text]
    let before : List Command := [.emitNamed "Foo", .takeOver "Bar" (line "first")]
    let after : List Command := [.emitNamed "Bar", .emitNamed "Bad", .emitNamed "Baz"]
    let w₀ := (session before (.ofResolver (.fresh [] barDefinitions))).2
    let w₁ := (exec (perform (.takeOver "Bar" (line "export type Bar = string;"))) w₀).2
    let w := (session after w₁).2
    let rendered := exec (perform (.render (some ""))) w
    w₀.resolver.queue.isWritten "Bar" = false ∧ w₁.resolver.queue.names = ["Foo", "Bar"] ∧
      w.resolver.queue.names = ["Foo", "Bar", "Baz"] ∧
      Answer.text? rendered.1 = some barText ∧
        Prevails "Bar" (line "export type Bar = string;") w₀ w₁ w := by
  intro line before after w₀ w₁ w rendered
  have hnew : w₀.resolver.queue.isWritten "Bar" = false := by decide +kernel
  have hlast : ∀ other, Command.takeOver "Bar" other ∉ after := by
    intro other hm
    simp [after] at hm
  exact ⟨hnew, by decide +kernel, by decide +kernel, by decide +kernel,
    takeOver_prevails [] barDefinitions before after "Bar" _ (by decide) hlast hnew⟩

end Workshop
end SchemaScript
