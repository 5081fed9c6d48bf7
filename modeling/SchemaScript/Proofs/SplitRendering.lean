import SchemaScript.Proofs.Emission.Parallel
import SchemaScript.Proofs.Rendering
import SchemaScript.Proofs.Sessions

/-!
# Rendering in pieces

Emissions and changes of the definitions are carried out twice: once with renderings in
between, and once without them.  A rendering moves what waits to the written names, and
nothing else depends on whether a known name waits or is written.  So all commands but the
renderings answer the same, failures included, and the texts of the renderings, one behind
the other, are the text of a single one at the end.

## Main definitions

* `Command.IsPlain` — emissions and changes of the definitions.
* `Workshop.Split` — the states of the two sessions.
* `Workshop.unrendered`, `Workshop.joinedTexts` — the answers of a session.

## Main results

* `split_perform`, `split_render` — one command.
* `split_session` — commands one after the other.
* `rendering_splits` — both sessions from the start to the last rendering.
-/

namespace SchemaScript

/-- The schema that a command comes with has texts for descriptions. -/
def Source.HasTexts : Source → Prop
  | .given schema => Schema.Everywhere Schema.HasText schema
  | .defined _ => True

/-- The command emits something or changes the definitions, with texts for descriptions. -/
def Command.IsPlain : Command → Prop
  | .emit _ source _ => source.HasTexts
  | .emitNamed _ => True
  | .define _ source => source.HasTexts
  | .addAlias _ _ => True
  | _ => False

/-- The command is a rendering. -/
def Command.isRendering : Command → Bool
  | .render _ => true
  | _ => false

theorem Command.IsPlain.not_isRendering {c : Command} (hc : c.IsPlain) :
    c.isRendering = false := by
  cases c with
  | render _ => exact hc.elim
  | _ => rfl

/-- The text that is answered. -/
def Answer.text? : Except Failure Answer → Option String
  | .ok (.text s) => some s
  | _ => none

namespace Workshop

open Stateful Resolver

/-- The answers to the commands that are no renderings. -/
def unrendered (cs : List Command) (os : List (Except Failure Answer)) :
    List (Except Failure Answer) :=
  ((cs.zip os).filter fun p => !p.1.isRendering).map (·.2)

/-- The texts that are answered, one behind the other. -/
def joinedTexts (os : List (Except Failure Answer)) : String :=
  String.join (os.filterMap Answer.text?)

/-- Every rendering answers a text. -/
def RendersAll (cs : List Command) (os : List (Except Failure Answer)) : Prop :=
  ∀ p ∈ cs.zip os, p.1.isRendering = true → ∃ s, p.2 = .ok (.text s)

/-! ### Answers -/

theorem unrendered_cons_render {c : Command} (hc : c.isRendering = true) (cs : List Command)
    (o : Except Failure Answer) (os : List (Except Failure Answer)) :
    unrendered (c :: cs) (o :: os) = unrendered cs os := by
  rw [unrendered, List.zip_cons_cons, List.filter_cons, hc]
  rfl

theorem unrendered_cons_plain {c : Command} (hc : c.isRendering = false) (cs : List Command)
    (o : Except Failure Answer) (os : List (Except Failure Answer)) :
    unrendered (c :: cs) (o :: os) = o :: unrendered cs os := by
  rw [unrendered, List.zip_cons_cons, List.filter_cons, hc]
  rfl

theorem joinedTexts_cons_text (text : String) (os : List (Except Failure Answer)) :
    joinedTexts (.ok (.text text) :: os) = text ++ joinedTexts os := by
  simp [joinedTexts, Answer.text?, String.join_cons]

theorem joinedTexts_cons_of_none {o : Except Failure Answer} (ho : Answer.text? o = none)
    (os : List (Except Failure Answer)) : joinedTexts (o :: os) = joinedTexts os := by
  rw [joinedTexts, joinedTexts, List.filterMap_cons, ho]

theorem joinedTexts_concat (os : List (Except Failure Answer)) (text : String) :
    joinedTexts (os ++ [.ok (.text text)]) = joinedTexts os ++ text := by
  rw [joinedTexts, List.filterMap_append, String.join_append]
  simp [joinedTexts, Answer.text?]

theorem RendersAll.cons {c : Command} {cs : List Command} {o : Except Failure Answer}
    {os : List (Except Failure Answer)} (h : RendersAll cs os)
    (hc : c.isRendering = true → ∃ s, o = .ok (.text s)) : RendersAll (c :: cs) (o :: os) := by
  intro p hp hr
  rcases List.mem_cons.mp hp with rfl | hp
  · exact hc hr
  · exact h p hp hr

/-! ### States of the two sessions -/

/-- Between commands: what the second session has rendered still waits in the first one, in
front of what waits in both, and all of it can be written. -/
structure Split (front : List (String × Declaration Script)) (a b : Resolver Script) :
    Prop where
  parallel : Parallel b.exclusions b.definitions b.definitions front a b
  texts : b.definitions.Each (Schema.Everywhere Schema.HasText)
  nodup : a.queue.names.Nodup
  writable : ∀ e ∈ a.queue.waiting.entries, e.2.IsWritable

theorem split_fresh (es : List Exclusion) {ds : Definitions}
    (hds : ds.Each (Schema.Everywhere Schema.HasText)) :
    Split [] (fresh es ds) (fresh es ds) where
  parallel := ⟨⟨rfl, rfl⟩, ⟨rfl, rfl⟩, rfl, fun name => by simp, rfl, rfl⟩
  texts := hds
  nodup := List.nodup_nil
  writable := fun _ h => absurd h List.not_mem_nil

section

variable {front : List (String × Declaration Script)} {a b : Resolver Script}

/-- An emission answers the same in both sessions and leaves them split as they were. -/
theorem Split.emit (h : Split front a b) (typeName : String) {node : Node}
    (hn : Schema.Everywhere Schema.HasText node.schema) (fqn : Option String) :
    (exec (emit typeName node fqn) a).1 = (exec (emit typeName node fqn) b).1 ∧
      Split front (exec (emit typeName node fqn) a).2 (exec (emit typeName node fqn) b).2 := by
  obtain ⟨hout, hstates⟩ := parallel_emit (Definitions.matches_self b.exclusions b.definitions)
    h.parallel (rfl : node = node) typeName fqn
  have ha := grows_emit typeName node fqn a
  have hb := grows_emit typeName node fqn b
  have htexts : a.definitions.Each (Schema.Everywhere Schema.HasText) := by
    rw [h.parallel.definitions.1]
    exact h.texts
  refine ⟨hout, ?_, ?_, ha.nodup h.nodup, isWritable_emit htexts typeName hn fqn h.writable⟩
  · rwa [hb.exclusions, hb.definitions]
  · rw [hb.definitions]
    exact h.texts

/-- A change of the definitions leaves the sessions split as they were. -/
theorem Split.redefined (h : Split front a b) (f : Definitions → Definitions)
    (hf : (f b.definitions).Each (Schema.Everywhere Schema.HasText)) :
    Split front { a with definitions := f a.definitions }
      { b with definitions := f b.definitions } where
  parallel := { h.parallel with
    definitions := ⟨congrArg f h.parallel.definitions.1, rfl⟩ }
  texts := hf
  nodup := h.nodup
  writable := h.writable

/-- What waits in the second session waits in the first. -/
theorem Split.sublist (h : Split front a b) :
    b.queue.waiting.entries.Sublist a.queue.waiting.entries := by
  rw [h.parallel.waiting]
  exact List.sublist_append_right _ _

/-- What is in front can be written, and so can what waits in the second session. -/
theorem Split.isWritable (h : Split front a b) :
    (∀ d ∈ front.map (·.2), d.IsWritable) ∧ ∀ d ∈ b.queue.declarations, d.IsWritable := by
  have hall : ∀ e ∈ front ++ b.queue.waiting.entries, e.2.IsWritable := by
    rw [← h.parallel.waiting]
    exact h.writable
  refine ⟨fun d hd => ?_, fun d hd => ?_⟩
  · obtain ⟨e, he, rfl⟩ := List.mem_map.mp hd
    exact hall e (List.mem_append_left _ he)
  · obtain ⟨e, he, rfl⟩ := List.mem_map.mp hd
    exact hall e (List.mem_append_right _ he)

/-- What waits in the first session is in front, or it waits in the second. -/
theorem Split.declarations (h : Split front a b) :
    a.queue.declarations = front.map (·.2) ++ b.queue.declarations := by
  rw [Queue.declarations, Table.values, h.parallel.waiting, List.map_append]
  rfl

/-- The first session alone has rendered nothing. -/
theorem Split.self (h : Split front a b) : Split [] a a where
  parallel := ⟨⟨rfl, rfl⟩, ⟨rfl, rfl⟩, rfl, fun name => by simp, rfl, rfl⟩
  texts := by
    rw [h.parallel.definitions.1]
    exact h.texts
  nodup := h.nodup
  writable := h.writable

/-- Once the second session has rendered, what waited there is in front. -/
theorem Split.retired (h : Split front a b) :
    Split (front ++ b.queue.waiting.entries) a (b.retiredAll b.queue.names) where
  parallel := by
    have hempty := waiting_retiredAll_names b
    refine ⟨?_, ?_, ?_, fun name => ?_, ?_, ?_⟩
    · exact ⟨h.parallel.exclusions.1.trans (by simp), by simp⟩
    · exact ⟨h.parallel.definitions.1.trans (by simp), by simp⟩
    · rw [hempty, List.append_nil]
      exact h.parallel.waiting
    · rw [isWritten_retiredAll, h.parallel.written, List.map_append, List.mem_append,
        Queue.names, Table.keys]
      tauto
    · rw [resolved_retiredAll]
      exact h.parallel.resolved
    · rw [opening_retiredAll]
      exact h.parallel.opening
  texts := by
    rw [definitions_retiredAll]
    exact h.texts
  nodup := h.nodup
  writable := h.writable

end

/-! ### Commands -/

/-- The schema at hand is the same in both sessions. -/
theorem nodeOf_eq {a b : Resolver Script} (hds : a.definitions = b.definitions)
    (source : Source) : nodeOf a source = nodeOf b source := by
  cases source with
  | given schema => rfl
  | defined name => rw [nodeOf, nodeOf, hds]

/-- The schema at hand has texts for descriptions. -/
theorem Split.hasTexts {front : List (String × Declaration Script)} {a b : Resolver Script}
    (h : Split front a b) {source : Source} (hs : source.HasTexts) :
    Schema.Everywhere Schema.HasText (nodeOf b source).schema := by
  cases source with
  | given schema => exact hs
  | defined name => exact h.texts name

theorem perform_eq (c : Command) :
    perform c = performStep (performWith (nestingLimit - 1)) c := rfl

/-- A command that does nothing but emit, with a schema at hand that is the same in both
sessions. -/
theorem split_emission {front : List (String × Declaration Script)} {w v : Workshop Script}
    (h : Split front w.resolver v.resolver) (typeName : String) {node : Node}
    (hn : Schema.Everywhere Schema.HasText node.schema) (fqn : Option String)
    {m : Resolving Script Answer} (hm : ∀ r : Resolver Script,
      r.definitions = v.resolver.definitions →
        exec m r = mapValue .type (exec (emit typeName node fqn) r)) :
    (exec (resolving m) w).1 = (exec (resolving m) v).1 ∧
      Split front (exec (resolving m) w).2.resolver (exec (resolving m) v).2.resolver ∧
      Answer.text? (exec (resolving m) v).1 = none := by
  obtain ⟨hout, hstates⟩ := h.emit typeName hn fqn
  rw [exec_resolving, exec_resolving, hm _ h.parallel.definitions.1, hm _ rfl]
  refine ⟨congrArg (Except.map Answer.type) hout, hstates, ?_⟩
  rcases exec (emit typeName node fqn) v.resolver with ⟨e | t, r⟩ <;> rfl

/-- **A command that is no rendering answers the same in both sessions**, and no text. -/
theorem split_perform {front : List (String × Declaration Script)} {w v : Workshop Script}
    (h : Split front w.resolver v.resolver) {c : Command} (hc : c.IsPlain) :
    (exec (perform c) w).1 = (exec (perform c) v).1 ∧
      Split front (exec (perform c) w).2.resolver (exec (perform c) v).2.resolver ∧
      Answer.text? (exec (perform c) v).1 = none := by
  rw [perform_eq]
  cases c with
  | emit typeName source fqn =>
    refine split_emission h typeName (h.hasTexts hc) fqn fun r hr => ?_
    rw [exec_bind_ok (exec_get r), exec_bind_pure, nodeOf_eq hr source]
  | emitNamed name =>
    refine split_emission h (Name.ofDefinition name) (h.texts name) (some name) fun r hr => ?_
    rw [exec_bind_pure, exec_emitNamed, hr]
  | define name source =>
    refine ⟨rfl, ?_, rfl⟩
    show Split front
      { w.resolver with
        definitions := w.resolver.definitions.share name (nodeOf w.resolver source) }
      { v.resolver with
        definitions := v.resolver.definitions.share name (nodeOf v.resolver source) }
    rw [nodeOf_eq h.parallel.definitions.1 source]
    exact h.redefined (fun ds => ds.share name (nodeOf v.resolver source))
      (Definitions.each_share h.texts name (h.hasTexts hc))
  | addAlias name target =>
    refine ⟨rfl, ?_, rfl⟩
    exact h.redefined (fun ds => ds.addAlias name target)
      (Definitions.each_addAlias h.texts (fun text => Schema.Everywhere.reference rfl) name target)
  | _ => exact hc.elim

/-- **A rendering** gives the text of what waits and changes nothing that the commands
answer by. -/
theorem split_render {front : List (String × Declaration Script)} {a : Resolver Script}
    {v : Workshop Script} (h : Split front a v.resolver) (indent : String) :
    (exec (perform (.render (some indent))) v).1 =
        .ok (.text (Declaration.textOf indent v.resolver.queue.declarations)) ∧
      Split (front ++ v.resolver.queue.waiting.entries) a
        (exec (perform (.render (some indent))) v).2.resolver := by
  have hnodup : v.resolver.queue.names.Nodup := h.nodup.sublist (h.sublist.map _)
  have hrender : exec (render scriptWeight (runScript (performWith (nestingLimit - 1)) .sheet)
      (some indent)) v = (.ok (Declaration.textOf indent v.resolver.queue.declarations),
        { v with resolver := v.resolver.retiredAll v.resolver.queue.names }) :=
    exec_render_of_isWritable (fun e he => h.writable e (h.sublist.subset he)) hnodup indent
  have hexec : exec (perform (.render (some indent))) v =
      (.ok (.text (Declaration.textOf indent v.resolver.queue.declarations)),
        { v with resolver := v.resolver.retiredAll v.resolver.queue.names }) := by
    rw [perform_eq, performStep, exec_bind_ok hrender, exec_pure]
  rw [hexec]
  exact ⟨rfl, h.retired⟩

/-! ### Sessions -/

theorem session_cons (c : Command) (cs : List Command) (w : Workshop Script) :
    session (c :: cs) w =
      ((exec (perform c) w).1 :: (session cs (exec (perform c) w).2).1,
        (session cs (exec (perform c) w).2).2) := rfl

/-- The answer to one more command. -/
theorem session_concat (cs : List Command) (c : Command) (w : Workshop Script) :
    (session (cs ++ [c]) w).1 =
      (session cs w).1 ++ [(exec (perform c) (session cs w).2).1] := by
  induction cs generalizing w with
  | nil => rfl
  | cons d cs ih => rw [List.cons_append, session_cons, ih, session_cons, List.cons_append]

theorem length_session (cs : List Command) (w : Workshop Script) :
    (session cs w).1.length = cs.length := by
  induction cs generalizing w with
  | nil => rfl
  | cons c cs ih => rw [session_cons, List.length_cons, ih, List.length_cons]

/-- Every command of a session with one more has its answer. -/
theorem zip_session_concat (cs : List Command) (c : Command) (w : Workshop Script) :
    (cs ++ [c]).zip (session (cs ++ [c]) w).1 =
      cs.zip (session cs w).1 ++ [(c, (exec (perform c) (session cs w).2).1)] := by
  rw [session_concat]
  exact List.zip_append (length_session cs w).symm

/-- **Commands one after the other**, once with the renderings among them and once without
them. -/
theorem split_session {indent : String} {cs : List Command}
    (hcs : ∀ c ∈ cs, c = .render (some indent) ∨ c.IsPlain)
    {front : List (String × Declaration Script)} {w v : Workshop Script}
    (h : Split front w.resolver v.resolver) :
    unrendered cs (session cs v).1 = (session (cs.filter (!·.isRendering)) w).1 ∧
      RendersAll cs (session cs v).1 ∧
      ∃ front', Split front' (session (cs.filter (!·.isRendering)) w).2.resolver
          (session cs v).2.resolver ∧
        Declaration.textOf indent (front'.map (·.2)) =
          Declaration.textOf indent (front.map (·.2)) ++ joinedTexts (session cs v).1 := by
  induction cs generalizing front w v with
  | nil =>
    refine ⟨rfl, fun p hp => absurd hp List.not_mem_nil, front, h, ?_⟩
    exact (String.append_empty ..).symm
  | cons c cs ih =>
    have hrest : ∀ d ∈ cs, d = .render (some indent) ∨ d.IsPlain :=
      fun d hd => hcs d (List.mem_cons_of_mem c hd)
    rw [session_cons]
    rcases hcs c List.mem_cons_self with rfl | hc
    · -- the first session passes the rendering over
      obtain ⟨hout, hsplit⟩ := split_render h indent
      obtain ⟨hsame, hall, front', hsplit', htext⟩ := ih hrest hsplit
      obtain ⟨hfront, hwait⟩ := h.isWritable
      rw [unrendered_cons_render rfl]
      refine ⟨hsame, hall.cons fun _ => ⟨_, hout⟩, front', hsplit', ?_⟩
      rw [htext, List.map_append, show v.resolver.queue.waiting.entries.map (·.2) =
        v.resolver.queue.declarations from rfl, Declaration.textOf_append hfront hwait, hout,
        joinedTexts_cons_text, String.append_assoc]
    · have hnot := hc.not_isRendering
      obtain ⟨hout, hsplit, hno⟩ := split_perform h hc
      obtain ⟨hsame, hall, front', hsplit', htext⟩ := ih hrest hsplit
      rw [unrendered_cons_plain hnot, joinedTexts_cons_of_none hno, List.filter_cons, hnot,
        Bool.not_false, if_pos rfl, session_cons, hout, hsame]
      refine ⟨rfl, hall.cons fun hr => ?_, front', hsplit', htext⟩
      rw [hnot] at hr
      cases hr

/-- **Rendering may be split anywhere.**  Without the renderings in between, all other
commands answer the same, and the text of the one rendering at the end is that of the
renderings in between and at the end, one behind the other. -/
theorem rendering_splits (es : List Exclusion) {ds : Definitions}
    (hds : ds.Each (Schema.Everywhere Schema.HasText)) {indent : String} {cs : List Command}
    (hcs : ∀ c ∈ cs, c = .render (some indent) ∨ c.IsPlain) :
    let w : Workshop Script := .ofResolver (fresh es ds)
    let last : Command := .render (some indent)
    let split := (session (cs ++ [last]) w).1
    let whole := (session (cs.filter (!·.isRendering) ++ [last]) w).1
    RendersAll (cs ++ [last]) split ∧
      whole = unrendered (cs ++ [last]) split ++ [.ok (.text (joinedTexts split))] := by
  intro w last split whole
  obtain ⟨hsame, hall, front, hsplit, htext⟩ := split_session hcs (w := w) (v := w)
    (split_fresh es hds)
  let v := (session cs w).2
  let u := (session (cs.filter (!·.isRendering)) w).2
  -- the last rendering of each session
  have hlast : (exec (perform last) v).1 =
      .ok (.text (Declaration.textOf indent v.resolver.queue.declarations)) :=
    (split_render hsplit indent).1
  have hsingle : (exec (perform last) u).1 =
      .ok (.text (Declaration.textOf indent u.resolver.queue.declarations)) :=
    (split_render hsplit.self indent).1
  have hzip : (cs ++ [last]).zip split = cs.zip (session cs w).1 ++
      [(last, (exec (perform last) v).1)] := zip_session_concat cs last w
  refine ⟨fun p hp hr => ?_, ?_⟩
  · rw [hzip, List.mem_append, List.mem_singleton] at hp
    rcases hp with hp | rfl
    · exact hall p hp hr
    · exact ⟨_, hlast⟩
  · have hanswers : unrendered (cs ++ [last]) split = unrendered cs (session cs w).1 := by
      rw [unrendered, hzip, List.filter_append, List.map_append]
      exact List.append_nil _
    have hpieces : joinedTexts split = joinedTexts (session cs w).1 ++
        Declaration.textOf indent v.resolver.queue.declarations := by
      show joinedTexts (session (cs ++ [last]) w).1 = _
      rw [session_concat, hlast, joinedTexts_concat]
    have hjoined : Declaration.textOf indent u.resolver.queue.declarations =
        joinedTexts split := by
      rw [hsplit.declarations, Declaration.textOf_append hsplit.isWritable.1 hsplit.isWritable.2,
        htext, hpieces, List.map_nil, Declaration.textOf_nil, String.empty_append]
    show (session (cs.filter (!·.isRendering) ++ [last]) w).1 = _
    rw [session_concat, hanswers, hsame, hsingle, hjoined]

/-- Two interfaces that refer to each other, and one that cannot be emitted. -/
def cyclicDefinitions : List (String × Json) :=
  [("Order", .obj [("description", .str "An order."), ("properties", .obj [
      ("customer", .obj [("$ref", .str "#/definitions/Customer")])])]),
    ("Customer", .obj [("properties", .obj [
      ("last", .obj [("$ref", .str "#/definitions/Order")])])]),
    ("Broken", .obj [("properties", .obj [
      ("order", .obj [("$ref", .str "#/definitions/Order")]),
      ("rest", .obj [("$ref", .str "#/definitions/Missing")])])])]

/-- Emissions that succeed and fail with renderings in between. -/
def cyclicCommands : List Command :=
  [.emitNamed "Broken", .render (some "  "), .emitNamed "Customer", .render (some "  "),
    .addAlias "Client" "Customer", .emitNamed "Client", .emitNamed "Broken"]

/-- The definitions have texts for descriptions, and rendering in between makes no
difference. -/
theorem rendering_splits_cyclicDefinitions :
    let ds := Definitions.empty.defineAll cyclicDefinitions
    let w : Workshop Script := .ofResolver (fresh [] ds)
    let last : Command := .render (some "  ")
    let split := (session (cyclicCommands ++ [last]) w).1
    let whole := (session (cyclicCommands.filter (!·.isRendering) ++ [last]) w).1
    ds.Each (Schema.Everywhere Schema.HasText) ∧
      (∀ c ∈ cyclicCommands, c = .render (some "  ") ∨ c.IsPlain) ∧
      RendersAll (cyclicCommands ++ [last]) split ∧
      whole = unrendered (cyclicCommands ++ [last]) split ++
        [.ok (.text (joinedTexts split))] := by
  intro ds w last split whole
  have hds : ds.Each (Schema.Everywhere Schema.HasText) := by
    refine Definitions.each_defineAll (Definitions.each_empty (.null rfl)) fun name v hv => ?_
    -- interfaces, the properties of which are references
    simp only [cyclicDefinitions, List.mem_cons, Prod.mk.injEq, List.not_mem_nil, or_false] at hv
    rcases hv with ⟨-, rfl⟩ | ⟨-, rfl⟩ | ⟨-, rfl⟩ <;>
      refine .of_parts rfl (fun hk => nomatch hk) (fun hk => nomatch hk) fun _ p hp => ?_
    · rw [List.mem_singleton.mp hp]
      exact .reference rfl
    · rw [List.mem_singleton.mp hp]
      exact .reference rfl
    · rcases List.mem_cons.mp hp with rfl | hp
      · exact .reference rfl
      · rw [List.mem_singleton.mp hp]
        exact .reference rfl
  have hcs : ∀ c ∈ cyclicCommands, c = .render (some "  ") ∨ c.IsPlain := by
    simp [cyclicCommands, Command.IsPlain]
  exact ⟨hds, hcs, rendering_splits [] hds hcs⟩

end Workshop
end SchemaScript
