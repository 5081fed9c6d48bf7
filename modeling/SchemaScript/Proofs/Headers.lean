import SchemaScript.Proofs.Comments
import SchemaScript.Proofs.Documents
import SchemaScript.Proofs.Generation

/-!
# The comment at the head of a text

A text starts with lines that tell how it was generated, up to an empty line.  They are to be
comments, so that the head of a text adds nothing to its code.

The lines that stand in every text are comments, and so is that of a command line without line
boundaries.  A pattern is put behind the start of a comment, but as it is: what follows a line
boundary in it becomes a line of its own.  So the head consists of comments exactly if these
further lines of the patterns happen to be comments, and in particular if the patterns have no
line boundaries.

## Main definitions

* `Document.IsLineComment` — a line that is a comment up to its end.
* `Document.furtherLines` — the lines that a pattern opens by itself.

## Main results

* `Text.lines_append_lineFeed`, `Text.lines_append` — lines of texts put together.
* `header_eq` — the lines of the head.
* `header_of_generate` — when the head of a text consists of comments.
* `pattern_leaves_comment` — a head with a line that is none.
-/

namespace SchemaScript

open Stateful

namespace Stateful

theorem exists_ok_of_isSome {α : Type} {o : Except Failure α} (h : o.toOption.isSome = true) :
    ∃ a, o = .ok a := by
  cases o with
  | error e => cases h
  | ok a => exact ⟨a, rfl⟩

end Stateful

/-! ### Lines of texts put together -/

namespace Text

/-- What characters are no line boundaries can be tried out. -/
theorem not_isLineEnd_of_all {cs : List Char} (h : cs.all (!isLineEnd ·) = true) :
    ∀ c ∈ cs, isLineEnd c = false := by
  simpa using h

/-- Unless it is the first half of a boundary, a character ends a line or goes on with one. -/
theorem lines_cons {c : Char} {cs : List Char} (h : c = '\r' → cs.head? ≠ some '\n') :
    lines (c :: cs) = if isLineEnd c then [] :: lines cs else onFirst c (lines cs) := by
  rw [lines.eq_3]
  intro ds hc hcs
  subst hcs
  exact h hc rfl

theorem lines_ne_nil {cs : List Char} (h : cs ≠ []) : lines cs ≠ [] := by
  fun_cases lines cs with
  | case1 => exact absurd rfl h
  | case2 cs => exact List.cons_ne_nil _ _
  | case3 c cs hc hend => exact List.cons_ne_nil _ _
  | case4 c cs hc hend =>
    cases lines cs with
    | nil => exact List.cons_ne_nil _ _
    | cons l ls => exact List.cons_ne_nil _ _

/-- A line feed ends a line, whatever stands before it. -/
theorem lines_append_lineFeed (cs ds : List Char) :
    lines (cs ++ '\n' :: ds) = lines (cs ++ ['\n']) ++ lines ds := by
  fun_induction lines cs with
  | case1 => rfl
  | case2 cs ih => simp [lines, ih]
  | case3 c cs hc hend ih =>
    cases cs with
    | nil =>
      by_cases h : c = '\r'
      · -- the line feed is the second half of the boundary
        subst h
        rfl
      · have hcons : ∀ es, lines (c :: '\n' :: es) = [] :: lines ('\n' :: es) := by
          intro es
          rw [lines_cons fun h' => absurd h' h, if_pos hend]
        simp only [List.cons_append, List.nil_append, hcons] at ih ⊢
        rw [ih]
    | cons d cs =>
      have hcons : ∀ es, lines (c :: d :: (cs ++ es)) = [] :: lines (d :: (cs ++ es)) := by
        intro es
        rw [lines_cons fun h h' => hc cs h (by rw [Option.some.inj h']), if_pos hend]
      simp only [List.cons_append, hcons] at ih ⊢
      rw [ih]
  | case4 c cs hc hend ih =>
    have hcr : c ≠ '\r' := by
      rintro rfl
      exact hend rfl
    have hcons : ∀ es, lines (c :: es) = onFirst c (lines es) := by
      intro es
      rw [lines_cons fun h => absurd h hcr, if_neg hend]
    rw [List.cons_append, List.cons_append, hcons, hcons, ih]
    cases hls : lines (cs ++ ['\n']) with
    | nil => exact absurd hls (lines_ne_nil (by simp))
    | cons l ls => rfl

/-- A text without line boundaries stands in front of the first line. -/
theorem lines_append {cs ds : List Char} (h : ∀ c ∈ cs, isLineEnd c = false) (hds : ds ≠ []) :
    lines (cs ++ ds) = (cs ++ (lines ds).headD []) :: (lines ds).tail := by
  induction cs with
  | nil =>
    rw [List.nil_append]
    cases hls : lines ds with
    | nil => exact absurd hls (lines_ne_nil hds)
    | cons l ls => rfl
  | cons c cs ih =>
    have hc : isLineEnd c = false := h c List.mem_cons_self
    have hcr : c ≠ '\r' := by
      rintro rfl
      cases hc
    rw [List.cons_append, lines_cons fun h' => absurd h' hcr, hc, if_neg Bool.false_ne_true,
      ih fun d hd => h d (List.mem_cons_of_mem c hd)]
    rfl

/-- A text without line boundaries is one line. -/
theorem lines_of_oneLine {cs : List Char} (h : ∀ c ∈ cs, isLineEnd c = false) :
    lines (cs ++ ['\n']) = [cs] := by
  rw [lines_append h (List.cons_ne_nil _ _)]
  simp [lines, show isLineEnd '\n' = true from rfl]

/-- Lines without boundaries in them, each with a line feed, are cut into these lines. -/
theorem lines_flatMap {ls : List (List Char)} (h : ∀ l ∈ ls, ∀ c ∈ l, isLineEnd c = false)
    (ds : List Char) : lines (ls.flatMap (· ++ ['\n']) ++ ds) = ls ++ lines ds := by
  induction ls with
  | nil => rfl
  | cons l ls ih =>
    have hl : lines (l ++ ['\n']) = [l] := lines_of_oneLine (h l List.mem_cons_self)
    rw [List.flatMap_cons, List.append_assoc, List.append_assoc, List.singleton_append,
      lines_append_lineFeed, hl, ih fun l hl => h l (List.mem_cons_of_mem _ hl)]
    rfl

end Text

/-! ### Patterns -/

namespace Exclusion

variable {compile : Compiler}

theorem text_of_ofText {text : String} {e : Exclusion} (h : ofText compile text = .ok e) :
    e.text = text := by
  unfold ofText at h
  split at h <;> cases h
  rfl

/-- What is read as exclusions are the texts of these. -/
theorem eq_of_ofItems {vs : List Json} {es : List Exclusion}
    (h : ofItems compile vs = .ok es) :
    vs = es.map fun e => .str e.text := by
  induction vs generalizing es with
  | nil =>
    cases h
    rfl
  | cons v vs ih =>
    rw [ofItems] at h
    cases hv : ofItem compile v with
    | error e =>
      rw [hv] at h
      cases h
    | ok e =>
      cases hvs : ofItems compile vs with
      | error e' =>
        rw [hv, hvs] at h
        cases h
      | ok es' =>
        rw [hv, hvs] at h
        cases h
        rw [List.map_cons, ← ih hvs]
        cases v with
        | str text => rw [text_of_ofText hv]
        | _ => cases hv

/-- A value that counts as given has the texts of its exclusions as items; any other has no
exclusions. -/
theorem of_ofJson {v : Json} {es : List Exclusion} (h : ofJson compile v = .ok es) :
    v.truthy = true ∧ v.items = .ok (es.map fun e => .str e.text) ∨
      v.truthy = false ∧ es = [] := by
  unfold ofJson at h
  split at h
  · next ht =>
    cases hv : v.items with
    | error e =>
      rw [hv] at h
      cases h
    | ok vs =>
      rw [hv] at h
      exact Or.inl ⟨ht, congrArg _ (eq_of_ofItems h)⟩
  · next ht =>
    cases h
    exact Or.inr ⟨by simpa using ht, rfl⟩

end Exclusion

namespace Document

/-! ### The lines -/

/-- The line is a comment up to its end. -/
def IsLineComment (l : String) : Prop := "//".toList <+: l.toList

instance (l : String) : Decidable (IsLineComment l) :=
  inferInstanceAs (Decidable ("//".toList <+: l.toList))

/-- The lines that stand in every text: the version and the command line. -/
def openingLines (commandLine : String) : List String :=
  ["// Generated by json_schema_to_ts " ++ version ++ ". DO NOT EDIT.", "// " ++ commandLine]

/-- The lines in front of the patterns. -/
def introducingLines : List String :=
  ["//", "// Types matching these patterns are not generated:"]

/-- What the line of a pattern starts with. -/
def patternStart : String := "//   "

/-- The text of a pattern up to its first line boundary. -/
def firstLine (pattern : String) : String :=
  String.ofList ((Text.lines (pattern.toList ++ ['\n'])).headD [])

/-- The lines that a pattern opens by itself: what stands behind its line boundaries, the line
feed put behind it included. -/
def furtherLines (pattern : String) : List String :=
  (Text.lines (pattern.toList ++ ['\n'])).tail.map String.ofList

/-- The lines of a pattern. -/
def patternLines (pattern : String) : List String :=
  (patternStart ++ firstLine pattern) :: furtherLines pattern

/-- A pattern without line boundaries is one line. -/
theorem furtherLines_of_oneLine {pattern : String}
    (h : ∀ c ∈ pattern.toList, Text.isLineEnd c = false) : furtherLines pattern = [] := by
  rw [furtherLines, Text.lines_of_oneLine h]
  rfl

/-- The lines of patterns, each behind the start of a comment. -/
theorem lines_patterns (ps : List String) :
    Text.lines (ps.flatMap fun p => patternStart.toList ++ p.toList ++ ['\n']) =
      (ps.flatMap patternLines).map String.toList := by
  induction ps with
  | nil => rfl
  | cons p ps ih =>
    have hstart : ∀ c ∈ patternStart.toList, Text.isLineEnd c = false :=
      Text.not_isLineEnd_of_all rfl
    rw [List.flatMap_cons, List.flatMap_cons, List.map_append, ← ih, List.append_assoc,
      List.singleton_append, Text.lines_append_lineFeed, List.append_assoc,
      Text.lines_append hstart (by simp)]
    simp [patternLines, firstLine, furtherLines]

/-- Lines that are the same for all patterns. -/
theorem toList_opening (commandLine : String) :
    ("// Generated by json_schema_to_ts " ++ version ++ ". DO NOT EDIT.\n// " ++ commandLine ++
      "\n").toList = ((openingLines commandLine).map String.toList).flatMap (· ++ ['\n']) := by
  have hmiddle : ". DO NOT EDIT.\n// ".toList =
      ". DO NOT EDIT.".toList ++ '\n' :: "// ".toList := rfl
  have hend : "\n".toList = ['\n'] := rfl
  simp only [String.toList_append, hmiddle, hend, openingLines, List.map_cons, List.map_nil,
    List.flatMap_cons, List.flatMap_nil, List.append_assoc, List.cons_append, List.nil_append,
    List.append_nil]

theorem toList_exclusionText (ps : List String) :
    (exclusionText (ps.map .str)).toList =
      (introducingLines.map String.toList).flatMap (· ++ ['\n']) ++
        ps.flatMap fun p => patternStart.toList ++ p.toList ++ ['\n'] := by
  have hstart : "//\n// Types matching these patterns are not generated:\n".toList =
    (introducingLines.map String.toList).flatMap (· ++ ['\n']) := by decide +kernel
  have hpatterns :
      (String.join ((ps.map Json.str).map fun p => "//   " ++ p.display ++ "\n")).toList =
        ps.flatMap fun p => patternStart.toList ++ p.toList ++ ['\n'] := by
    rw [String.toList_join, List.map_map, List.flatMap_map]
    simp [Json.display, patternStart, String.toList_append]
  unfold exclusionText
  exact (String.toList_append ..).trans (congr (congrArg HAppend.hAppend hstart) hpatterns)

section

variable {compile : Compiler}

/-- **The lines of the comment.** -/
theorem header_eq {commandLine : String} (hline : ∀ c ∈ commandLine.toList,
    Text.isLineEnd c = false) {exclude : Json} {es : List Exclusion}
    (h : Exclusion.ofJson compile exclude = .ok es) :
    header commandLine exclude = .ok (openingLines commandLine ++
      if exclude.truthy then
        introducingLines ++ (es.map (·.text)).flatMap patternLines
      else []) := by
  have hopening : ∀ l ∈ (openingLines commandLine).map String.toList, ∀ c ∈ l,
      Text.isLineEnd c = false := by
    have hfirst : ∀ c ∈ ("// Generated by json_schema_to_ts " ++ version ++
        ". DO NOT EDIT.").toList, Text.isLineEnd c = false := Text.not_isLineEnd_of_all rfl
    have hstart : ∀ c ∈ "// ".toList, Text.isLineEnd c = false := Text.not_isLineEnd_of_all rfl
    have hsecond : ∀ c ∈ ("// " ++ commandLine).toList, Text.isLineEnd c = false := by
      rw [String.toList_append]
      intro c hc
      exact (List.mem_append.mp hc).elim (hstart c) (hline c)
    intro l hl
    simp only [openingLines, List.map_cons, List.map_nil, List.mem_cons, List.not_mem_nil,
      or_false] at hl
    rcases hl with rfl | rfl
    · exact hfirst
    · exact hsecond
  have hintroducing : ∀ l ∈ introducingLines.map String.toList, ∀ c ∈ l,
      Text.isLineEnd c = false := by
    intro l hl
    simp only [introducingLines, List.map_cons, List.map_nil, List.mem_cons, List.not_mem_nil,
      or_false] at hl
    rcases hl with rfl | rfl <;> exact Text.not_isLineEnd_of_all rfl
  unfold header headerText
  dsimp only
  rcases Exclusion.of_ofJson h with ⟨ht, hitems⟩ | ⟨ht, rfl⟩
  · have hps : (es.map fun e => Json.str e.text) = (es.map (·.text)).map .str := by simp
    rw [if_pos ht, if_pos ht, hitems, hps]
    show Except.ok _ = Except.ok _
    rw [String.toList_append, toList_opening, toList_exclusionText, Text.lines_flatMap hopening,
      Text.lines_flatMap hintroducing, lines_patterns]
    simp
  · rw [if_neg (by simp [ht]), if_neg (by simp [ht])]
    show Except.ok _ = Except.ok _
    have hlines := Text.lines_flatMap hopening []
    rw [List.append_nil] at hlines
    rw [toList_opening, hlines]
    simp

end

/-! ### Comments -/

theorem isLineComment_append {start : String} (h : IsLineComment start) (rest : String) :
    IsLineComment (start ++ rest) := by
  rw [IsLineComment, String.toList_append]
  exact h.trans (List.prefix_append _ _)

/-- The lines that stand in every text are comments. -/
theorem isLineComment_of_mem_openingLines {commandLine l : String}
    (h : l ∈ openingLines commandLine) : IsLineComment l := by
  rw [openingLines, List.mem_cons, List.mem_singleton] at h
  rcases h with rfl | rfl
  · decide
  · exact isLineComment_append (by decide) commandLine

theorem isLineComment_of_mem_introducingLines {l : String} (h : l ∈ introducingLines) :
    IsLineComment l := by
  revert l
  decide

/-- The first line of a pattern is a comment, so only the further ones matter. -/
theorem forall_patternLines_iff (pattern : String) :
    (∀ l ∈ patternLines pattern, IsLineComment l) ↔
      ∀ l ∈ furtherLines pattern, IsLineComment l := by
  rw [patternLines, List.forall_mem_cons]
  exact and_iff_right (isLineComment_append (by decide) (firstLine pattern))

/-- **The head consists of comments exactly if the further lines of the patterns are some.** -/
theorem forall_header_iff {compile : Compiler} {commandLine : String}
    (hline : ∀ c ∈ commandLine.toList, Text.isLineEnd c = false) {exclude : Json}
    {es : List Exclusion} (hes : Exclusion.ofJson compile exclude = .ok es) {ls : List String}
    (hls : header commandLine exclude = .ok ls) :
    (∀ l ∈ ls, IsLineComment l) ↔
      ∀ e ∈ es, ∀ l ∈ furtherLines e.text, IsLineComment l := by
  rw [header_eq hline hes] at hls
  obtain rfl := Except.ok.inj hls
  rw [List.forall_mem_append, and_iff_right fun l => isLineComment_of_mem_openingLines]
  rcases Exclusion.of_ofJson hes with ⟨ht, -⟩ | ⟨ht, rfl⟩
  · rw [if_pos ht, List.forall_mem_append,
      and_iff_right fun l => isLineComment_of_mem_introducingLines]
    simp only [List.mem_flatMap, List.mem_map]
    constructor
    · intro h e he l hl
      refine (forall_patternLines_iff e.text).mp ?_ l hl
      intro l hl
      exact h l ⟨e.text, ⟨e, he, rfl⟩, hl⟩
    · rintro h l ⟨_, ⟨e, he, rfl⟩, hl⟩
      exact (forall_patternLines_iff e.text).mpr (h e he) l hl
  · simp [ht]

/-! ### Texts -/

/-- If a comment is wanted, its lines and an empty one are all that stands on the page. -/
theorem writeHeader_ok {s : Settings} (hs : s.generationComment.truthy = true)
    {commandLine : String} {indent : Option String} {p : Page} {u : Unit}
    (h : exec (writeHeader s commandLine) (.blank indent) = (.ok u, p)) :
    ∃ ls, header commandLine s.exclude = .ok ls ∧ p.lines = ls ++ [""] := by
  rw [writeHeader, if_pos hs] at h
  obtain ⟨ls, q, hq, h⟩ := exec_bind_eq_ok h
  rw [exec_lift, Prod.mk.injEq] at hq
  obtain ⟨hls, rfl⟩ := hq
  obtain ⟨_, q', hq', h⟩ := exec_bind_eq_ok h
  obtain rfl := Comment.writeLines_ok rfl hq'
  obtain ⟨l, hl, rfl⟩ := Page.lineFor_ok h
  cases hl
  exact ⟨ls, hls, rfl⟩

section

variable {compile : Compiler}

/-- A text with a comment starts with the lines of that comment and an empty one. -/
theorem exists_header {schema : Json} {s : Settings} (hs : s.generationComment.truthy = true)
    {commandLine text : String} (h : (generateWith compile schema s commandLine).1 = .ok text) :
    ∃ es ls rest, Exclusion.ofJson compile s.exclude = .ok es ∧
      header commandLine s.exclude = .ok ls ∧
      text = String.join (ls.map (· ++ "\n")) ++ "\n" ++ rest := by
  obtain ⟨r, hr, -, page, hpage, rfl⟩ := exists_of_generate h
  obtain ⟨es, ds, hes, -, -⟩ := resolver_eq_ok hr
  obtain ⟨_, p, hp, hrest⟩ := exec_bind_eq_ok hpage
  obtain ⟨ls, hls, hlines⟩ := writeHeader_ok hs hp
  obtain ⟨further, hfurther⟩ :=
    (Declaration.composed_writeAll Page.isComposed_keeps _ _ _ _ hrest).lines
  refine ⟨es, ls, String.join (further.map (· ++ "\n")), hes, hls, ?_⟩
  rw [Page.text, ← hfurther, hlines]
  simp [String.join_append, String.append_assoc]

/-- Generation with the lines of the comment given, which need not be cut out of a text again. -/
theorem generate_eq_of_header {schema : Json} {s : Settings}
    (hs : s.generationComment.truthy = true) {commandLine : String} {ls : List String}
    (h : header commandLine s.exclude = .ok ls) :
    (generateWith compile schema s commandLine).1 =
      match resolver compile schema s with
      | .error e => .error e
      | .ok r =>
        match exec (emitRequests s) r with
        | (.error e, _) => .error e
        | (.ok _, r') =>
          match exec ((Comment.writeLines ls >>= fun _ => Page.line "") >>= fun _ =>
            Declaration.writeAll r'.queue.declarations) (Page.blank s.indent.str?) with
          | (.ok _, p) => .ok p.text
          | (.error e, _) => .error e := by
  have hwrite : writeHeader s commandLine = Comment.writeLines ls >>= fun _ => Page.line "" := by
    rw [writeHeader, if_pos hs, h]
    rfl
  cases hr : resolver compile schema s with
  | error e =>
    unfold generateWith
    rw [hr]
  | ok r =>
    rw [generate_of_resolver hr, ← hwrite]
    dsimp only
    rcases exec (emitRequests s) r with ⟨e | u, r'⟩ <;> rfl

/-- **When the head of a text consists of comments.**  If a comment is wanted and the command
line is one line, the text starts with the lines of the comment and an empty line.  They all
are comments exactly if the further lines of the patterns are some; in particular if no pattern
has a line boundary.  What the patterns are compiled to does not matter. -/
theorem header_of_generate {schema : Json} {s : Settings} {commandLine text : String}
    (hs : s.generationComment.truthy = true)
    (hline : ∀ c ∈ commandLine.toList, Text.isLineEnd c = false)
    (h : (generateWith compile schema s commandLine).1 = .ok text) :
    ∃ es ls rest, Exclusion.ofJson compile s.exclude = .ok es ∧
      header commandLine s.exclude = .ok ls ∧
      text = String.join (ls.map (· ++ "\n")) ++ "\n" ++ rest ∧
      ((∀ l ∈ ls, IsLineComment l) ↔
        ∀ e ∈ es, ∀ l ∈ furtherLines e.text, IsLineComment l) ∧
      ((∀ e ∈ es, ∀ c ∈ e.text.toList, Text.isLineEnd c = false) →
        ∀ l ∈ ls, IsLineComment l) := by
  obtain ⟨es, ls, rest, hes, hls, htext⟩ := exists_header hs h
  have hiff := forall_header_iff hline hes hls
  refine ⟨es, ls, rest, hes, hls, htext, hiff, fun hone => hiff.mpr ?_⟩
  intro e he l hl
  rw [furtherLines_of_oneLine (hone e he)] at hl
  exact absurd hl List.not_mem_nil

/-- Settings with some patterns and otherwise as usual. -/
def excluding (patterns : List String) : Settings :=
  { Settings.usual with exclude := .arr (patterns.map .str) }

/-- The exclusions are those of the patterns. -/
theorem texts_of_excluding {patterns : List String} {es : List Exclusion}
    (h : Exclusion.ofJson compile (excluding patterns).exclude = .ok es) :
    es.map (·.text) = patterns := by
  have hstrings : (es.map (·.text)).map Json.str = patterns.map Json.str := by
    rcases Exclusion.of_ofJson h with ⟨-, hitems⟩ | ⟨hno, rfl⟩
    · rw [List.map_map]
      exact (Except.ok.inj hitems).symm
    · have hnone : patterns = [] := by simpa [excluding, Json.truthy] using hno
      rw [hnone]
      rfl
  exact List.map_injective_iff.mpr (fun _ _ => Json.str.inj) hstrings

/-- The lines of the comment for patterns that compile. -/
theorem header_excluding {commandLine : String}
    (hline : ∀ c ∈ commandLine.toList, Text.isLineEnd c = false) {patterns : List String}
    (hread : (Exclusion.ofJson compile (excluding patterns).exclude).toOption.isSome = true) :
    header commandLine (excluding patterns).exclude = .ok (openingLines commandLine ++
      if (excluding patterns).exclude.truthy then
        introducingLines ++ patterns.flatMap patternLines
      else []) := by
  obtain ⟨es, hes⟩ := exists_ok_of_isSome hread
  rw [header_eq hline hes, texts_of_excluding hes]

end

/-- A document with one definition. -/
def lonelyInterface : Json :=
  .obj [("definitions", .obj [("Config", .obj [("properties", .obj [])])])]

/-- A pattern with a line feed in it, behind which another comment happens to start. -/
theorem header_of_generate_commentedPattern :
    let s := excluding ["^Secret", "Key|\n// Lock"]
    s.generationComment.truthy = true ∧
      (∀ c ∈ "json_schema_to_ts".toList, Text.isLineEnd c = false) ∧
      ∃ text ls rest, (generate lonelyInterface s "json_schema_to_ts").1 = .ok text ∧
        text = String.join (ls.map (· ++ "\n")) ++ "\n" ++ rest ∧
        header "json_schema_to_ts" s.exclude = .ok ls ∧ (∀ l ∈ ls, IsLineComment l) := by
  intro s
  have hline : ∀ c ∈ "json_schema_to_ts".toList, Text.isLineEnd c = false :=
    Text.not_isLineEnd_of_all rfl
  have hread : (Exclusion.ofJson Pattern.compile? s.exclude).toOption.isSome = true := by
    decide +kernel
  obtain ⟨text, h⟩ : ∃ text, (generate lonelyInterface s "json_schema_to_ts").1 = .ok text := by
    rw [generate, generate_eq_of_header rfl (header_excluding hline hread)]
    exact exists_ok_of_isSome (by decide +kernel)
  obtain ⟨es, ls, rest, hes, hls, htext, hiff, -⟩ := header_of_generate rfl hline h
  refine ⟨rfl, hline, text, ls, rest, h, htext, hls, hiff.mpr ?_⟩
  intro e he
  have hmem : e.text ∈ ["^Secret", "Key|\n// Lock"] :=
    texts_of_excluding hes ▸ List.mem_map_of_mem he
  simp only [List.mem_cons, List.not_mem_nil, or_false] at hmem
  rcases hmem with heq | heq <;> rw [heq] <;> decide +kernel

/-- **A head with a line that is no comment**: the pattern compiles, and what stands behind
its line feed is a line of its own. -/
theorem pattern_leaves_comment :
    let s := excluding ["Secret\nInternal"]
    s.generationComment.truthy = true ∧
      (∀ c ∈ "json_schema_to_ts".toList, Text.isLineEnd c = false) ∧
      (∃ e, Exclusion.ofText Pattern.compile? "Secret\nInternal" = .ok e) ∧
      ∃ ls, header "json_schema_to_ts" s.exclude = .ok ls ∧
        (generate (.obj [("definitions", .obj [])]) s "json_schema_to_ts").1 =
          .ok (String.join (ls.map (· ++ "\n")) ++ "\n") ∧
        "Internal" ∈ ls ∧ ¬ IsLineComment "Internal" := by
  intro s
  have hline : ∀ c ∈ "json_schema_to_ts".toList, Text.isLineEnd c = false :=
    Text.not_isLineEnd_of_all rfl
  have hread : (Exclusion.ofText Pattern.compile? "Secret\nInternal").toOption.isSome = true := by
    decide +kernel
  have hall : (Exclusion.ofJson Pattern.compile? s.exclude).toOption.isSome = true := by
    decide +kernel
  have hls := header_excluding hline hall
  refine ⟨rfl, hline, exists_ok_of_isSome hread, _, hls, ?_, by decide +kernel, by decide⟩
  rw [generate, generate_eq_of_header rfl hls]
  exact eq_ok_of_toOption (by decide +kernel)

end Document
end SchemaScript
