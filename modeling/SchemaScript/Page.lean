import SchemaScript.Stateful

/-!
# Pages of source code

A page takes source code line by line and indents the lines of open blocks.  Writing
can fail half-way; what was written before stays on the page.

## Main definitions

* `Page` — the lines, the depth of open blocks and the indentation.
* `Writing` — writing on a page.
* `Page.line`, `Page.openBlock`, `Page.closeBlock` — what is written.
* `Page.text` — the text of a page.
-/

namespace SchemaScript

/-- A page of source code. -/
structure Page where
  /-- What a block is indented by; without a text for it only empty lines can be
  written. -/
  indent : Option String
  lines : List String
  /-- The number of open blocks. -/
  depth : Nat

/-- Writing on a page. -/
abbrev Writing := Stateful Page

namespace Page

/-- The page without lines. -/
def blank (indent : Option String) : Page := ⟨indent, [], 0⟩

/-- The indentation of a block unless another one is asked for. -/
def usualIndent : String := "  "

/-- A text behind `depth` indentations. -/
def indented (indent : String) (depth : Nat) (text : String) : String :=
  String.join (List.replicate depth indent) ++ text

/-- The line that a text becomes.  An empty line is not indented. -/
def lineFor (page : Page) (text : String) : Except Failure String :=
  if text = "" then .ok ""
  else match page.indent with
    | some indent => .ok (indented indent page.depth text)
    | none => .error (.illShaped .indentation)

/-- The lines as one text, each with a line feed at its end. -/
def text (page : Page) : String := String.join (page.lines.map (· ++ "\n"))

/-! ### Writing -/

/-- Writes a line at the present depth. -/
def line (text : String) : Writing Unit := do
  let page ← get
  let l ← page.lineFor text
  set { page with lines := page.lines ++ [l] }

/-- Opens a block behind a header. -/
def openBlock (header : String) : Writing Unit := do
  line (header ++ " \x7b")
  modify fun page => { page with depth := page.depth + 1 }

/-- Closes the innermost block with a footer. -/
def closeBlock (footer : String) : Writing Unit := do
  let page ← get
  if page.depth = 0 then throw .unmatchedClose
  set { page with depth := page.depth - 1 }
  line footer

/-! ### What writing leaves on the page -/

@[simp] theorem lineFor_empty (page : Page) : page.lineFor "" = .ok "" := rfl

/-- A line that can be written is put behind the others; one that cannot leaves the
page as it is. -/
theorem exec_line (page : Page) (text : String) :
    Stateful.exec (line text) page =
      match page.lineFor text with
      | .ok l => (.ok (), { page with lines := page.lines ++ [l] })
      | .error e => (.error e, page) := by
  simp only [line, Stateful.exec_bind, Stateful.exec_get, Stateful.exec_lift]
  cases page.lineFor text <;> simp

/-- The footer of a block unless another one is asked for. -/
def usualFooter : String := "\x7d"

end Page
end SchemaScript
