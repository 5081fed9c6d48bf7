import SchemaScript.Declaration.Source
import SchemaScript.Resolver.Emission

/-!
# The workshop

The workshop joins a resolver with the pages on which its declarations are written:
a shared one that stays, and a sheet for each rendering.

## Main definitions

* `Workshop`, `Surface` — the state, and the choice of a page.
* `Working` — computations on it; a failure leaves the state as it is by then.
* `Workshop.resolving`, `Workshop.writing` — computations on a part of it.
-/

namespace SchemaScript

/-- One of the two pages. -/
inductive Surface
  /-- The page that stays. -/
  | shared
  /-- The page of the rendering in progress. -/
  | sheet
  deriving DecidableEq

/-- A resolver and its pages. -/
structure Workshop (ε : Type) where
  resolver : Resolver ε
  shared : Page
  sheet : Page

/-- A computation on the workshop. -/
abbrev Working (ε : Type) := Stateful (Workshop ε)

namespace Workshop

variable {ε α : Type}

/-- The workshop with empty pages. -/
def ofResolver (r : Resolver ε) : Workshop ε :=
  ⟨r, .blank (some Page.usualIndent), .blank (some Page.usualIndent)⟩

/-- The page of a choice. -/
def page (w : Workshop ε) : Surface → Page
  | .shared => w.shared
  | .sheet => w.sheet

/-- The workshop with the page of a choice replaced. -/
def withPage (w : Workshop ε) (p : Page) : Surface → Workshop ε
  | .shared => { w with shared := p }
  | .sheet => { w with sheet := p }

/-- A computation on the resolver. -/
def resolving (m : Resolving ε α) : Working ε α :=
  ExceptT.mk fun w =>
    let (result, r) := Stateful.exec m w.resolver
    (result, { w with resolver := r })

/-- Writing on a page. -/
def writing (on : Surface) (m : Writing α) : Working ε α :=
  ExceptT.mk fun w =>
    let (result, p) := Stateful.exec m (w.page on)
    (result, w.withPage p on)

/-! ### Small laws -/

/-- A computation on the resolver leaves the pages as they are. -/
theorem exec_resolving (m : Resolving ε α) (w : Workshop ε) :
    Stateful.exec (resolving m) w =
      ((Stateful.exec m w.resolver).1, { w with resolver := (Stateful.exec m w.resolver).2 }) :=
  rfl

/-- Writing on a page leaves the resolver and the other page as they are. -/
theorem exec_writing (on : Surface) (m : Writing α) (w : Workshop ε) :
    Stateful.exec (writing on m) w =
      ((Stateful.exec m (w.page on)).1, w.withPage (Stateful.exec m (w.page on)).2 on) :=
  rfl

@[simp] theorem page_withPage (w : Workshop ε) (p : Page) (on : Surface) :
    (w.withPage p on).page on = p := by
  cases on <;> rfl

@[simp] theorem resolver_withPage (w : Workshop ε) (p : Page) (on : Surface) :
    (w.withPage p on).resolver = w.resolver := by
  cases on <;> rfl

end Workshop
end SchemaScript
