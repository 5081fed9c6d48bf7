import SchemaScript.Proofs.Generation

/-!
# Failures of writing

The causes of failure that are reported concern schemas and requests.  Writing has other ones:
a description that is no text, a missing indentation, an option without a name.  So whatever
is to be written, and however it is to be indented, a text that does not come about does so
for a cause that is not reported.

## Main definitions

* `Page.Unreported` — writing that fails for causes only that are not reported.

## Main results

* `Page.isComposed_unreported` — writing lines and blocks.
* `Document.not_isReported_of_textFor` — writing a text.
-/

namespace SchemaScript

open Stateful

namespace Page

variable {α β : Type}

/-- If the writing fails, the cause is none that is reported. -/
def Unreported (m : Writing α) : Prop :=
  ∀ p e, (exec m p).1 = .error e → e.isReported = false

theorem unreported_pure (a : α) : Unreported (pure a : Writing α) :=
  fun _ _ h => nomatch h

theorem unreported_throw {e : Failure} (he : e.isReported = false) :
    Unreported (throw e : Writing α) := by
  rintro p _ ⟨⟩
  exact he

theorem Unreported.bind {m : Writing α} {f : α → Writing β} (hm : Unreported m)
    (hf : ∀ a, Unreported (f a)) : Unreported (m >>= f) := by
  intro p e h
  rcases hx : exec m p with ⟨e' | a, q⟩
  · rw [exec_bind_error hx] at h
    cases h
    exact hm p e (congrArg Prod.fst hx)
  · rw [exec_bind_ok hx] at h
    exact hf a q e h

theorem unreported_line (text : String) : Unreported (line text) := by
  intro p e h
  rw [exec_line, lineFor] at h
  split at h
  · cases h
  · next e' hline =>
    cases h
    split at hline
    · cases hline
    · split at hline <;> cases hline
      rfl

/-- **Whatever is put together from lines and blocks** fails for no cause that is reported. -/
theorem isComposed_unreported : IsComposed @Unreported where
  pure := unreported_pure
  throw := unreported_throw
  bind := Unreported.bind
  line := unreported_line
  block := by
    intro header footer m hm
    have hopen : Unreported (openBlock header) :=
      (unreported_line _).bind fun _ _ _ h => nomatch h
    have hclose : Unreported (closeBlock footer) := by
      intro p e h
      rw [closeBlock, exec_bind_ok (exec_get p)] at h
      dsimp only at h
      split at h
      · cases h
        rfl
      · exact unreported_line footer _ e h
    exact hopen.bind fun _ => hm.bind fun _ => hclose

end Page

namespace Document

/-- There is always a text, or a cause that is not reported. -/
theorem not_isReported_of_textFor {s : Settings} {commandLine : String}
    {ds : List (Declaration Empty)} {e : Failure} (h : textFor s commandLine ds = .error e) :
    e.isReported = false := by
  unfold textFor at h
  split at h
  · cases h
  · next e' p hexec =>
    cases h
    have hwriting : Page.Unreported (writeHeader s commandLine >>= fun _ =>
        Declaration.writeAll ds) :=
      Page.Unreported.bind (composed_writeHeader Page.isComposed_unreported s commandLine)
        fun _ => Declaration.composed_writeAll Page.isComposed_unreported ds
    exact hwriting _ _ (congrArg Prod.fst hexec)

end Document
end SchemaScript
