import SchemaScript.Workshop.Basic

/-!
# Draining the queue

The waiting declarations are written on a page in order, an empty line after each,
until none waits.  A script can put further declarations in the queue while it
writes.  A declaration whose writing fails stays in the queue with all after it.

The loop ends because a rendering without a script makes the queue shorter, and
because scripts are used up: a script can only bring in scripts that it holds.  So
the loop runs in rounds, one for each script of the budget, and each round writes
down to the next script.

## Main definitions

* `Workshop.writeNext` — writes the first declaration of the queue.
* `Workshop.drain` — writes them all.
-/

namespace SchemaScript
namespace Workshop

variable {ε : Type}

/-- Writes a declaration, by its script if it has one. -/
def writeDeclaration (run : ε → Working ε Unit) (on : Surface) (d : Declaration ε) :
    Working ε Unit :=
  match d.body.script? with
  | some script => run script
  | none => writing on d.write

/-- Writes the declaration that waits under a name, and marks it as written. -/
def writeNext (run : ε → Working ε Unit) (on : Surface) (name : String) (d : Declaration ε) :
    Working ε Unit := do
  writeDeclaration run on d
  writing on (Page.line "")
  resolving (Resolver.retire name)

/-- One round: writes declarations without scripts, at most the given number, and the
script after them, behind which it goes on with `next`. -/
def drainRound (run : ε → Working ε Unit) (on : Surface) (next : Working ε Unit) :
    Nat → Working ε Unit
  | 0 => do
    if (← get).resolver.queue.next?.isSome then throw .outOfFuel
  | n + 1 => do
    match (← get).resolver.queue.next? with
    | none => pure ()
    | some (name, d) =>
      writeNext run on name d
      if d.body.script?.isSome then next else drainRound run on next n

/-- A round for each script of the budget.  A round takes at most as many steps as
declarations wait when it starts. -/
def drainRounds (run : ε → Working ε Unit) (on : Surface) : Nat → Working ε Unit
  | 0 => do drainRound run on (throw .outOfFuel) (← get).resolver.queue.checkpoint
  | budget + 1 => do
    drainRound run on (drainRounds run on budget) (← get).resolver.queue.checkpoint

/-- The scripts that wait, counted with a weight. -/
def scriptBudget (weight : ε → Nat) (q : Queue ε) : Nat :=
  q.declarations.foldr (fun d n => (d.body.script?.map weight).getD 0 + n) 0

/-- Writes all waiting declarations on a page.  The weight of a script counts it and
the scripts it holds. -/
def drain (weight : ε → Nat) (run : ε → Working ε Unit) (on : Surface) : Working ε Unit := do
  drainRounds run on (scriptBudget weight (← get).resolver.queue)

/-- Writes all waiting declarations on a new page and gives its text.  The sheet in
use is laid aside meanwhile. -/
def render (weight : ε → Nat) (run : ε → Working ε Unit) (indent : Option String) :
    Working ε String := do
  let w ← get
  set { w with sheet := .blank indent }
  let aside := modify fun v : Workshop ε => { v with sheet := w.sheet }
  tryCatch (drain weight run .sheet) fun e => do
    aside
    throw e
  let text := (← get).sheet.text
  aside
  return text

end Workshop
end SchemaScript
