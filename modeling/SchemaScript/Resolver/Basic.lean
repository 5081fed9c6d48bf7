import SchemaScript.Definitions
import SchemaScript.Exclusion
import SchemaScript.Name.TypeName
import SchemaScript.Note
import SchemaScript.Queue
import SchemaScript.Stateful

/-!
# The resolver

The resolver turns schemas into type expressions and queues the declarations that
these refer to.  It remembers the expressions of the definitions it has resolved, and
while a definition is being resolved it knows that one as open.

## Main definitions

* `Resolver` — the state.
* `Resolving` — computations on it; a failure leaves the state as it is by then.
* `Resolver.enqueue`, `Resolver.withdraw` — the queue, with notes.
-/

namespace SchemaScript

/-- The state of resolution. -/
structure Resolver (ε : Type) where
  exclusions : List Exclusion
  definitions : Definitions
  queue : Queue ε
  /-- The expressions of the resolved definitions, under their type names. -/
  resolved : Table TypeExpr
  /-- The definitions being resolved, under their type names. -/
  opening : Table Opening
  /-- What happened so far. -/
  notes : List Note

/-- A computation on the resolver. -/
abbrev Resolving (ε : Type) := Stateful (Resolver ε)

namespace Resolver

variable {ε : Type}

/-- The resolver that has not resolved anything. -/
def fresh (exclusions : List Exclusion) (definitions : Definitions) : Resolver ε :=
  ⟨exclusions, definitions, .empty, .empty, .empty, []⟩

/-- The resolver for the exclusions and the definitions that two values list, with a compiler
for the patterns of the exclusions. -/
def ofJsonWith (compile : Compiler) (exclude definitions : Json) :
    Except Failure (Resolver ε) := do
  let es ← Exclusion.ofJson compile exclude
  let ds ← Definitions.ofJson definitions
  return fresh es ds

/-- The resolver for the exclusions and the definitions that two values list. -/
def ofJson (exclude definitions : Json) : Except Failure (Resolver ε) :=
  ofJsonWith Pattern.compile? exclude definitions

/-- The first exclusion that hits a name. -/
def exclusionOf (r : Resolver ε) (name : String) : Option Exclusion :=
  r.exclusions.find? (·.hits name)

/-- An exclusion hits the name. -/
def isExcluded (r : Resolver ε) (name : String) : Bool := (r.exclusionOf name).isSome

/-! ### Notes and queue -/

/-- Notes an event. -/
def note (n : Note) : Resolving ε Unit := modify fun r => { r with notes := r.notes ++ [n] }

/-- Puts a declaration in the queue, if it can enter, and tells whether it did. -/
def enqueue (d : Declaration ε) (replace : Bool) : Resolving ε Bool := do
  let r ← get
  if r.queue.accepts d.name replace then
    set { r with queue := r.queue.register d replace }
    note (.queued d.body.word d.name d.fqn)
    return true
  else return false

/-- Takes out what came after a position, and gives the names taken out. -/
def withdraw (position : Nat) : Resolving ε (List String) := do
  let r ← get
  let names := r.queue.since position
  set { r with queue := r.queue.rollback position }
  if !names.isEmpty then note (.withdrew names)
  return names

/-- Puts a declaration made by hand in the queue, in the place of a waiting one of
the same name. -/
def enqueueCustom (name : String) (script : Option ε) : Resolving ε Unit := do
  let _ ← enqueue ⟨name, name, .null, none, .custom script⟩ true

/-- Marks a waiting declaration as written. -/
def retire (name : String) : Resolving ε Unit := do
  let r ← get
  if r.queue.isWaiting name then
    set { r with queue := r.queue.finish name }
    note (.finalized name)
  else throw (.nameGone name)

/-- Changes the definitions. -/
def redefine (f : Definitions → Definitions) : Resolving ε Unit :=
  modify fun r => { r with definitions := f r.definitions }

end Resolver
end SchemaScript
