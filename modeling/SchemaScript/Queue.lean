import SchemaScript.Declaration.Basic
import SchemaScript.Table

/-!
# The queue of declarations

Every declared name is either waiting, with its declaration, or written.  Waiting
declarations keep the order in which their names came; a written name never changes
again.

## Main definitions

* `Queue` — the waiting declarations and the written names.
* `Queue.register` — a declaration put in the queue, unless its name is taken.
* `Queue.rollback` — what came after a position taken out again.
* `Queue.finish` — a waiting name marked as written.
-/

namespace SchemaScript

/-- Declarations that wait, and names that are written. -/
structure Queue (ε : Type) where
  waiting : Table (Declaration ε)
  written : List String

namespace Queue

variable {ε : Type}

/-- The queue in which no name is known. -/
def empty : Queue ε := ⟨.empty, []⟩

/-- A declaration waits under the name. -/
def isWaiting (q : Queue ε) (name : String) : Bool := q.waiting.contains name

/-- The name is written. -/
def isWritten (q : Queue ε) (name : String) : Bool := q.written.contains name

/-- The name is waiting or written. -/
def isKnown (q : Queue ε) (name : String) : Bool := q.isWaiting name || q.isWritten name

/-- The names that wait, in order. -/
def names (q : Queue ε) : List String := q.waiting.keys

/-- The declarations that wait, in order. -/
def declarations (q : Queue ε) : List (Declaration ε) := q.waiting.values

/-! ### Entering -/

/-- A declaration of the name can enter.  A written name is taken for good, a waiting
one unless it is to be replaced. -/
def accepts (q : Queue ε) (name : String) (replace : Bool) : Bool :=
  !q.isWritten name && (replace || !q.isWaiting name)

/-- The queue with a declaration under its name, if it can enter. -/
def register (q : Queue ε) (d : Declaration ε) (replace : Bool) : Queue ε :=
  if q.accepts d.name replace then { q with waiting := q.waiting.insert d.name d } else q

/-! ### Withdrawing -/

/-- The position behind the last declaration. -/
def checkpoint (q : Queue ε) : Nat := q.waiting.size

/-- The position that a number tells; a negative one counts from the end. -/
def position (q : Queue ε) (n : Int) : Nat :=
  if n < 0 then q.checkpoint - n.natAbs else n.toNat

/-- The names that came after a position. -/
def since (q : Queue ε) (position : Nat) : List String := q.names.drop position

/-- The queue without what came after a position. -/
def rollback (q : Queue ε) (position : Nat) : Queue ε :=
  { q with waiting := q.waiting.take position }

/-! ### Writing -/

/-- The next declaration to write, under its name. -/
def next? (q : Queue ε) : Option (String × Declaration ε) := q.waiting.entries.head?

/-- The queue with a name marked as written, whatever waits under it. -/
def finish (q : Queue ε) (name : String) : Queue ε :=
  ⟨q.waiting.erase name, if q.isWritten name then q.written else q.written ++ [name]⟩

/-! ### Small laws -/

/-- A declaration that cannot enter changes nothing. -/
theorem register_of_not_accepts {q : Queue ε} {d : Declaration ε} {replace : Bool}
    (h : q.accepts d.name replace = false) : q.register d replace = q := by
  simp [register, h]

/-- A declaration that can enter waits under its name. -/
theorem find?_register {q : Queue ε} {d : Declaration ε} {replace : Bool}
    (h : q.accepts d.name replace = true) :
    (q.register d replace).waiting.find? d.name = some d := by
  simp [register, h, Table.find?_insert]

@[simp] theorem written_register (q : Queue ε) (d : Declaration ε) (replace : Bool) :
    (q.register d replace).written = q.written := by
  unfold register
  split <;> rfl

@[simp] theorem written_rollback (q : Queue ε) (position : Nat) :
    (q.rollback position).written = q.written := rfl

@[simp] theorem checkpoint_empty : (empty : Queue ε).checkpoint = 0 := rfl

@[simp] theorem names_rollback (q : Queue ε) (position : Nat) :
    (q.rollback position).names = q.names.take position := by
  simp [names, rollback, Table.keys, List.map_take]

end Queue
end SchemaScript
