import SchemaScript.Entries

/-!
# Tables

A table maps names to values and keeps the order in which the names came.  A name
that is entered again keeps its place and takes the new value.

## Main definitions

* `Table` — the entries in order.
* `Table.find?`, `Table.insert`, `Table.erase`, `Table.take` — look-up and change.
-/

namespace SchemaScript

universe u

/-- Values under names, in order. -/
structure Table (β : Type u) where
  entries : List (String × β)

namespace Table

variable {β : Type u}

/-- The table without entries. -/
def empty : Table β := ⟨[]⟩

instance : Inhabited (Table β) := ⟨empty⟩

/-- The names in order. -/
def keys (t : Table β) : List String := t.entries.map (·.1)

/-- The values in order. -/
def values (t : Table β) : List β := t.entries.map (·.2)

/-- The number of entries. -/
def size (t : Table β) : Nat := t.entries.length

/-- The value under a name. -/
def find? (t : Table β) (name : String) : Option β := Entries.find? name t.entries

/-- The name has a value. -/
def contains (t : Table β) (name : String) : Bool := (t.find? name).isSome

/-- The table with a value under a name. -/
def insert (t : Table β) (name : String) (v : β) : Table β := ⟨Entries.put name v t.entries⟩

/-- The table without a name. -/
def erase (t : Table β) (name : String) : Table β := ⟨t.entries.filter fun e => e.1 != name⟩

/-- The first entries of a table. -/
def take (t : Table β) (n : Nat) : Table β := ⟨t.entries.take n⟩

/-! ### Small laws -/

@[simp] theorem keys_empty : (empty : Table β).keys = [] := rfl

@[simp] theorem find?_empty (name : String) : (empty : Table β).find? name = none := rfl

@[simp] theorem entries_take (t : Table β) (n : Nat) : (t.take n).entries = t.entries.take n := rfl

/-- What was entered last under a name is found there, and nothing else changes. -/
theorem find?_insert (t : Table β) (name k : String) (v : β) :
    (t.insert name v).find? k = if name = k then some v else t.find? k :=
  Entries.find?_put name k v t.entries

end Table
end SchemaScript
