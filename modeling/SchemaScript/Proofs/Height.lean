import SchemaScript.Proofs.Table
import SchemaScript.Definitions

/-!
# Heights of schemas

What stands inside a value is less high than the value, and what is defined is at most
as high as the definitions.

## Main results

* `Json.height_get_lt`, `Json.height_lt_of_mem_fields` — going into a value.
* `Definitions.height_get_le` — going to a definition.
-/

namespace SchemaScript

namespace Json

theorem height_le_heightFields {e : String × Json} {fs : List (String × Json)} (h : e ∈ fs) :
    e.2.height ≤ heightFields fs := by
  induction fs with
  | nil => exact absurd h List.not_mem_nil
  | cons f fs ih =>
    obtain ⟨k, v⟩ := f
    rw [heightFields]
    rcases List.mem_cons.mp h with rfl | h
    · exact Nat.le_max_left _ _
    · exact Nat.le_trans (ih h) (Nat.le_max_right _ _)

/-- A field is less high than the object. -/
theorem height_lt_of_mem_fields {v : Json} {e : String × Json} (h : e ∈ v.fields) :
    e.2.height < v.height := by
  cases v with
  | obj fs =>
    rw [height]
    exact Nat.lt_succ_of_le (height_le_heightFields h)
  | _ => exact absurd h List.not_mem_nil

/-- The value of a field that is there is less high than the object. -/
theorem height_get_lt {v : Json} {key : String} (h : (v.get key).isNull = false) :
    (v.get key).height < v.height := by
  cases hk : v.get? key with
  | none =>
    rw [get, hk] at h
    cases h
  | some w =>
    rw [get, hk, Option.getD_some]
    exact height_lt_of_mem_fields (e := (key, w)) (Entries.mem_of_find? hk)

end Json

namespace Definitions

theorem height_le_foldr {d : Definition} {l : List Definition} (h : d ∈ l) :
    d.schema.height ≤ l.foldr (fun d h => max d.schema.height h) 0 := by
  induction l with
  | nil => exact absurd h List.not_mem_nil
  | cons c l ih =>
    rw [List.foldr_cons]
    rcases List.mem_cons.mp h with rfl | h
    · exact Nat.le_max_left _ _
    · exact Nat.le_trans (ih h) (Nat.le_max_right _ _)

/-- A definition is at most as high as the definitions. -/
theorem height_get_le (ds : Definitions) (name : String) :
    (ds.get name).height ≤ ds.height := by
  rw [get, node]
  cases h : ds.table.find? name with
  | none => exact Nat.zero_le _
  | some d =>
    exact height_le_foldr (List.mem_map_of_mem (Table.mem_of_find? h))

/-- Nothing else is defined than what stands under the names. -/
theorem node_of_notMem {ds : Definitions} {name : String} (h : name ∉ ds.names) :
    ds.node name = .inline .null := by
  rw [node, Table.find?_eq_none_iff.mpr h]

theorem get_of_notMem {ds : Definitions} {name : String} (h : name ∉ ds.names) :
    ds.get name = .null := by
  rw [get, node_of_notMem h]
  rfl

/-- What is not `null` stands under a name. -/
theorem mem_names_of_get {ds : Definitions} {name : String} (h : (ds.get name).isNull = false) :
    name ∈ ds.names := by
  refine Decidable.byContradiction fun hn => ?_
  rw [get_of_notMem hn] at h
  cases h

end Definitions
end SchemaScript
