import SchemaScript.Definitions
import SchemaScript.Proofs.Name.TypeNames
import SchemaScript.Proofs.Table

/-!
# Laws of definitions

References written out lead to the names they are made from.  Unless a schema at hand
is entered under a second name, no two names share a stamp, and then a stamp tells the
name that a definition stands under.

## Main definitions

* `Definitions.Distinct` — no two names share a stamp.

## Main results

* `Definitions.path?_refTo`, `Definitions.withoutStart_refTo` — references and names.
* `Definitions.eq_of_holds_node` — a definition stands under one name.
-/

namespace SchemaScript
namespace Definitions

/-! ### References and names -/

@[simp] theorem path?_refTo (name : String) : path? (.str (refTo name)) = some name := by
  rw [path?, refTo, String.toList_append, Text.after?_append, Option.map_some,
    String.ofList_toList]

@[simp] theorem withoutStart_refTo (name : String) : withoutStart (refTo name) = name := by
  rw [withoutStart, path?_refTo, Option.getD_some]

/-- Taking the start of a reference off takes no dot off. -/
theorem dot_mem_withoutStart {text : String} (h : '.' ∈ text.toList) :
    '.' ∈ (withoutStart text).toList := by
  rw [withoutStart, path?]
  cases hrest : Text.after? refStart.toList text.toList with
  | none => exact h
  | some rest =>
    rw [Text.eq_append_of_after? hrest, List.mem_append] at h
    rw [Option.map_some, Option.getD_some, String.toList_ofList]
    exact h.resolve_left (by decide)

/-- What is left of a text is its end. -/
theorem withoutStart_suffix (text : String) : (withoutStart text).toList <:+ text.toList := by
  rw [withoutStart, path?]
  cases hrest : Text.after? refStart.toList text.toList with
  | none => exact List.suffix_rfl
  | some rest =>
    rw [Option.map_some, Option.getD_some, String.toList_ofList, Text.eq_append_of_after? hrest]
    exact List.suffix_append _ _

/-- A name that does not start like a reference does not do so with a dot and more behind it,
for the start of a reference has no dot. -/
theorem withoutStart_append_dot {place : String} (h : withoutStart place = place)
    (rest : String) : withoutStart (place ++ "." ++ rest) = place ++ "." ++ rest := by
  rw [withoutStart, path?]
  cases hafter : Text.after? refStart.toList (place ++ "." ++ rest).toList with
  | none => rfl
  | some left =>
    exfalso
    have happend := Text.eq_append_of_after? hafter
    rw [String.toList_append, String.toList_append, List.append_assoc,
      List.append_eq_append_iff] at happend
    have hlonger : ∀ more, place.toList = refStart.toList ++ more → False := by
      intro more hmore
      rw [withoutStart, path?, hmore, Text.after?_append, Option.map_some, Option.getD_some] at h
      have hlength := congrArg List.length hmore
      rw [← h, String.toList_ofList, List.length_append] at hlength
      have hstart : 0 < refStart.toList.length := by decide
      omega
    rcases happend with ⟨more, hstart, htail⟩ | ⟨more, hmore, -⟩
    · cases more with
      | nil => exact hlonger [] (by rw [hstart, List.append_nil, List.append_nil])
      | cons c more =>
        -- the dot would stand in the start of a reference
        have hdot : c = '.' := (List.cons.inj htail).1.symm
        have hmem : '.' ∈ refStart.toList := by
          rw [hstart, hdot]
          exact List.mem_append_right _ List.mem_cons_self
        exact absurd hmem (by decide)
    · exact hlonger more hmore

/-- What a reference resolves to is what is defined under its name. -/
theorem resolve_eq_ok {ds : Definitions} {ref : Json} {path : String} {node : Node}
    (hp : path? ref = some path) (h : ds.resolve ref = .ok node) :
    node = ds.node path ∧ node.schema.isNull = false := by
  rw [resolve, hp] at h
  simp only at h
  split at h
  · cases h
  · next hn =>
    rw [Except.ok.injEq] at h
    subst h
    exact ⟨rfl, by rwa [Bool.not_eq_true] at hn⟩

/-! ### Stamps -/

/-- No two names share a stamp. -/
def Distinct (ds : Definitions) : Prop :=
  ∀ a b d e, ds.table.find? a = some d → ds.table.find? b = some e → d.stamp = e.stamp → a = b

/-- If what stands under one name is at hand, and it is what stands under another, the
names are one. -/
theorem eq_of_holds_node {ds : Definitions} (hd : ds.Distinct) {a b : String}
    (h : ds.holds a (ds.node b) = true) : a = b := by
  unfold holds node at h
  cases ha : ds.table.find? a with
  | none => simp [ha] at h
  | some d =>
    cases hb : ds.table.find? b with
    | none => simp [ha, hb, Node.inline] at h
    | some e =>
      simp only [ha, hb, Definition.node, beq_iff_eq] at h
      exact hd a b d e ha hb h

/-- What is defined under a name is held under it. -/
theorem holds_node {ds : Definitions} {name : String}
    (h : (ds.node name).schema.isNull = false) : ds.holds name (ds.node name) = true := by
  unfold holds
  unfold node at h ⊢
  cases hf : ds.table.find? name with
  | none =>
    rw [hf] at h
    cases h
  | some d => exact beq_self_eq_true d.stamp

/-- What is written where it stands is no definition. -/
@[simp] theorem holds_inline (ds : Definitions) (name : String) (schema : Json) :
    ds.holds name (.inline schema) = false := by
  unfold holds Node.inline
  cases ds.table.find? name <;> rfl

/-- The stamps in the table are distinct and all below the next one. -/
structure IsStamped (ds : Definitions) : Prop where
  distinct : ds.Distinct
  below : ∀ name d, ds.table.find? name = some d → d.stamp < ds.nextStamp

theorem isStamped_empty : IsStamped .empty where
  distinct := fun _ _ _ _ h => nomatch h
  below := fun _ _ h => nomatch h

theorem isStamped_define {ds : Definitions} (h : ds.IsStamped) (name : String) (schema : Json) :
    (ds.define name schema).IsStamped := by
  have hcases : ∀ k d, (ds.define name schema).table.find? k = some d →
      k = name ∧ d.stamp = ds.nextStamp ∨ ds.table.find? k = some d ∧ d.stamp < ds.nextStamp := by
    intro k d hk
    rw [define, Table.find?_insert] at hk
    by_cases hn : name = k
    · rw [if_pos hn, Option.some.injEq] at hk
      exact Or.inl ⟨hn.symm, by rw [← hk]⟩
    · rw [if_neg hn] at hk
      exact Or.inr ⟨hk, h.below k d hk⟩
  constructor
  · intro a b d e ha hb hs
    rcases hcases a d ha with ⟨rfl, hd⟩ | ⟨ha', hd⟩ <;>
      rcases hcases b e hb with ⟨rfl, he⟩ | ⟨hb', he⟩
    · rfl
    · -- an old stamp is below the new one
      omega
    · omega
    · exact h.distinct a b d e ha' hb' hs
  · intro k d hk
    show d.stamp < ds.nextStamp + 1
    rcases hcases k d hk with ⟨-, hd⟩ | ⟨-, hd⟩ <;> omega

theorem isStamped_defineAll {ds : Definitions} (h : ds.IsStamped) (fs : List (String × Json)) :
    (ds.defineAll fs).IsStamped := by
  induction fs generalizing ds with
  | nil => exact h
  | cons f fs ih => exact ih (isStamped_define h f.1 f.2)

/-- The definitions of an object have stamps of their own. -/
theorem isStamped_of_ofJson {v : Json} {ds : Definitions} (h : ofJson v = .ok ds) :
    ds.IsStamped := by
  unfold ofJson at h
  split at h
  · split at h
    · cases h
      exact isStamped_defineAll isStamped_empty _
    · cases h
  · cases h
    exact isStamped_empty

theorem distinct_of_ofJson {v : Json} {ds : Definitions} (h : ofJson v = .ok ds) :
    ds.Distinct :=
  (isStamped_of_ofJson h).distinct

end Definitions
end SchemaScript
