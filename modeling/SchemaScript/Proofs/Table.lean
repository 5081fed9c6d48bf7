import SchemaScript.Table

/-!
# Laws of tables

What looking up, entering, erasing and cutting do to the entries of a table.  The
state of resolution is three tables that mostly grow at their ends, so the laws
about starts of lists of entries carry most of the later arguments.

## Main results

* `Table.insert_of_notMem` — a new name goes to the end.
* `Table.insert_of_split` — a name that is there keeps its place.
* `Table.find?_erase` — erasing takes out one name only.
* `Table.take_size_of_prefix` — cutting a table back to the size it had.
-/

namespace SchemaScript

universe u

variable {β : Type u}

namespace Entries

/-- A name has a value when it stands in the list. -/
theorem find?_isSome_iff {name : String} {es : List (String × β)} :
    (find? name es).isSome ↔ name ∈ es.map (·.1) := by
  induction es with
  | nil => simp
  | cons e es ih =>
    obtain ⟨k, v⟩ := e
    rw [find?, List.map_cons, List.mem_cons]
    by_cases h : k = name
    · simp [h]
    · rw [if_neg h, ih]
      exact ⟨Or.inr, fun h' => h'.resolve_left (Ne.symm h)⟩

theorem find?_eq_none_iff {name : String} {es : List (String × β)} :
    find? name es = none ↔ name ∉ es.map (·.1) := by
  rw [← find?_isSome_iff, Option.not_isSome_iff_eq_none]

/-- The value found stands in the list. -/
theorem mem_of_find? {name : String} {v : β} {es : List (String × β)}
    (h : find? name es = some v) : (name, v) ∈ es := by
  induction es with
  | nil => simp at h
  | cons e es ih =>
    obtain ⟨k, w⟩ := e
    rw [find?] at h
    by_cases hk : k = name
    · rw [if_pos hk, Option.some.injEq] at h
      rw [hk, h]
      exact List.mem_cons_self
    · rw [if_neg hk] at h
      exact List.mem_cons_of_mem _ (ih h)

/-- Among distinct names every value is found. -/
theorem find?_of_mem {name : String} {v : β} {es : List (String × β)}
    (hn : (es.map (·.1)).Nodup) (h : (name, v) ∈ es) : find? name es = some v := by
  induction es with
  | nil => exact absurd h List.not_mem_nil
  | cons e es ih =>
    obtain ⟨k, w⟩ := e
    rw [List.map_cons, List.nodup_cons] at hn
    rw [find?]
    rcases List.mem_cons.mp h with heq | h
    · cases heq
      exact if_pos rfl
    · have hne : k ≠ name := by
        rintro rfl
        exact hn.1 (List.mem_map.mpr ⟨_, h, rfl⟩)
      rw [if_neg hne, ih hn.2 h]

/-- What is found in the front is found in the whole. -/
theorem find?_append_of_eq_some {name : String} {v : β} {es : List (String × β)}
    (fs : List (String × β)) (h : find? name es = some v) : find? name (es ++ fs) = some v := by
  induction es with
  | nil => simp at h
  | cons e es ih =>
    obtain ⟨k, w⟩ := e
    rw [List.cons_append, find?]
    rw [find?] at h
    by_cases hk : k = name
    · rwa [if_pos hk] at h ⊢
    · rw [if_neg hk] at h ⊢
      exact ih h

/-- What is not found in the front is looked up in the rest. -/
theorem find?_append_of_eq_none {name : String} {es : List (String × β)}
    (fs : List (String × β)) (h : find? name es = none) :
    find? name (es ++ fs) = find? name fs := by
  induction es with
  | nil => rfl
  | cons e es ih =>
    obtain ⟨k, w⟩ := e
    rw [find?] at h
    rw [List.cons_append, find?]
    by_cases hk : k = name
    · rw [if_pos hk] at h
      cases h
    · rw [if_neg hk] at h ⊢
      exact ih h

/-- Putting what is found changes nothing. -/
theorem put_of_find? {name : String} {v : β} {es : List (String × β)}
    (h : find? name es = some v) : put name v es = es := by
  induction es with
  | nil => simp at h
  | cons e es ih =>
    obtain ⟨k, w⟩ := e
    rw [find?] at h
    rw [put]
    by_cases hk : k = name
    · rw [if_pos hk, Option.some.injEq] at h
      rw [if_pos hk, hk, h]
    · rw [if_neg hk] at h ⊢
      rw [ih h]

/-- A new name goes to the end. -/
theorem put_of_notMem {name : String} (v : β) {es : List (String × β)}
    (h : name ∉ es.map (·.1)) : put name v es = es ++ [(name, v)] := by
  induction es with
  | nil => rfl
  | cons e es ih =>
    rw [List.map_cons, List.mem_cons, not_or] at h
    rw [put, if_neg (Ne.symm h.1), ih h.2, List.cons_append]

/-- A name that is there keeps its place. -/
theorem put_append_cons {name : String} (v w : β) {es : List (String × β)}
    (fs : List (String × β)) (h : name ∉ es.map (·.1)) :
    put name v (es ++ (name, w) :: fs) = es ++ (name, v) :: fs := by
  induction es with
  | nil => rw [List.nil_append, List.nil_append, put, if_pos rfl]
  | cons e es ih =>
    rw [List.map_cons, List.mem_cons, not_or] at h
    rw [List.cons_append, put, if_neg (Ne.symm h.1), ih h.2, List.cons_append]

/-- A name that does not stand in the front is put into the rest. -/
theorem put_append {name : String} (v : β) {es : List (String × β)} (fs : List (String × β))
    (h : name ∉ es.map (·.1)) : put name v (es ++ fs) = es ++ put name v fs := by
  induction es with
  | nil => rfl
  | cons e es ih =>
    rw [List.map_cons, List.mem_cons, not_or] at h
    rw [List.cons_append, put, if_neg (Ne.symm h.1), ih h.2, List.cons_append]

/-- Putting keeps the names that were there and adds at most the one put. -/
theorem map_fst_put (name : String) (v : β) (es : List (String × β)) :
    (put name v es).map (·.1) =
      if name ∈ es.map (·.1) then es.map (·.1) else es.map (·.1) ++ [name] := by
  induction es with
  | nil => rfl
  | cons e es ih =>
    obtain ⟨k, w⟩ := e
    rw [put]
    by_cases hk : k = name
    · simp [hk]
    · rw [if_neg hk, List.map_cons, List.map_cons, ih]
      have hiff : name ∈ k :: es.map (·.1) ↔ name ∈ es.map (·.1) := by
        rw [List.mem_cons]
        exact ⟨fun h => h.resolve_left (Ne.symm hk), Or.inr⟩
      by_cases hm : name ∈ es.map (·.1)
      · rw [if_pos hm, if_pos (hiff.mpr hm)]
      · rw [if_neg hm, if_neg (mt hiff.mp hm), List.cons_append]

/-- What stands in a list after putting was there before or is what was put. -/
theorem mem_put {name : String} {v : β} {e : String × β} {es : List (String × β)}
    (h : e ∈ put name v es) : e ∈ es ∨ e = (name, v) := by
  induction es with
  | nil => exact Or.inr (List.mem_singleton.mp h)
  | cons d es ih =>
    rw [put] at h
    by_cases hk : d.1 = name
    · rw [if_pos hk, List.mem_cons] at h
      rcases h with h | h
      · exact Or.inr (by rw [h, hk])
      · exact Or.inl (List.mem_cons_of_mem _ h)
    · rw [if_neg hk, List.mem_cons] at h
      rcases h with h | h
      · exact Or.inl (by rw [h]; exact List.mem_cons_self)
      · exact (ih h).imp_left (List.mem_cons_of_mem _)

/-- Filtering one name out leaves the values of the others. -/
theorem find?_filter_ne (name k : String) (es : List (String × β)) :
    find? k (es.filter fun e => e.1 != name) = if k = name then none else find? k es := by
  induction es with
  | nil => simp
  | cons e es ih =>
    obtain ⟨a, v⟩ := e
    rw [List.filter_cons]
    by_cases ha : a = name
    · rw [if_neg (by simp [ha]), ih, find?]
      by_cases hk : k = name
      · rw [if_pos hk, if_pos hk]
      · rw [if_neg hk, if_neg hk, if_neg (fun e => hk (e.symm.trans ha))]
    · rw [if_pos (by simp [ha]), find?, find?, ih]
      by_cases hk : k = name
      · rw [if_pos hk, if_pos hk, if_neg (fun e => ha (e.trans hk))]
      · rw [if_neg hk, if_neg hk]

end Entries

namespace Table

/-! ### Names -/

theorem contains_iff_mem_keys {t : Table β} {name : String} :
    t.contains name = true ↔ name ∈ t.keys :=
  Entries.find?_isSome_iff

theorem find?_eq_none_iff {t : Table β} {name : String} :
    t.find? name = none ↔ name ∉ t.keys :=
  Entries.find?_eq_none_iff

theorem contains_eq_false_iff {t : Table β} {name : String} :
    t.contains name = false ↔ name ∉ t.keys := by
  rw [← contains_iff_mem_keys, Bool.not_eq_true]

theorem mem_of_find? {t : Table β} {name : String} {v : β} (h : t.find? name = some v) :
    (name, v) ∈ t.entries :=
  Entries.mem_of_find? h

/-- Tables in which the same is found have the same entries, in some order. -/
theorem perm_of_find? {t t' : Table β} (hn : t.keys.Nodup) (hn' : t'.keys.Nodup)
    (h : ∀ name v, t.find? name = some v ↔ t'.find? name = some v) :
    t.entries.Perm t'.entries := by
  have hnodup : ∀ {u : Table β}, u.keys.Nodup → u.entries.Nodup :=
    List.Pairwise.of_map _ fun _ _ hne heq => hne (congrArg Prod.fst heq)
  refine (List.perm_ext_iff_of_nodup (hnodup hn) (hnodup hn')).mpr fun e => ?_
  exact ⟨fun he => mem_of_find? ((h e.1 e.2).mp (Entries.find?_of_mem hn he)),
    fun he => mem_of_find? ((h e.1 e.2).mpr (Entries.find?_of_mem hn' he))⟩

/-! ### Entering -/

@[simp] theorem contains_insert (t : Table β) (name k : String) (v : β) :
    (t.insert name v).contains k = (decide (name = k) || t.contains k) := by
  rw [contains, contains, find?_insert]
  by_cases h : name = k <;> simp [h]

/-- A new name goes to the end. -/
theorem insert_of_notMem {t : Table β} {name : String} (v : β) (h : name ∉ t.keys) :
    (t.insert name v).entries = t.entries ++ [(name, v)] :=
  Entries.put_of_notMem v h

/-- Entering what is found changes nothing. -/
theorem insert_of_find? {t : Table β} {name : String} {v : β} (h : t.find? name = some v) :
    t.insert name v = t :=
  congrArg Table.mk (Entries.put_of_find? h)

/-- A name that is there keeps its place. -/
theorem insert_of_split {t : Table β} {name : String} (v : β) {w : β}
    {es fs : List (String × β)} (ht : t.entries = es ++ (name, w) :: fs)
    (h : name ∉ es.map (·.1)) : (t.insert name v).entries = es ++ (name, v) :: fs := by
  rw [insert, ht]
  exact Entries.put_append_cons v w fs h

theorem keys_insert (t : Table β) (name : String) (v : β) :
    (t.insert name v).keys = if name ∈ t.keys then t.keys else t.keys ++ [name] :=
  Entries.map_fst_put name v t.entries

theorem nodup_keys_insert {t : Table β} (name : String) (v : β) (h : t.keys.Nodup) :
    (t.insert name v).keys.Nodup := by
  rw [keys_insert]
  split
  · exact h
  · next hn =>
    rw [List.nodup_append]
    refine ⟨h, by simp, ?_⟩
    intro a ha b hb
    rw [List.mem_singleton] at hb
    exact fun e => hn (hb ▸ e ▸ ha)

theorem mem_entries_insert {t : Table β} {name : String} {v : β} {e : String × β}
    (h : e ∈ (t.insert name v).entries) : e ∈ t.entries ∨ e = (name, v) :=
  Entries.mem_put h

/-! ### Erasing -/

/-- Erasing takes out one name only. -/
theorem find?_erase (t : Table β) (name k : String) :
    (t.erase name).find? k = if k = name then none else t.find? k :=
  Entries.find?_filter_ne name k t.entries

@[simp] theorem contains_erase (t : Table β) (name k : String) :
    (t.erase name).contains k = (!decide (k = name) && t.contains k) := by
  rw [contains, contains, find?_erase]
  by_cases h : k = name <;> simp [h]

/-- Erasing a name that came last gives the table back. -/
theorem erase_insert {t : Table β} {name : String} (v : β) (h : name ∉ t.keys) :
    (t.insert name v).erase name = t := by
  rw [erase, insert_of_notMem v h, List.filter_append]
  have hkeep : t.entries.filter (fun e => e.1 != name) = t.entries := by
    rw [List.filter_eq_self]
    intro e he
    rw [bne_iff_ne]
    exact fun hn => h (hn ▸ List.mem_map_of_mem he)
  rw [hkeep]
  simp

/-- Erasing the first of the names leaves the other entries. -/
theorem erase_of_cons {t : Table β} {name : String} {v : β} {es : List (String × β)}
    (ht : t.entries = (name, v) :: es) (h : name ∉ es.map (·.1)) :
    (t.erase name).entries = es := by
  rw [erase, ht, List.filter_cons, if_neg (by simp), List.filter_eq_self]
  intro e he
  rw [bne_iff_ne]
  exact fun hn => h (hn ▸ List.mem_map_of_mem he)

theorem erase_entries_sublist (t : Table β) (name : String) :
    (t.erase name).entries.Sublist t.entries :=
  List.filter_sublist

theorem nodup_keys_erase {t : Table β} (name : String) (h : t.keys.Nodup) :
    (t.erase name).keys.Nodup :=
  h.sublist ((t.erase_entries_sublist name).map _)

/-! ### Starts -/

theorem keys_subset_of_prefix {t t' : Table β} (hp : t.entries <+: t'.entries) :
    t.keys ⊆ t'.keys :=
  (hp.map _).subset

theorem contains_of_prefix {t t' : Table β} {name : String} (hp : t.entries <+: t'.entries)
    (h : t.contains name = true) : t'.contains name = true := by
  rw [contains_iff_mem_keys] at h ⊢
  exact keys_subset_of_prefix hp h

/-- What is found stays found where a table only grows at its end. -/
theorem find?_of_prefix {t t' : Table β} {name : String} {v : β}
    (hp : t.entries <+: t'.entries) (h : t.find? name = some v) : t'.find? name = some v := by
  obtain ⟨es, hes⟩ := hp
  rw [find?, ← hes]
  exact Entries.find?_append_of_eq_some es h

/-- Cutting a table back to the size it had gives it back, if it only grew at its end. -/
theorem take_size_of_prefix {t t' : Table β} (hp : t.entries <+: t'.entries) :
    t'.take t.size = t := by
  rw [take, size, ← List.prefix_iff_eq_take.mp hp]

/-- A table without names is empty. -/
theorem eq_empty_of_contains {t : Table β} (h : ∀ name, t.contains name = false) :
    t = .empty := by
  obtain ⟨_ | ⟨e, es⟩⟩ := t
  · rfl
  · have he := h e.1
    rw [contains_eq_false_iff] at he
    exact absurd List.mem_cons_self he

end Table
end SchemaScript
