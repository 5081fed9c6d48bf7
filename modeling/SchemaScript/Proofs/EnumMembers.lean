import SchemaScript.Proofs.Emission.Growth
import SchemaScript.Proofs.Name.MemberNames

/-!
# Members of enums

An enum has one member for every distinct value, in the order in which the values first
come.  A member is named after its value, and where the name is that of an earlier member
it is numbered with the first number that is free.  A numbered name can be the one that a
later value has by itself; then that value is numbered in turn.  So the names are told
apart by what went before, and the induction is on the values with any names used and any
values seen.

## Main definitions

* `membersFor` — the members, as a function of the values alone.
* `Member.IsNamedAfter` — the name of a member, given the names before it.
* `IsEnumOf` — what the members of an enum are.
* `renamings` — the notes on members whose names were taken.

## Main results

* `exec_members_str` — texts never fail to make members.
* `isEnumOf_membersFor` — the members are what they should be.
* `declares_emitEnum` — an enum of texts is declared, with these members.
-/

namespace SchemaScript

open Stateful

/-! ### Members -/

/-- The name for a value where some names are used. -/
def nameAmong (used : List String) (value : String) : String :=
  if Name.memberName value ∈ used then Name.freshName (Name.memberName value) used
  else Name.memberName value

/-- The members for some values, where some names are used and some values were seen. -/
def membersFor (used seen : List String) : List String → List Member
  | [] => []
  | value :: values =>
    if value ∈ seen then membersFor used seen values
    else ⟨nameAmong used value, value⟩ ::
      membersFor (nameAmong used value :: used) (value :: seen) values

/-- Behind the names of other members, a member is named after its value, or by the first
free number behind that name if it is among them. -/
def Member.IsNamedAfter (names : List String) (m : Member) : Prop :=
  (Name.memberName m.value ∉ names → m.name = Name.memberName m.value) ∧
    (Name.memberName m.value ∈ names →
      Name.IsFirstFree (Name.memberName m.value) names 2 m.name)

/-- The members are those of an enum of the values. -/
structure IsEnumOf (values : List String) (ms : List Member) : Prop where
  /-- Every value has one member, in the order in which the values first come. -/
  values : ms.map (·.value) = values.eraseDups
  nodup : (ms.map (·.name)).Nodup
  shaped : ∀ m ∈ ms, Name.IsMemberName m.name
  named : ∀ {before after : List Member} {m : Member}, ms = before ++ m :: after →
    m.IsNamedAfter (before.map (·.name))

/-- The notes on members that are not named after their values. -/
def renamings (fqn : String) : List Member → List Note
  | [] => []
  | m :: ms =>
    if m.name = Name.memberName m.value then renamings fqn ms
    else .renamedMember fqn m.value (Name.memberName m.value) m.name :: renamings fqn ms

/-! ### Names among others -/

theorem nameAmong_eq {used : List String} {value : String} (h : Name.memberName value ∉ used) :
    nameAmong used value = Name.memberName value := if_neg h

theorem nameAmong_ne {used : List String} {value : String} (h : Name.memberName value ∈ used) :
    nameAmong used value ≠ Name.memberName value := by
  rw [nameAmong, if_pos h]
  obtain ⟨m, -, hname, -, -⟩ := Name.isFirstFree_freshName (Name.memberName value) used
  rw [hname]
  exact Name.numbered_ne _ m

theorem isNamedAfter_nameAmong (used : List String) (value : String) :
    Member.IsNamedAfter used ⟨nameAmong used value, value⟩ := by
  refine ⟨nameAmong_eq, fun h => ?_⟩
  simp only [nameAmong, if_pos h]
  exact Name.isFirstFree_freshName _ used

theorem nameAmong_notMem (used : List String) (value : String) : nameAmong used value ∉ used := by
  by_cases h : Name.memberName value ∈ used
  · obtain ⟨_, -, -, hnew, -⟩ := (isNamedAfter_nameAmong used value).2 h
    exact hnew
  · rwa [nameAmong_eq h]

theorem isMemberName_nameAmong (used : List String) (value : String) :
    Name.IsMemberName (nameAmong used value) := by
  have hbase := Name.isMemberName_memberName value
  by_cases h : Name.memberName value ∈ used
  · obtain ⟨m, -, hname, -, -⟩ := (isNamedAfter_nameAmong used value).2 h
    rw [show nameAmong used value = _ from hname]
    exact hbase.numbered m
  · rwa [nameAmong_eq h]

/-- Only which names come before matters, not their order. -/
theorem Member.IsNamedAfter.congr {names names' : List String} {m : Member}
    (h : m.IsNamedAfter names) (hnames : ∀ s, s ∈ names ↔ s ∈ names') : m.IsNamedAfter names' := by
  refine ⟨fun hnew => h.1 ?_, fun hmem => (h.2 ?_).congr hnames⟩
  · rwa [hnames]
  · rwa [hnames]

/-! ### Members for values -/

/-- The values of the members are those not seen before, each at its first place. -/
theorem map_value_membersFor (used seen values : List String) :
    (membersFor used seen values).map (·.value) =
      (values.filter fun v => decide (v ∉ seen)).eraseDups := by
  induction values generalizing used seen with
  | nil => simp [membersFor]
  | cons value values ih =>
    rw [membersFor]
    split
    · next h => rw [ih, List.filter_cons_of_neg (by simpa using h)]
    · next h =>
      rw [List.map_cons, ih, List.filter_cons_of_pos (by simpa using h), List.eraseDups_cons,
        List.filter_filter]
      congr 3
      funext v
      simp [not_or, Bool.beq_eq_decide_eq]

/-- No member takes a name that is used, or that of another member. -/
theorem nodup_membersFor (used seen values : List String) :
    (∀ m ∈ membersFor used seen values, m.name ∉ used) ∧
      ((membersFor used seen values).map (·.name)).Nodup := by
  induction values generalizing used seen with
  | nil => simp [membersFor]
  | cons value values ih =>
    rw [membersFor]
    split
    · exact ih used seen
    · obtain ⟨hnew, hnodup⟩ := ih (nameAmong used value :: used) (value :: seen)
      constructor
      · intro m hm
        rcases List.mem_cons.mp hm with rfl | hm
        · exact nameAmong_notMem used value
        · exact fun h => hnew m hm (List.mem_cons_of_mem _ h)
      · rw [List.map_cons, List.nodup_cons]
        refine ⟨?_, hnodup⟩
        intro h
        obtain ⟨m, hm, hname⟩ := List.mem_map.mp h
        apply hnew m hm
        rw [hname]
        exact List.mem_cons_self

theorem isMemberName_of_mem_membersFor {used seen values : List String} {m : Member}
    (h : m ∈ membersFor used seen values) : Name.IsMemberName m.name := by
  induction values generalizing used seen with
  | nil => exact absurd h List.not_mem_nil
  | cons value values ih =>
    rw [membersFor] at h
    split at h
    · exact ih h
    · rcases List.mem_cons.mp h with rfl | h
      · exact isMemberName_nameAmong used value
      · exact ih h

/-- Each member is named with regard to the names used at first and those of the members
before it. -/
theorem isNamedAfter_membersFor {used seen values : List String} {before after : List Member}
    {m : Member} (h : membersFor used seen values = before ++ m :: after) :
    m.IsNamedAfter (before.map (·.name) ++ used) := by
  induction values generalizing used seen before with
  | nil => simp [membersFor] at h
  | cons value values ih =>
    rw [membersFor] at h
    split at h
    · exact ih h
    · cases before with
      | nil =>
        rw [List.nil_append, List.cons.injEq] at h
        rw [← h.1]
        exact isNamedAfter_nameAmong used value
      | cons m' before =>
        rw [List.cons_append, List.cons.injEq] at h
        rw [← h.1]
        refine (ih h.2).congr ?_
        intro s
        simp only [List.map_cons, List.mem_append, List.mem_cons]
        tauto

/-- **The members for some values are those of an enum of the values.** -/
theorem isEnumOf_membersFor (values : List String) : IsEnumOf values (membersFor [] [] values) where
  values := by
    rw [map_value_membersFor]
    simp
  nodup := (nodup_membersFor [] [] values).2
  shaped := fun _ h => isMemberName_of_mem_membersFor h
  named := fun h => by
    have hnamed := isNamedAfter_membersFor h
    rwa [List.append_nil] at hnamed

/-- The number of the second value is the one that the third value has by itself. -/
example : (membersFor [] [] ["a-b", "a_b", "A_B_2", "a-b", "", "1st"]).map (·.name) =
    ["A_B", "A_B_2", "A_B_2_2", "EMPTY", "VALUE_1_ST"] := by decide +kernel

/-! ### Declaring an enum -/

namespace Resolver

variable {ε : Type}

theorem noted_noted (r : Resolver ε) (ns ns' : List Note) :
    (r.noted ns).noted ns' = r.noted (ns ++ ns') := by
  simp [noted, List.append_assoc]

/-- **Texts never fail to make members**, and every new name is noted. -/
theorem exec_members_str (typeName fqn : String) (used seen values : List String)
    (r : Resolver ε) :
    exec (members typeName fqn used seen (values.map .str)) r =
      (.ok (membersFor used seen values),
        r.noted (renamings fqn (membersFor used seen values))) := by
  induction values generalizing used seen r with
  | nil => simp [members, membersFor, renamings]
  | cons value values ih =>
    rw [List.map_cons, members, membersFor]
    split
    · exact ih used seen r
    · rw [renamings]
      -- the name is that of `nameAmong` in either case, so only the note tells them apart
      by_cases h : Name.memberName value ∈ used
      · have hname : Name.freshName (Name.memberName value) used = nameAmong used value :=
          (if_pos h).symm
        simp only [h, if_true, if_neg (nameAmong_ne h), hname]
        rw [exec_bind_ok (exec_note _ r), exec_bind_pure, ih, noted_noted]
        rfl
      · simp only [h, if_false, if_pos (nameAmong_eq h)]
        rw [← nameAmong_eq h, exec_bind_pure, ih]
        rfl

theorem enumValues_str {typeName : String} {schema : Json} {values : List String}
    (htype : schema.get "type" = .str "string") (henum : schema.get "enum" = .arr (values.map .str))
    (hne : values ≠ []) : enumValues typeName schema = .ok (values.map .str) := by
  cases values with
  | nil => exact absurd rfl hne
  | cons value values =>
    cases schema with
    | obj fs => simp [enumValues, henum, htype, Json.isStr, Json.str?]
    | _ => cases henum

/-- **An enum of texts is declared under a new type name, with a member for every distinct
value.**  The values keep the order in which they first come; the names are pairwise
distinct, in capitals, and each is the one made from the value unless an earlier member has
that name.  The declaration comes last in the queue, and the members with other names are
noted. -/
theorem declares_emitEnum {typeName : String} {schema : Json} {values : List String}
    {r : Resolver ε} (fqn : String) (htype : schema.get "type" = .str "string")
    (henum : schema.get "enum" = .arr (values.map .str)) (hne : values ≠ [])
    (hnew : r.queue.isKnown typeName = false) :
    ∃ ms r', exec (emitEnum typeName schema fqn) r = (.ok (.named typeName), r') ∧
      IsEnumOf values ms ∧
      r'.queue.waiting.entries = r.queue.waiting.entries ++
        [(typeName, ⟨typeName, fqn, schema.get "description", some schema, .enum ms⟩)] ∧
      r'.notes = r.notes ++ renamings fqn ms ++ [.queued "EnumDeclaration" typeName fqn] := by
  let d : Declaration ε := ⟨typeName, fqn, schema.get "description", some schema,
    .enum (membersFor [] [] values)⟩
  have hmembers := exec_members_str typeName fqn [] [] values r
  have hnew' : (r.noted (renamings fqn (membersFor [] [] values))).queue.isKnown d.name = false :=
    hnew
  refine ⟨_, (r.noted (renamings fqn (membersFor [] [] values))).declared d, ?_,
    isEnumOf_membersFor values, entries_declared hnew', rfl⟩
  simp only [emitEnum, exec_bind, exec_get, hnew, Bool.not_false, if_true, exec_lift,
    enumValues_str htype henum hne, hmembers, exec_enqueue, accepts_of_not_isKnown hnew', exec_pure,
    d]

/-- Values whose names collide, some by themselves and one with a numbered name. -/
def collidingValues : List String := ["a-b", "a_b", "A_B_2", "a-b", "", "1st"]

/-- The enum of the values. -/
def collidingEnum : Json :=
  .obj [("type", .str "string"), ("enum", .arr (collidingValues.map .str))]

/-- The enum is declared with five members for its six values. -/
theorem declares_emitEnum_collidingValues :
    collidingEnum.get "type" = .str "string" ∧
      collidingEnum.get "enum" = .arr (collidingValues.map .str) ∧ collidingValues ≠ [] ∧
      (fresh [] .empty : Resolver Empty).queue.isKnown "E" = false ∧
      ∃ ms r', exec (emitEnum "E" collidingEnum "E") (fresh [] .empty : Resolver Empty) =
          (.ok (.named "E"), r') ∧
        IsEnumOf collidingValues ms ∧ ms.map (·.value) = ["a-b", "a_b", "A_B_2", "", "1st"] ∧
        r'.queue.waiting.entries = [("E", ⟨"E", "E", .null, some collidingEnum, .enum ms⟩)] := by
  have htype : collidingEnum.get "type" = .str "string" := rfl
  have henum : collidingEnum.get "enum" = .arr (collidingValues.map .str) := rfl
  have hne : collidingValues ≠ [] := by simp [collidingValues]
  have hnew : (fresh [] .empty : Resolver Empty).queue.isKnown "E" = false := rfl
  obtain ⟨ms, r', hexec, hms, hentries, -⟩ := declares_emitEnum "E" htype henum hne hnew
  refine ⟨htype, henum, hne, hnew, ?_⟩
  exact ⟨ms, r', hexec, hms, hms.values.trans (by decide +kernel), hentries⟩

end Resolver
end SchemaScript
