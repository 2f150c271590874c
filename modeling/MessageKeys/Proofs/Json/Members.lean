import Mathlib.Data.List.Nodup
import MessageKeys.Json.Value

/-! # Members of objects — one for each name

    A member that is set takes the place of the one of its name, or comes after all others.  So the
    members of an object that is read have different names (`namesDistinct_of_parse?`), and
    members of different names are kept as they are (`distinctMembers_of_nodup`).

    The order of members is that of the text.  Values that differ in it alone are
    `SameUpToOrder`. -/

namespace MessageKeys.Json.Value

variable {name : String} {v : Value} {members : List (String × Value)}

/-! ## Setting members -/

/-- A member of a new name comes after all others. -/
theorem setMember_of_not_mem (h : name ∉ members.map (·.1)) :
    setMember name v members = members ++ [(name, v)] := by
  induction members with
  | nil => rfl
  | cons m rest ih =>
      obtain ⟨k, w⟩ := m
      rw [List.map_cons, List.mem_cons, not_or] at h
      rw [setMember, if_neg (Ne.symm h.1), ih h.2]
      rfl

/-- Members of different names are kept as they are. -/
theorem distinctMembers_of_nodup (h : (members.map (·.1)).Nodup) :
    distinctMembers members = members := by
  suffices hsuffices : ∀ before : List (String × Value), ((before ++ members).map (·.1)).Nodup →
      members.foldl (fun ms m => setMember m.1 m.2 ms) before = before ++ members from
    hsuffices [] h
  clear h
  induction members with
  | nil => exact fun before _ => (List.append_nil before).symm
  | cons m rest ih =>
      intro before hnodup
      have hnew : m.1 ∉ before.map (·.1) := by
        rw [List.map_append, List.nodup_append] at hnodup
        intro hmem
        exact hnodup.2.2 _ hmem _ List.mem_cons_self rfl
      rw [List.foldl_cons, setMember_of_not_mem hnew, ih, List.append_assoc]
      · rfl
      · rw [List.append_assoc]
        exact hnodup

/-- Setting a member adds no other one. -/
theorem mem_setMember {m : String × Value} (h : m ∈ setMember name v members) :
    m = (name, v) ∨ m ∈ members := by
  induction members with
  | nil => exact .inl (List.mem_singleton.mp h)
  | cons other rest ih =>
      obtain ⟨k, w⟩ := other
      rw [setMember] at h
      split at h
      · next hk =>
        rcases List.mem_cons.mp h with rfl | h
        · exact .inl (by rw [hk])
        · exact .inr (List.mem_cons_of_mem _ h)
      · rcases List.mem_cons.mp h with rfl | h
        · exact .inr List.mem_cons_self
        · exact (ih h).imp id (List.mem_cons_of_mem _)

/-- Names stay distinct when a member is set. -/
theorem nodup_setMember (h : (members.map (·.1)).Nodup) :
    ((setMember name v members).map (·.1)).Nodup := by
  induction members with
  | nil => exact List.nodup_singleton name
  | cons other rest ih =>
      obtain ⟨k, w⟩ := other
      obtain ⟨hk, hrest⟩ := List.nodup_cons.mp h
      rw [setMember]
      split
      · exact h
      · next hne =>
        refine List.nodup_cons.mpr ⟨fun hmem => ?_, ih hrest⟩
        obtain ⟨m, hm, hname⟩ := List.mem_map.mp hmem
        rcases mem_setMember hm with rfl | hm
        · exact hne hname.symm
        · exact hk (List.mem_map.mpr ⟨m, hm, hname⟩)

/-- One member is left of each name, and none is new. -/
theorem distinctMembers_spec (members : List (String × Value)) :
    ((distinctMembers members).map (·.1)).Nodup ∧ ∀ m ∈ distinctMembers members, m ∈ members := by
  suffices hsuffices : ∀ start : List (String × Value), (start.map (·.1)).Nodup →
      ((members.foldl (fun ms m => setMember m.1 m.2 ms) start).map (·.1)).Nodup ∧
        ∀ m ∈ members.foldl (fun ms m => setMember m.1 m.2 ms) start, m ∈ start ∨ m ∈ members by
    obtain ⟨hnodup, hmem⟩ := hsuffices [] List.nodup_nil
    exact ⟨hnodup, fun m hm => (hmem m hm).resolve_left List.not_mem_nil⟩
  induction members with
  | nil => exact fun start hstart => ⟨hstart, fun m hm => .inl hm⟩
  | cons other rest ih =>
      intro start hstart
      obtain ⟨hnodup, hmem⟩ := ih _ (nodup_setMember hstart)
      refine ⟨hnodup, fun m hm => ?_⟩
      rcases hmem m hm with hm | hm
      · exact (mem_setMember hm).elim (fun he => .inr (he ▸ List.mem_cons_self)) .inl
      · exact .inr (List.mem_cons_of_mem _ hm)

/-! ## Different names -/

mutual

/-- No object that objects lead to has two members of one name. -/
def NamesDistinct : Value → Prop
  | .object members => (members.map (·.1)).Nodup ∧ MembersDistinct members
  | _ => True

/-- The same of the values of members. -/
def MembersDistinct : List (String × Value) → Prop
  | [] => True
  | (_, v) :: rest => v.NamesDistinct ∧ MembersDistinct rest

end

theorem membersDistinct_iff : MembersDistinct members ↔ ∀ m ∈ members, m.2.NamesDistinct := by
  induction members with
  | nil => simp [MembersDistinct]
  | cons m rest ih =>
      obtain ⟨name, v⟩ := m
      rw [MembersDistinct, ih, List.forall_mem_cons]

mutual

/-- Whatever a document says twice, its value has once. -/
theorem namesDistinct_of_meaning? (d : Document) {v : Value} (h : d.meaning? = some v) :
    v.NamesDistinct := by
  cases d with
  | object members =>
      rw [Document.meaning?] at h
      obtain ⟨ms, hms, rfl⟩ := Option.map_eq_some_iff.mp h
      obtain ⟨hnodup, hmem⟩ := distinctMembers_spec ms
      have hbelow := membersDistinct_iff.mp (membersDistinct_of_membersMeaning? members hms)
      exact ⟨hnodup, membersDistinct_iff.mpr fun m hm => hbelow m (hmem m hm)⟩
  | null => cases h; trivial
  | bool b => cases h; trivial
  | number n =>
      rw [Document.meaning?] at h
      split at h
      · cases h; trivial
      · cases h
  | text q =>
      obtain ⟨s, -, rfl⟩ := Option.map_eq_some_iff.mp h
      trivial
  | array items =>
      rw [Document.meaning?] at h
      obtain ⟨vs, -, rfl⟩ := Option.map_eq_some_iff.mp h
      trivial

theorem membersDistinct_of_membersMeaning? (ms : List (List Char × Document))
    {members : List (String × Value)} (h : Document.membersMeaning? ms = some members) :
    MembersDistinct members := by
  cases ms with
  | nil => cases h; trivial
  | cons m rest =>
      obtain ⟨q, d⟩ := m
      rw [Document.membersMeaning?] at h
      split at h
      · next name v vs _ hv hvs =>
        cases h
        exact ⟨namesDistinct_of_meaning? d hv, membersDistinct_of_membersMeaning? rest hvs⟩
      · cases h

end

/-- **READING**: in the value of a text no object that objects lead to has two members of one
    name. -/
theorem namesDistinct_of_parse? {content : String} (h : parse? content = some v) :
    v.NamesDistinct := by
  obtain ⟨d, -, hd⟩ := Option.bind_eq_some_iff.mp h
  rw [Document.toValue?] at hd
  split at hd
  · exact namesDistinct_of_meaning? d hd
  · cases hd

/-! ## Order of members -/

mutual

/-- The values are equal up to the order of members. -/
inductive SameUpToOrder : Value → Value → Prop where
  | refl (v : Value) : SameUpToOrder v v
  | object {members others : List (String × Value)} :
      SameMembers members others → SameUpToOrder (.object members) (.object others)

/-- Each member of the one list has its own one in the other: of the same name, and with a value
    that is equal up to order. -/
inductive SameMembers : List (String × Value) → List (String × Value) → Prop where
  | nil : SameMembers [] []
  | cons {name : String} {v w : Value} {rest before after : List (String × Value)} :
      SameUpToOrder v w → SameMembers rest (before ++ after) →
        SameMembers ((name, v) :: rest) (before ++ (name, w) :: after)

end

end MessageKeys.Json.Value
