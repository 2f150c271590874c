import Mathlib.Data.List.Nodup
import MessageKeys.Dictionary.Basic

/-! # Dictionaries and their listings

    `toList` lists what look-ups answer (`mem_toList_iff`), each name once
    (`nodup_names`), and `ofList` takes any such listing back to its dictionary, in
    whatever order it is listed (`ofList_eq_of_perm`).  Storing many pairs at once asks the
    pairs first and the dictionary after them (`get?_insertMany`).

    Sorted entries that were changed under one name come back when the change is undone there
    (`Increasing.insert_back`, `Increasing.erase_back`). -/

namespace MessageKeys

/-- Many steps, one for each name, as they are seen under one name: its own step counts, and
    doing it again changes nothing. -/
theorem seen_foldl {σ γ : Type} {step : σ → String → σ} (seen : σ → γ) (change : γ → γ)
    {name : String} (hstep : ∀ s n, seen (step s n) = if n = name then change (seen s) else seen s)
    (htwice : ∀ x, change (change x) = change x) (names : List String) (s : σ) :
    seen (names.foldl step s) = if name ∈ names then change (seen s) else seen s := by
  induction names generalizing s with
  | nil => rfl
  | cons n rest ih =>
      rw [List.foldl_cons, ih, hstep]
      by_cases h : n = name
      · have hmem : name ∈ n :: rest := h ▸ List.mem_cons_self
        rw [if_pos h, if_pos hmem]
        split
        · exact htwice _
        · rfl
      · have hrest : name ∈ n :: rest ↔ name ∈ rest := by
          rw [List.mem_cons, or_iff_right (Ne.symm h)]
        rw [if_neg h, if_congr hrest rfl rfl]

/-! ## Sorted entries -/

namespace Entries

variable {α : Type} {es fs : List (String × α)} {name : String} {value : α}

/-- An entry is the answer for its name. -/
theorem Increasing.get?_of_mem (h : Increasing es) (hmem : (name, value) ∈ es) :
    get? name es = some value := by
  induction es with
  | nil => cases hmem
  | cons e rest ih =>
      obtain ⟨hlt, hrest⟩ := List.pairwise_cons.mp h
      rcases List.mem_cons.mp hmem with rfl | hmem
      · rw [get?, if_pos rfl]
      · rw [get?, if_neg (name_ne_of_lt (hlt _ hmem))]
        exact ih hrest hmem

/-- Entries that were changed under one name come back with what stood there. -/
theorem Increasing.insert_back (hes : Increasing es) (hfs : Increasing fs)
    (hother : ∀ other, name ≠ other → get? other fs = get? other es)
    (hget : get? name es = some value) : Entries.insert name value fs = es := by
  refine (hfs.insert name value).ext hes fun other => ?_
  rw [get?_insert]
  split
  · next hname => rw [← hname, hget]
  · next hname => exact hother other hname

/-- If nothing stood there, they come back when the name is dropped. -/
theorem Increasing.erase_back (hes : Increasing es) (hfs : Increasing fs)
    (hother : ∀ other, name ≠ other → get? other fs = get? other es)
    (hget : get? name es = none) : Entries.erase name fs = es := by
  refine (hfs.erase name).ext hes fun other => ?_
  rw [get?_erase]
  split
  · next hname => rw [← hname, hget]
  · next hname => exact hother other hname

/-- Where nothing is stored, nothing is dropped. -/
theorem erase_of_get?_eq_none (h : get? name es = none) : Entries.erase name es = es := by
  induction es with
  | nil => rfl
  | cons e rest ih =>
      obtain ⟨k, other⟩ := e
      rw [get?] at h
      split at h
      · cases h
      · next hk => rw [Entries.erase, if_neg hk, ih h]

/-- A new name makes one more entry. -/
theorem length_insert (value : α) (h : get? name es = none) :
    (Entries.insert name value es).length = es.length + 1 := by
  induction es with
  | nil => rfl
  | cons e rest ih =>
      obtain ⟨k, other⟩ := e
      rw [get?] at h
      split at h
      · cases h
      · next hk =>
        rw [Entries.insert]
        split
        · rfl
        · rw [if_neg (Ne.symm hk), List.length_cons, ih h, List.length_cons]

/-- Dropping a name that is stored makes one entry less. -/
theorem Increasing.length_erase (hes : Increasing es) (h : get? name es = some value) :
    (Entries.erase name es).length + 1 = es.length := by
  induction es with
  | nil => cases h
  | cons e rest ih =>
      obtain ⟨k, other⟩ := e
      obtain ⟨hlt, hrest⟩ := List.pairwise_cons.mp hes
      rw [get?] at h
      rw [Entries.erase]
      split at h
      · next hk =>
        subst hk
        rw [if_pos rfl, erase_of_get?_eq_none (get?_eq_none_of_lt hlt), List.length_cons]
      · next hk => rw [if_neg hk, List.length_cons, List.length_cons, ih hrest h]

/-- A new name gets its place among the others. -/
theorem insert_eq_append (value : α) (h : ∀ e ∈ es, e.1 ≠ name) :
    ∃ before after, es = before ++ after ∧
      Entries.insert name value es = before ++ (name, value) :: after := by
  induction es with
  | nil => exact ⟨[], [], rfl, rfl⟩
  | cons e rest ih =>
      obtain ⟨k, other⟩ := e
      rw [Entries.insert]
      split
      · exact ⟨[], (k, other) :: rest, rfl, rfl⟩
      · have hne : name ≠ k := (h (k, other) List.mem_cons_self).symm
        obtain ⟨before, after, hrest, hinsert⟩ := ih fun e he => h e (List.mem_cons_of_mem _ he)
        exact ⟨(k, other) :: before, after, by rw [hrest]; rfl, by rw [if_neg hne, hinsert]; rfl⟩

end Entries

namespace Dictionary

variable {α β : Type}

@[simp] theorem get?_default_empty (name : String) : (∅ : Dictionary α).get? name = none := rfl

/-! ## Listing -/

theorem mem_toList_iff (d : Dictionary α) (name : String) (value : α) :
    (name, value) ∈ d.toList ↔ d.get? name = some value :=
  ⟨d.increasing.get?_of_mem, Entries.mem_of_get?⟩

theorem mem_keys_iff (d : Dictionary α) (name : String) :
    name ∈ d.keys ↔ ∃ value, d.get? name = some value := by
  show name ∈ d.toList.map (·.1) ↔ _
  rw [List.mem_map]
  constructor
  · rintro ⟨⟨_, value⟩, hmem, rfl⟩
    exact ⟨value, (mem_toList_iff d _ value).mp hmem⟩
  · rintro ⟨value, hget⟩
    exact ⟨(name, value), (mem_toList_iff d name value).mpr hget, rfl⟩

/-- No name is listed twice. -/
theorem nodup_names (d : Dictionary α) : (d.toList.map (·.1)).Nodup := by
  rw [List.nodup_iff_pairwise_ne, List.pairwise_map]
  exact d.increasing.imp Entries.name_ne_of_lt

/-! ## Storing many pairs -/

theorem insertMany_cons (d : Dictionary α) (p : String × α) (pairs : List (String × α)) :
    d.insertMany (p :: pairs) = (d.insert p.1 p.2).insertMany pairs := rfl

/-- The pairs are asked first, then the dictionary they were stored in. -/
theorem get?_insertMany (d : Dictionary α) (pairs : List (String × α)) (name : String) :
    (d.insertMany pairs).get? name = ((ofList pairs).get? name).or (d.get? name) := by
  induction pairs generalizing d with
  | nil => rfl
  | cons p rest ih =>
      -- the induction is needed twice: for this dictionary and for the empty one
      have hlist := ih (insert ∅ p.1 p.2)
      rw [← insertMany_cons] at hlist
      show _ = Option.or (Dictionary.get? (insertMany ∅ (p :: rest)) name) _
      rw [insertMany_cons, ih, hlist, get?_insert, get?_insert]
      by_cases h : p.1 = name
      · rw [if_pos h, if_pos h]
        cases (ofList rest).get? name <;> rfl
      · rw [if_neg h, if_neg h]
        cases (ofList rest).get? name <;> rfl

/-- The first pair counts if no later one has its name. -/
theorem get?_ofList_cons (p : String × α) (rest : List (String × α)) (name : String) :
    (ofList (p :: rest)).get? name
      = ((ofList rest).get? name).or (if p.1 = name then some p.2 else none) := by
  show (insertMany ∅ (p :: rest)).get? name = _
  rw [insertMany_cons, get?_insertMany, get?_insert, get?_default_empty]

/-- Later pairs are asked first. -/
theorem get?_ofList_append (pairs more : List (String × α)) (name : String) :
    (ofList (pairs ++ more)).get? name
      = ((ofList more).get? name).or ((ofList pairs).get? name) := by
  rw [← get?_insertMany, ofList, insertMany, List.foldl_append]
  rfl

/-- Storing pairs again changes nothing. -/
theorem insertMany_twice (d : Dictionary α) (pairs : List (String × α)) :
    (d.insertMany pairs).insertMany pairs = d.insertMany pairs := by
  refine ext_get? fun name => ?_
  rw [get?_insertMany, get?_insertMany]
  cases (ofList pairs).get? name <;> rfl

/-- Only the names of the pairs are stored. -/
theorem get?_ofList_eq_none_iff (pairs : List (String × α)) (name : String) :
    (ofList pairs).get? name = none ↔ name ∉ pairs.map (·.1) := by
  induction pairs with
  | nil => exact iff_of_true rfl List.not_mem_nil
  | cons p rest ih =>
      rw [get?_ofList_cons, Option.or_eq_none_iff, ih, List.map_cons, List.mem_cons, not_or,
        and_comm]
      by_cases h : p.1 = name
      · simp [h]
      · simp [h, Ne.symm h]

/-- A name with a value is one of the pairs. -/
theorem mem_of_get?_ofList {pairs : List (String × α)} {name : String} {value : α}
    (h : (ofList pairs).get? name = some value) : (name, value) ∈ pairs := by
  induction pairs with
  | nil => cases h
  | cons p rest ih =>
      rw [get?_ofList_cons] at h
      -- the last pair with the name counts, so the rest is asked first
      cases hrest : (ofList rest).get? name with
      | some found =>
          rw [hrest] at h
          exact List.mem_cons_of_mem _ (ih (hrest.trans h))
      | none =>
          rw [hrest] at h
          split at h
          · next hp =>
            cases h
            exact hp ▸ List.mem_cons_self
          · cases h

/-- Pairs of different names are stored as they are. -/
theorem get?_ofList_iff {pairs : List (String × α)} (h : (pairs.map (·.1)).Nodup)
    (name : String) (value : α) :
    (ofList pairs).get? name = some value ↔ (name, value) ∈ pairs := by
  constructor
  · exact mem_of_get?_ofList
  · intro hmem
    induction pairs with
    | nil => cases hmem
    | cons p rest ih =>
        obtain ⟨hp, hrest⟩ := List.nodup_cons.mp h
        rw [get?_ofList_cons]
        rcases List.mem_cons.mp hmem with rfl | hmem
        · rw [(get?_ofList_eq_none_iff rest name).mpr hp, if_pos rfl]
          rfl
        · rw [ih hrest hmem]
          rfl

/-- A pair is stored as it is if all pairs of its name have its value. -/
theorem get?_ofList_of_mem {pairs : List (String × α)} {name : String} {value : α}
    (hmem : (name, value) ∈ pairs) (h : ∀ v, (name, v) ∈ pairs → v = value) :
    (ofList pairs).get? name = some value := by
  cases hget : (ofList pairs).get? name with
  | none =>
      rw [get?_ofList_eq_none_iff] at hget
      exact absurd (List.mem_map.mpr ⟨_, hmem, rfl⟩) hget
  | some v => rw [h v (mem_of_get?_ofList hget)]

/-- **ANY LISTING**: a dictionary is what any listing of its entries gives. -/
theorem ofList_eq_of_perm {d : Dictionary α} {pairs : List (String × α)}
    (h : pairs.Perm d.toList) : ofList pairs = d := by
  have hnodup : (pairs.map (·.1)).Nodup := (h.map _).nodup_iff.mpr d.nodup_names
  refine ext_get? fun name => Option.ext fun value => ?_
  rw [get?_ofList_iff hnodup, h.mem_iff, mem_toList_iff]

theorem ofList_toList (d : Dictionary α) : ofList d.toList = d :=
  ofList_eq_of_perm (List.Perm.refl _)

/-- Stored values are those of the pairs, also through a function of the values. -/
theorem get?_ofList_map (f : α → β) (pairs : List (String × α)) (name : String) :
    (ofList (pairs.map fun p => (p.1, f p.2))).get? name = ((ofList pairs).get? name).map f := by
  induction pairs with
  | nil => rfl
  | cons p rest ih =>
      rw [List.map_cons, get?_ofList_cons, ih, get?_ofList_cons]
      cases (ofList rest).get? name with
      | some found => rfl
      | none =>
          split
          · rfl
          · rfl

/-! ## Erasing many names -/

theorem get?_eraseMany (d : Dictionary α) (names : List String) (name : String) :
    (names.foldl erase d).get? name = if name ∈ names then none else d.get? name :=
  seen_foldl (fun d => d.get? name) (fun _ => none) (fun d n => get?_erase d n name)
    (fun _ => rfl) names d

end Dictionary

/-! ## Sets of names -/

namespace NameSet

theorem mem_names_iff (s : NameSet) (name : String) : name ∈ s.names ↔ s.get? name = some () := by
  rw [names, Dictionary.mem_keys_iff]
  exact ⟨fun ⟨(), h⟩ => h, fun h => ⟨(), h⟩⟩

theorem ofNames_append (names : List String) (name : String) :
    ofNames (names ++ [name]) = (ofNames names).add name :=
  List.foldl_append

theorem get?_addAll (s : NameSet) (names : List String) (name : String) :
    (names.foldl add s).get? name = if name ∈ names then some () else s.get? name :=
  seen_foldl (fun s => s.get? name) (fun _ => some ())
    (fun s n => Dictionary.get?_insert s n name ()) (fun _ => rfl) names s

/-- The set of some names has these and no others. -/
theorem mem_ofNames_iff (names : List String) (name : String) :
    name ∈ (ofNames names).names ↔ name ∈ names := by
  rw [mem_names_iff, ofNames, get?_addAll]
  split
  · next h => exact iff_of_true rfl h
  · next h => exact iff_of_false (by rintro ⟨⟩) h

/-- Only which names there are counts. -/
theorem ofNames_congr {names more : List String} (h : ∀ name, name ∈ names ↔ name ∈ more) :
    ofNames names = ofNames more := by
  refine Dictionary.ext_get? fun name => Option.ext fun u => ?_
  cases u
  rw [← mem_names_iff, ← mem_names_iff, mem_ofNames_iff, mem_ofNames_iff]
  exact h name

end NameSet

end MessageKeys
