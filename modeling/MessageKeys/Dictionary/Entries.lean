/-! # Sorted entries — finite maps from names, as increasing lists

    A finite map is a list of entries whose names strictly increase.  The list is the
    normal form of the map: two increasing lists that answer every look-up alike are equal
    (`Increasing.ext`), so comparing maps is comparing lists.

    The operations are plain recursions on the list and need no invariant to be run.
    `get?_insert` and `get?_erase` say what they do to the look-up view, and
    `Increasing.insert` and `Increasing.erase` that they keep the order. -/

namespace MessageKeys.Entries

variable {α β : Type}

/-- The value stored under a name. -/
def get? (name : String) : List (String × α) → Option α
  | [] => none
  | (k, v) :: rest => if k = name then some v else get? name rest

/-- Stores a value in order, in place of the one stored under that name. -/
def insert (name : String) (value : α) : List (String × α) → List (String × α)
  | [] => [(name, value)]
  | (k, v) :: rest =>
    if name < k then (name, value) :: (k, v) :: rest
    else if name = k then (name, value) :: rest
    else (k, v) :: insert name value rest

/-- Drops the entry of a name. -/
def erase (name : String) : List (String × α) → List (String × α)
  | [] => []
  | (k, v) :: rest => if k = name then erase name rest else (k, v) :: erase name rest

/-- The names strictly increase. -/
def Increasing (es : List (String × α)) : Prop :=
  es.Pairwise fun a b => a.1 < b.1

/-! ## Order of names -/

theorem name_lt_of_not_lt {a b : String} (h : ¬ a < b) (hne : a ≠ b) : b < a := by
  rcases String.le_total b a with hle | hle
  · exact Classical.byContradiction fun hba => hne (String.le_antisymm (String.not_lt.mp hba) hle)
  · exact absurd (String.le_antisymm hle (String.not_lt.mp h)) hne

theorem name_ne_of_lt {a b : String} (h : a < b) : a ≠ b :=
  fun e => String.lt_irrefl b (e ▸ h)

/-! ## What the operations do to look-ups -/

/-- Only the name that is set has a new value. -/
theorem get?_insert (name other : String) (value : α) (es : List (String × α)) :
    get? other (insert name value es) = if name = other then some value else get? other es := by
  induction es with
  | nil => simp [insert, get?]
  | cons e rest ih =>
    obtain ⟨k, v⟩ := e
    rw [insert]
    split
    · rfl
    · split
      · next h => subst h; simp only [get?]; split <;> rfl
      · next hne =>
        rw [get?, ih, get?]
        by_cases hk : k = other
        · subst hk; simp [hne]
        · simp [hk]

/-- Only the name that is taken out is gone. -/
theorem get?_erase (name other : String) (es : List (String × α)) :
    get? other (erase name es) = if name = other then none else get? other es := by
  induction es with
  | nil => simp [erase, get?]
  | cons e rest ih =>
    obtain ⟨k, v⟩ := e
    rw [erase]
    split
    · next h =>
      subst h; rw [ih, get?]; split <;> rfl
    · next h =>
      rw [get?, ih, get?]
      by_cases hk : k = other
      · subst hk; simp [Ne.symm h]
      · simp [hk]

/-- A value that is found is one of the entries. -/
theorem mem_of_get? {name : String} {v : α} {es : List (String × α)}
    (h : get? name es = some v) : (name, v) ∈ es := by
  induction es with
  | nil => simp [get?] at h
  | cons e rest ih =>
    obtain ⟨k, w⟩ := e
    rw [get?] at h
    split at h
    · next hk => subst hk; cases h; exact List.mem_cons_self
    · exact List.mem_cons_of_mem _ (ih h)

/-! ## The order is kept -/

/-- Setting a name adds no entry but its own. -/
theorem mem_insert {name : String} {value : α} {es : List (String × α)} {e : String × α}
    (h : e ∈ insert name value es) : e = (name, value) ∨ e ∈ es := by
  induction es with
  | nil => simp [insert] at h; exact .inl h
  | cons f rest ih =>
    obtain ⟨k, v⟩ := f
    rw [insert] at h
    split at h
    · rcases List.mem_cons.mp h with h | h
      · exact .inl h
      · exact .inr h
    · split at h
      · rcases List.mem_cons.mp h with h | h
        · exact .inl h
        · exact .inr (List.mem_cons_of_mem _ h)
      · rcases List.mem_cons.mp h with h | h
        · exact .inr (h ▸ List.mem_cons_self)
        · exact (ih h).imp id (List.mem_cons_of_mem _)

/-- Taking out a name adds no entry at all. -/
theorem mem_erase {name : String} {es : List (String × α)} {e : String × α}
    (h : e ∈ erase name es) : e ∈ es := by
  induction es with
  | nil => simp [erase] at h
  | cons f rest ih =>
    obtain ⟨k, v⟩ := f
    rw [erase] at h
    split at h
    · exact List.mem_cons_of_mem _ (ih h)
    · rcases List.mem_cons.mp h with h | h
      · exact h ▸ List.mem_cons_self
      · exact List.mem_cons_of_mem _ (ih h)

/-- Entries stay in order when a name is set. -/
theorem Increasing.insert {es : List (String × α)} (h : Increasing es) (name : String)
    (value : α) : Increasing (insert name value es) := by
  induction es with
  | nil => simp [Entries.insert, Increasing]
  | cons f rest ih =>
    obtain ⟨k, v⟩ := f
    obtain ⟨hk, hrest⟩ := List.pairwise_cons.mp h
    rw [Entries.insert]
    split
    · next hlt =>
      refine List.pairwise_cons.mpr ⟨fun e he => ?_, h⟩
      rcases List.mem_cons.mp he with he | he
      · exact he ▸ hlt
      · exact String.lt_trans hlt (hk e he)
    · next hge =>
      split
      · next heq => subst heq; exact List.pairwise_cons.mpr ⟨hk, hrest⟩
      · next hne =>
        refine List.pairwise_cons.mpr ⟨fun e he => ?_, ih hrest⟩
        rcases mem_insert he with he | he
        · exact he ▸ name_lt_of_not_lt hge hne
        · exact hk e he

/-- They do when a name is taken out. -/
theorem Increasing.erase {es : List (String × α)} (h : Increasing es) (name : String) :
    Increasing (erase name es) := by
  induction es with
  | nil => simp [Entries.erase, Increasing]
  | cons f rest ih =>
    obtain ⟨k, v⟩ := f
    obtain ⟨hk, hrest⟩ := List.pairwise_cons.mp h
    rw [Entries.erase]
    split
    · exact ih hrest
    · exact List.pairwise_cons.mpr ⟨fun e he => hk e (mem_erase he), ih hrest⟩

/-! ## Look-ups determine the list -/

theorem get?_eq_none_of_lt {name : String} {es : List (String × α)}
    (h : ∀ e ∈ es, name < e.1) : get? name es = none := by
  induction es with
  | nil => rfl
  | cons f rest ih =>
    obtain ⟨k, v⟩ := f
    rw [get?, if_neg (name_ne_of_lt (h (k, v) List.mem_cons_self)).symm]
    exact ih fun e he => h e (List.mem_cons_of_mem _ he)

/-- Entries in order are determined by what is found in them. -/
theorem Increasing.ext {es fs : List (String × α)} (hes : Increasing es) (hfs : Increasing fs)
    (h : ∀ name, get? name es = get? name fs) : es = fs := by
  induction es generalizing fs with
  | nil =>
    cases fs with
    | nil => rfl
    | cons f _ => simpa [get?] using h f.1
  | cons e rest ih =>
    obtain ⟨k, v⟩ := e
    cases fs with
    | nil => simpa [get?] using h k
    | cons f fs =>
      obtain ⟨l, w⟩ := f
      obtain ⟨hk, hrest⟩ := List.pairwise_cons.mp hes
      obtain ⟨hl, htail⟩ := List.pairwise_cons.mp hfs
      have hkl : k = l := by
        refine Classical.byContradiction fun hne => ?_
        by_cases hlt : k < l
        · have := h k
          rw [get?, if_pos rfl, get?, if_neg (Ne.symm hne),
            get?_eq_none_of_lt fun e he => String.lt_trans hlt (hl e he)] at this
          cases this
        · have hgt := name_lt_of_not_lt hlt hne
          have := h l
          rw [get?, if_neg hne, get?_eq_none_of_lt fun e he => String.lt_trans hgt (hk e he),
            get?, if_pos rfl] at this
          cases this
      subst hkl
      have hvw : v = w := by simpa [get?] using h k
      subst hvw
      congr 1
      refine ih hrest htail fun name => ?_
      by_cases hn : k = name
      · subst hn
        rw [get?_eq_none_of_lt hk, get?_eq_none_of_lt hl]
      · simpa [get?, hn] using h name

end MessageKeys.Entries
