import MessageKeys.KeyStore

/-! # Renaming in the store and back

    Stores are built by inserting and renaming, so each record is the one that its key and
    message determine (`Consistent`).  Hence renaming a key and renaming it back gives the
    store itself, not only the same messages (`rename_back`). -/

namespace MessageKeys.KeyStore

variable {s t : KeyStore} {oldKey newKey : String} {moved : StoredKey}

/-- Every record is that of the key it is stored under. -/
def Consistent (s : KeyStore) : Prop :=
  ∀ key record, s.get? key = some record → record = StoredKey.ofKey key record.value

/-- A store is determined by its look-ups. -/
theorem ext_get? (h : ∀ key, s.get? key = t.get? key) : s = t := by
  cases s
  cases t
  exact congrArg KeyStore.mk (Dictionary.ext_get? h)

theorem get?_insert (s : KeyStore) (key other : String) (value : Option String) :
    (s.insert key value).get? other
      = if key = other then some (StoredKey.ofKey key value) else s.get? other :=
  Dictionary.get?_insert s.records key other _

/-- A rename that happened took the record of a known key to a free one. -/
theorem rename_ok (h : s.rename oldKey newKey = .ok (moved, t)) :
    ∃ record, s.get? oldKey = some record ∧ s.get? newKey = none ∧
      moved = StoredKey.ofKey newKey record.value ∧
      ∀ key, t.get? key
        = if newKey = key then some moved else if oldKey = key then none else s.get? key := by
  rw [rename] at h
  cases hold : s.get? oldKey with
  | none => rw [hold] at h; cases h
  | some record =>
      rw [hold] at h
      dsimp only at h
      split at h
      · cases h
      · next hfree =>
        cases h
        refine ⟨record, rfl, by simpa using hfree, rfl, ?_⟩
        intro key
        show Dictionary.get? _ key = _
        rw [Dictionary.get?_insert, Dictionary.get?_erase]
        rfl

/-- What is known stays; what is missing comes from the first entry of its key. -/
theorem get?_addEntries (s : KeyStore) (es : List (String × String)) (key : String) :
    (es.foldl (fun s e => if (s.get? e.1).isSome then s else s.insert e.1 (some e.2)) s).get? key
      = (s.get? key).or ((Entries.get? key es).map fun text => StoredKey.ofKey key (some text)) := by
  induction es generalizing s with
  | nil => exact (Option.or_none).symm
  | cons e rest ih =>
      obtain ⟨name, text⟩ := e
      rw [List.foldl_cons, ih, Entries.get?]
      by_cases hname : name = key
      · subst hname
        rw [if_pos rfl]
        cases hknown : s.get? name with
        | some record =>
            rw [if_pos Option.isSome_some]
            exact congrArg (Option.or · _) hknown
        | none =>
            rw [if_neg (by rintro ⟨⟩), get?_insert, if_pos rfl]
            rfl
      · rw [if_neg hname]
        refine congrArg (Option.or · _) ?_
        split
        · rfl
        · rw [get?_insert, if_neg hname]

/-- Messages are added for the keys that are not known. -/
theorem get?_addMissing (s : KeyStore) (messages : Messages) (key : String) :
    (s.addMissing messages).get? key
      = (s.get? key).or ((messages.get? key).map fun text => StoredKey.ofKey key (some text)) :=
  get?_addEntries s messages.toList key

/-! ## Consistent stores -/

theorem consistent_empty : Consistent empty := by
  intro key record h
  cases h

/-- Inserting keeps every record under its own key. -/
theorem Consistent.insert (h : Consistent s) (key : String) (value : Option String) :
    Consistent (s.insert key value) := by
  intro other record hr
  rw [get?_insert] at hr
  split at hr
  · next hk =>
    subst hk
    cases hr
    rfl
  · exact h other record hr

/-- So does renaming: the moved record takes the new key. -/
theorem Consistent.rename (h : Consistent s) (hr : s.rename oldKey newKey = .ok (moved, t)) :
    Consistent t := by
  obtain ⟨record, -, -, hmoved, hget⟩ := rename_ok hr
  intro key found hfound
  rw [hget] at hfound
  split at hfound
  · next hk =>
    subst hk
    cases hfound
    rw [hmoved]
    rfl
  · split at hfound
    · cases hfound
    · exact h key found hfound

/-! ## Renaming back -/

/-- **RENAMING BACK**: a renamed key can be renamed back, and nothing tells the store from
    the one before. -/
theorem rename_back (hs : Consistent s) (hne : oldKey ≠ newKey)
    (h : s.rename oldKey newKey = .ok (moved, t)) :
    ∃ back, t.rename newKey oldKey = .ok (back, s) := by
  obtain ⟨record, hold, hnew, hmoved, hget⟩ := rename_ok h
  have hfrom : t.get? newKey = some moved := by rw [hget, if_pos rfl]
  have hto : t.get? oldKey = none := by rw [hget, if_neg hne.symm, if_pos rfl]
  refine ⟨StoredKey.ofKey oldKey moved.value, ?_⟩
  rw [rename]
  rw [hfrom, hto]
  refine congrArg (fun u => Except.ok (StoredKey.ofKey oldKey moved.value, u)) (ext_get? ?_)
  intro key
  show Dictionary.get? _ key = _
  rw [Dictionary.get?_insert, Dictionary.get?_erase]
  -- the record that comes back is made anew, from the message of the one that was there
  have hrecord : record = StoredKey.ofKey oldKey record.value := hs oldKey record hold
  by_cases hk : oldKey = key
  · subst hk
    rw [if_pos rfl, hold, hmoved, hrecord]
    rfl
  · rw [if_neg hk]
    by_cases hk' : newKey = key
    · subst hk'
      rw [if_pos rfl, hnew]
    · rw [if_neg hk']
      show t.get? key = s.get? key
      rw [hget, if_neg hk', if_neg hk]

end MessageKeys.KeyStore
