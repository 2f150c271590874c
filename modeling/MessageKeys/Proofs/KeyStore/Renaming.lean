import MessageKeys.Migration.Run
import MessageKeys.Proofs.Dictionary
import MessageKeys.Proofs.KeyStore

/-! # Stores that changes lead to — what a renaming does to them

    A store starts without keys and is changed by inserting and renaming.  Every change
    keeps it consistent (`Consistent.apply`), so every store on the way is
    (`consistent_afterAll`).  A renaming is refused for one of two reasons, or moves one
    message and can be taken back, by renaming as well as by undoing a migration
    (`renaming_exact`). -/

namespace MessageKeys.KeyStore

variable {s t : KeyStore} {oldKey newKey : String} {moved record : StoredKey}

/-! ## Changes -/

/-- One change of a store. -/
inductive Change where
  | insert (key : String) (value : Option String)
  | rename (oldKey newKey : String)

/-- The store after a change; a renaming that is refused leaves it as it is. -/
def Change.apply (s : KeyStore) : Change → KeyStore
  | insert key value => s.insert key value
  | rename oldKey newKey =>
    match s.rename oldKey newKey with
    | .ok (_, t) => t
    | .error _ => s

/-- The store after changes in order, from the one without keys. -/
def afterAll (changes : List Change) : KeyStore := changes.foldl Change.apply empty

/-- One change keeps every record that of its key. -/
theorem Consistent.apply (h : Consistent s) (change : Change) : Consistent (change.apply s) := by
  cases change with
  | insert key value => exact h.insert key value
  | rename oldKey newKey =>
      show Consistent (match s.rename oldKey newKey with | .ok (_, t) => t | .error _ => s)
      split
      · next hr => exact h.rename hr
      · exact h

/-- So does a run of changes. -/
theorem consistent_afterAll (changes : List Change) : Consistent (afterAll changes) := by
  suffices hrun : ∀ s, Consistent s → Consistent (changes.foldl Change.apply s) from
    hrun empty consistent_empty
  induction changes with
  | nil => exact fun _ h => h
  | cons change rest ih => exact fun _ h => ih _ (h.apply change)

/-! ## Renaming -/

theorem rename_of_absent (h : s.get? oldKey = none) :
    s.rename oldKey newKey = .error (.unknownKey oldKey) := by
  rw [rename]
  rw [h]

theorem rename_of_taken (hold : s.get? oldKey = some record) (hnew : s.get? newKey ≠ none) :
    s.rename oldKey newKey = .error (.keyExists newKey) := by
  rw [rename]
  rw [hold]
  dsimp only
  rw [if_pos (Option.isSome_iff_ne_none.mpr hnew)]

/-- A key that is known is renamed to one that is free. -/
theorem rename_of_free (hold : s.get? oldKey = some record) (hnew : s.get? newKey = none) :
    ∃ t, s.rename oldKey newKey = .ok (StoredKey.ofKey newKey record.value, t) := by
  rw [rename]
  rw [hold, hnew]
  exact ⟨_, rfl⟩

/-- A renaming is refused for one of two reasons. -/
theorem rename_eq_error {fault : StoreFault} (h : s.rename oldKey newKey = .error fault) :
    (s.get? oldKey = none ∧ fault = .unknownKey oldKey) ∨
      s.get? oldKey ≠ none ∧ s.get? newKey ≠ none ∧ fault = .keyExists newKey := by
  cases hold : s.get? oldKey with
  | none =>
      rw [rename_of_absent hold] at h
      exact .inl ⟨rfl, (Except.error.inj h).symm⟩
  | some record =>
      refine .inr ⟨by rintro ⟨⟩, ?_⟩
      cases hnew : s.get? newKey with
      | none =>
          obtain ⟨t, ht⟩ := rename_of_free hold hnew
          rw [ht] at h
          cases h
      | some taken =>
          rw [rename_of_taken hold (by rw [hnew]; rintro ⟨⟩)] at h
          exact ⟨by rintro ⟨⟩, (Except.error.inj h).symm⟩

/-- An old key is unknown only if the store has no record of it. -/
theorem rename_eq_unknownKey_iff :
    s.rename oldKey newKey = .error (.unknownKey oldKey) ↔ s.get? oldKey = none := by
  refine ⟨fun h => ?_, rename_of_absent⟩
  rcases rename_eq_error h with ⟨habsent, -⟩ | ⟨-, -, hfault⟩
  · exact habsent
  · cases hfault

/-- A new key is refused if it has a record already, and the old one has one too. -/
theorem rename_eq_keyExists_iff : s.rename oldKey newKey = .error (.keyExists newKey) ↔
    s.get? oldKey ≠ none ∧ s.get? newKey ≠ none := by
  constructor
  · intro h
    rcases rename_eq_error h with ⟨-, hfault⟩ | ⟨hold, hnew, -⟩
    · cases hfault
    · exact ⟨hold, hnew⟩
  · rintro ⟨hold, hnew⟩
    obtain ⟨record, hold⟩ := Option.ne_none_iff_exists'.mp hold
    exact rename_of_taken hold hnew

/-- One entry goes and one comes. -/
theorem size_rename (h : s.rename oldKey newKey = .ok (moved, t)) : t.size = s.size := by
  obtain ⟨record, hold, hnew, hmoved, -⟩ := rename_ok h
  have ht : t = ⟨(s.records.erase oldKey).insert newKey moved⟩ := by
    obtain ⟨t', ht'⟩ := rename_of_free hold hnew
    rw [rename] at h
    rw [hold, hnew] at h
    cases h
    rfl
  have hfree : Entries.get? newKey (Entries.erase oldKey s.records.entries) = none := by
    rw [Entries.get?_erase]
    split
    · rfl
    · exact hnew
  rw [ht]
  show (Entries.insert newKey moved (Entries.erase oldKey s.records.entries)).length
    = s.records.entries.length
  rw [Entries.length_insert moved hfree, s.records.increasing.length_erase hold]

/-- The message of one key moved to another one, and nothing else changed. -/
structure Moved (s t : KeyStore) (oldKey newKey : String) : Prop where
  source : t.get? oldKey = none
  target : t.get? newKey = some (StoredKey.ofKey newKey (s.value? oldKey))
  others : ∀ key, key ≠ oldKey → key ≠ newKey → t.get? key = s.get? key
  size : t.size = s.size

/-- **RENAMING** moves one record. -/
theorem moved_of_rename (h : s.rename oldKey newKey = .ok (moved, t)) :
    Moved s t oldKey newKey := by
  obtain ⟨record, hold, hnew, hmoved, hget⟩ := rename_ok h
  have hne : newKey ≠ oldKey := by
    rintro rfl
    rw [hnew] at hold
    cases hold
  have hvalue : s.value? oldKey = record.value := by
    rw [value?, hold]
    rfl
  refine ⟨?_, ?_, ?_, size_rename h⟩
  · rw [hget, if_neg hne, if_pos rfl]
  · rw [hget, if_pos rfl, hmoved, hvalue]
  · intro key hsource htarget
    rw [hget, if_neg (Ne.symm htarget), if_neg (Ne.symm hsource)]

/-- Undoing a migration takes the renaming of its key back. -/
theorem undo_rename (hs : Consistent s) (h : s.rename oldKey newKey = .ok (moved, t))
    {x : Suggestion} (hkey : x.key = oldKey) (hnew : x.newKey = newKey) {p : Migration.Trail}
    (hstore : p.store = t) (hrenamed : p.renamed = true) : (Migration.undo x p).store = s := by
  have hne : oldKey ≠ newKey := by
    rintro rfl
    obtain ⟨record, hold, hfree, -⟩ := rename_ok h
    rw [hfree] at hold
    cases hold
  obtain ⟨back, hback⟩ := rename_back hs hne h
  rw [Migration.undo]
  dsimp only
  rw [if_pos hrenamed, hstore, hnew, hkey, hback]

/-- **RENAMING**: in a store that any run of changes led to, every record is named like its
    key.  Renaming is refused for a key that is not known, and for a known key if the other
    one is known too, and then the store stays as it is; else the message moves, and renaming
    back gives the very store from before, which is what undoing a migration rests on. -/
theorem renaming_exact (changes : List Change) :
    (∀ key record, (afterAll changes).get? key = some record →
      record.key = key ∧ record.inNamespace = Key.namespace? key ∧
        record.nested = Key.isNamespaced key) ∧
    ∀ oldKey newKey,
      ((afterAll changes).rename oldKey newKey = .error (.unknownKey oldKey) ↔
        (afterAll changes).get? oldKey = none) ∧
      ((afterAll changes).rename oldKey newKey = .error (.keyExists newKey) ↔
        (afterAll changes).get? oldKey ≠ none ∧ (afterAll changes).get? newKey ≠ none) ∧
      ((afterAll changes).get? oldKey = none ∨ (afterAll changes).get? newKey ≠ none →
        (Change.rename oldKey newKey).apply (afterAll changes) = afterAll changes) ∧
      ((afterAll changes).get? oldKey ≠ none → (afterAll changes).get? newKey = none →
        ∃ moved t, (afterAll changes).rename oldKey newKey = .ok (moved, t) ∧
          (Change.rename oldKey newKey).apply (afterAll changes) = t ∧
          Moved (afterAll changes) t oldKey newKey ∧
          (∃ back, t.rename newKey oldKey = .ok (back, afterAll changes)) ∧
          ∀ (x : Suggestion) (p : Migration.Trail), x.key = oldKey → x.newKey = newKey →
            p.store = t → p.renamed = true → (Migration.undo x p).store = afterAll changes) := by
  have hs := consistent_afterAll changes
  refine ⟨fun key record hget => ?_, fun oldKey newKey =>
    ⟨rename_eq_unknownKey_iff, rename_eq_keyExists_iff, fun hrefused => ?_, fun hold hnew => ?_⟩⟩
  · rw [hs key record hget]
    exact ⟨rfl, rfl, rfl⟩
  · rw [Change.apply]
    cases hr : (afterAll changes).rename oldKey newKey with
    | error fault => rfl
    | ok renamed =>
        obtain ⟨record, hold, hnew, -⟩ := rename_ok hr
        rcases hrefused with habsent | htaken
        · rw [habsent] at hold
          cases hold
        · exact absurd hnew htaken
  · obtain ⟨record, hold⟩ := Option.ne_none_iff_exists'.mp hold
    obtain ⟨t, hr⟩ := rename_of_free hold hnew
    have hne : oldKey ≠ newKey := by
      rintro rfl
      rw [hnew] at hold
      cases hold
    refine ⟨_, t, hr, by rw [Change.apply, hr], moved_of_rename hr, rename_back hs hne hr, ?_⟩
    exact fun x p hkey hnewKey hstore hrenamed => undo_rename hs hr hkey hnewKey hstore hrenamed

/-- A run of changes in which one renaming is refused and one moves a key without a message. -/
private def sampleRun : List Change :=
  [.insert "hello" (some "Hello"), .insert "home.title" (some "Home"), .insert "bye" none,
    .rename "hello" "home.title", .rename "bye" "home.bye"]

/-- A migration of its last key. -/
private def sampleMove : Suggestion := ⟨"home.bye", "shop.bye", "shop", [], 1.0, ""⟩

/-- Where that migration stands when it fails behind the store. -/
private def sampleTrail (store : KeyStore) : Migration.Trail :=
  ⟨⟨FileTree.empty, [], fun _ => "", 0⟩, store, true, [], [], []⟩

theorem renaming_exact_sample :
    ((afterAll sampleRun).get? "bye" = none ∧
      (Change.rename "bye" "home.x").apply (afterAll sampleRun) = afterAll sampleRun) ∧
    ((afterAll sampleRun).get? "home.bye" ≠ none ∧ (afterAll sampleRun).get? "shop.bye" = none ∧
      ∃ moved t, (afterAll sampleRun).rename "home.bye" "shop.bye" = .ok (moved, t) ∧
        Moved (afterAll sampleRun) t "home.bye" "shop.bye" ∧
        (∃ back, t.rename "shop.bye" "home.bye" = .ok (back, afterAll sampleRun)) ∧
        (Migration.undo sampleMove (sampleTrail t)).store = afterAll sampleRun) := by
  obtain ⟨-, hrename⟩ := renaming_exact sampleRun
  have habsent : (afterAll sampleRun).get? "bye" = none := by decide
  have hknown : (afterAll sampleRun).get? "home.bye" ≠ none := by decide
  have hfree : (afterAll sampleRun).get? "shop.bye" = none := by decide
  obtain ⟨-, -, hrefused, -⟩ := hrename "bye" "home.x"
  obtain ⟨-, -, -, hmoves⟩ := hrename "home.bye" "shop.bye"
  obtain ⟨moved, t, hr, -, hmoved, hback, hundo⟩ := hmoves hknown hfree
  exact ⟨⟨habsent, hrefused (.inl habsent)⟩, hknown, hfree, moved, t, hr, hmoved, hback,
    hundo sampleMove (sampleTrail t) rfl rfl rfl rfl⟩

end MessageKeys.KeyStore
