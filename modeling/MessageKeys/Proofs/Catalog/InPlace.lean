import MessageKeys.Proofs.Catalog.Leaves
import MessageKeys.Proofs.Dictionary

/-! # Catalogs in place — the states between the steps

    Inserting and removing give new catalogs.  In place they change one catalog step by step, and
    here they are told that way, with the catalog that each step leaves.

    Inserting is a check, which looks for a node in the way (`obstacle?`), and a walk, which makes the
    groups that are missing and writes the message (`writeAt`).  The walk alone would stop at a
    message, with the groups it has made until then; behind the check it never does
    (`insertInPlace_eq`).  Removing goes down first and changes the groups on the way back
    (`clearAt`), but none if there was no message (`removeInPlace_eq`). -/

namespace MessageKeys.Catalog

variable {c : Catalog} {text : String} {path front : List String}

/-! ## Inserting -/

/-- The path to a node in the way of a message at the end of the path; nothing is changed. -/
def obstacle? (c : Catalog) : List String → Option (List String)
  | [] => none
  | name :: rest =>
    match Entries.get? name c with
    | none => none
    | some (.message _) => if rest = [] then none else some [name]
    | some (.group entries) =>
      if rest = [] then some [name] else (obstacle? entries rest).map (name :: ·)

/-- Writes a message at the end of a path, in groups that are made where there are none: what stood
    there, and the catalog afterwards.  A message on the way ends the walk, and the groups made
    until then stay. -/
def writeAt (c : Catalog) (text : String) :
    List String → Except String (Option String) × Catalog
  | [] => (.ok none, c)
  | [name] => (.ok (literal? c name), Entries.insert name (.message text) c)
  | name :: second :: rest =>
    match Entries.get? name c with
    | some (.message _) => (.error name, c)
    | _ =>
      let written := writeAt (entriesAt c name) text (second :: rest)
      (written.1, Entries.insert name (.group written.2) c)

/-- Inserts a message along the segments of a key, with the catalog as it is left. -/
def insertInPlace (c : Catalog) (key text : String) :
    Except String (Option String) × Catalog :=
  match obstacle? c (Key.segments key) with
  | some blocking => (.error (Key.join blocking), c)
  | none => writeAt c text (Key.segments key)

theorem obstacle?_cons (c : Catalog) (name second : String) (rest : List String) :
    obstacle? c (name :: second :: rest)
      = match Entries.get? name c with
        | some (.message _) => some [name]
        | _ => (obstacle? (entriesAt c name) (second :: rest)).map (name :: ·) := by
  rw [obstacle?, entriesAt]
  cases Entries.get? name c with
  | none => rfl
  | some node => cases node <;> rfl

/-- What the check finds is what inserting reports. -/
theorem insertAt_of_obstacle (h : obstacle? c path = some front) :
    insertAt c text path = .error front := by
  induction path generalizing c front with
  | nil => cases h
  | cons name rest ih =>
      cases rest with
      | nil =>
          rw [obstacle?] at h
          rw [insertAt]
          cases hget : Entries.get? name c with
          | none => rw [hget] at h; cases h
          | some node =>
              rw [hget] at h
              cases node with
              | message t => cases h
              | group entries => cases h; rfl
      | cons second rest =>
          rw [obstacle?_cons, entriesAt] at h
          rw [insertAt]
          cases hget : Entries.get? name c with
          | none => rw [hget] at h; cases h
          | some node =>
              rw [hget] at h
              cases node with
              | message t => cases h; rfl
              | group entries =>
                  obtain ⟨tail, htail, rfl⟩ := Option.map_eq_some_iff.mp h
                  show insertAt.within name c (insertAt entries text (second :: rest)) = _
                  rw [ih htail]
                  rfl

/-- Behind the check the walk goes to the end of the path. -/
theorem writeAt_of_no_obstacle (text : String) (h : obstacle? c path = none) :
    ∃ previous next, insertAt c text path = .ok (previous, next) ∧
      writeAt c text path = (.ok previous, next) := by
  induction path generalizing c with
  | nil => exact ⟨none, c, rfl, rfl⟩
  | cons name rest ih =>
      cases rest with
      | nil =>
          have hgroup : ∀ entries, Entries.get? name c ≠ some (.group entries) := by
            intro entries hget
            rw [obstacle?, hget] at h
            cases h
          exact ⟨_, _, insertAt_last_eq_ok.mpr ⟨hgroup, rfl, rfl⟩, rfl⟩
      | cons second rest =>
          have hmessage : ∀ t, Entries.get? name c ≠ some (.message t) := by
            intro t hget
            rw [obstacle?_cons, hget] at h
            cases h
          have hbelow : obstacle? (entriesAt c name) (second :: rest) = none := by
            rw [obstacle?_cons] at h
            split at h
            · cases h
            · exact Option.map_eq_none_iff.mp h
          obtain ⟨previous, entries, hinsert, hwrite⟩ := ih hbelow
          refine ⟨previous, Entries.insert name (.group entries) c,
            insertAt_cons_eq_ok.mpr ⟨hmessage, entries, hinsert, rfl⟩, ?_⟩
          rw [writeAt]
          split
          · next t hget => exact absurd hget (hmessage t)
          · rw [hwrite]

/-- **TWO STEPS**: the walk never stops half-way, so a catalog into which nothing could be inserted
    is left as it was. -/
theorem insertInPlace_eq (c : Catalog) (key text : String) :
    c.insertInPlace key text
      = match c.insert key text with
        | .ok (previous, next) => (.ok previous, next)
        | .error blocking => (.error blocking, c) := by
  rw [insertInPlace, insert]
  cases hcheck : obstacle? c (Key.segments key) with
  | some blocking => rw [insertAt_of_obstacle hcheck]; rfl
  | none =>
      obtain ⟨previous, next, hinsert, hwrite⟩ := writeAt_of_no_obstacle text hcheck
      rw [hinsert]
      exact hwrite

/-! ## Removing -/

/-- Takes the message at the end of a path out of the catalog itself, and then the groups that this
    leaves empty: the message that stood there, and the catalog afterwards. -/
def clearAt (c : Catalog) : List String → Option String × Catalog
  | [] => (none, c)
  | [name] =>
    match Entries.get? name c with
    | some (.message text) => (some text, Entries.erase name c)
    | _ => (none, c)
  | name :: second :: rest =>
    match Entries.get? name c with
    | some (.group entries) =>
      let cleared := clearAt entries (second :: rest)
      if cleared.1.isSome && cleared.2.isEmpty then (cleared.1, Entries.erase name c)
      else (cleared.1, Entries.insert name (.group cleared.2) c)
    | _ => (none, c)

/-- Removes the message along the segments of a key, with the catalog as it is left. -/
def removeInPlace (c : Catalog) (key : String) : Option String × Catalog :=
  clearAt c (Key.segments key)

/-- Groups go back as they were if nothing was removed from them. -/
theorem clearAt_eq (hc : Ordered c) :
    clearAt c path
      = match removeAt? c path with
        | some (text, left) => (some text, left)
        | none => (none, c) := by
  fun_induction removeAt? c path with
  | case1 => rfl
  | case2 c name =>
      rw [clearAt, literal?]
      cases Entries.get? name c with
      | none => rfl
      | some node => cases node <;> rfl
  | case3 c name second rest entries hget ih =>
      rw [clearAt, hget]
      dsimp only
      rw [ih (hc.node hget)]
      cases removeAt? entries (second :: rest) with
      | none =>
          have hback : Entries.insert name (.group entries) c = c :=
            hc.1.insert_back hc.1 (fun _ _ => rfl) hget
          show (none, Entries.insert name (.group entries) c) = (none, c)
          rw [hback]
      | some removed =>
          obtain ⟨text, inner⟩ := removed
          cases inner <;> rfl
  | case4 c name second rest hno =>
      rw [clearAt]
      split
      · next entries hget => exact absurd hget (hno entries)
      · rfl

/-- **NOTHING REMOVED**: a catalog is left as it was if the key finds nothing along its segments. -/
theorem removeInPlace_eq (hc : Ordered c) (key : String) :
    c.removeInPlace key
      = match c.remove? key with
        | some (text, left) => (some text, left)
        | none => (none, c) :=
  clearAt_eq hc

end MessageKeys.Catalog
