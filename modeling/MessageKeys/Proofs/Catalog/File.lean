import MessageKeys.Catalog.File
import MessageKeys.Proofs.Backup
import MessageKeys.Proofs.Catalog.Move

/-! # Catalog files — when a message is moved in a file

    A catalog that was written is read back as it was rendered, so saving one succeeds as soon
    as its file may be written and can be copied (`exists_save_iff`).  Hence moving a message
    in a file has three ways to go: the message is moved (`Movable`), the file does not have
    it (`Lacks`), or there is a fault, and then nothing was written.

    All but the copy depends on the file alone: another workspace with the same file there
    differs at most in whether the copy can be made. -/

namespace MessageKeys.Catalog

open Workspace

variable {w v u : Workspace} {p : Path} {source target : String} {next : Catalog}

/-! ## Saving -/

/-- A catalog that was saved was written through a backup. -/
theorem save_write {c : Catalog} {b : Backup} (h : save w p c = .ok (b, v)) :
    writeWithBackup w p c.render = .ok (b, v) := by
  rw [save] at h
  cases hwrite : writeWithBackup w p c.render with
  | error fault => rw [hwrite] at h; cases h
  | ok written =>
      rw [hwrite] at h
      dsimp only at h
      split at h
      · split at h
        · cases h
          rfl
        · cases h
      · cases h

theorem save_ok {c : Catalog} {b : Backup} (h : save w p c = .ok (b, v)) :
    b.file = p ∧ ∃ l d bytes, GuardedWrite w v b c.render l d bytes :=
  writeWithBackup_ok (save_write h)

/-- **WHEN A CATALOG IS SAVED**: its file may be written and can be copied. -/
theorem exists_save_iff {c : Catalog} :
    (∃ saved, save w p c = .ok saved) ↔
      w.isReadOnly p = false ∧ ∃ made, Backup.create w p = .ok made := by
  rw [← exists_writeWithBackup_iff c.render]
  constructor
  · rintro ⟨saved, hsaved⟩
    rw [save] at hsaved
    cases hwrite : writeWithBackup w p c.render with
    | error fault => rw [hwrite] at hsaved; cases hsaved
    | ok written => exact ⟨written, rfl⟩
  · rintro ⟨⟨b, v⟩, hwrite⟩
    obtain ⟨rfl, l, d, bytes, hguarded⟩ := writeWithBackup_ok hwrite
    refine ⟨(b, v), ?_⟩
    rw [save, hwrite]
    dsimp only
    rw [hguarded.readText]
    exact if_pos rfl

/-! ## Moving -/

/-- The catalog has the message and the move of it is verified, its file may be written, and it
    can be copied in the workspace `u`. -/
structure Movable (w u : Workspace) (p : Path) (source target : String) (next : Catalog) :
    Prop where
  moves : ∃ c text, load w p = .ok c ∧ c.move source target = .ok (some (text, next))
  writable : w.isReadOnly p = false
  copied : ∃ made, Backup.create u p = .ok made

/-- There is a catalog, but it does not have the message. -/
def Lacks (w : Workspace) (p : Path) (source : String) : Prop :=
  ∃ c, load w p = .ok c ∧ c.lookup? source = none

/-- A catalog moves to one other catalog at most. -/
theorem Movable.unique {next' : Catalog} (h : Movable w u p source target next)
    (h' : Movable w v p source target next') : next = next' := by
  obtain ⟨c, text, hload, hmove⟩ := h.moves
  obtain ⟨c', text', hload', hmove'⟩ := h'.moves
  rw [hload] at hload'
  cases hload'
  rw [hmove] at hmove'
  cases hmove'
  rfl

theorem Movable.not_lacks (h : Movable w u p source target next) : ¬ Lacks w p source := by
  obtain ⟨c, text, hload, hmove⟩ := h.moves
  rintro ⟨c', hload', hlacks⟩
  rw [hload] at hload'
  cases hload'
  rw [move_eq_none.mpr hlacks] at hmove
  cases hmove

/-- What a catalog moves to is ordered, as is every catalog that was read. -/
theorem Movable.ordered (h : Movable w u p source target next) : next.Ordered := by
  obtain ⟨c, text, hload, hmove⟩ := h.moves
  rw [load] at hload
  split at hload
  · cases hload
  · exact (ordered_parse hload).move hmove

/-- Saving is the last step of a move. -/
theorem moveInFile_of_move {c : Catalog} {text : String} (hload : load w p = .ok c)
    (hmove : c.move source target = .ok (some (text, next))) :
    moveInFile w p source target = (save w p next).map some := by
  rw [moveInFile, hload]
  dsimp only
  rw [hmove]

theorem moveInFile_eq_none : moveInFile w p source target = .ok none ↔ Lacks w p source := by
  cases hload : load w p with
  | error fault => simp [moveInFile, Lacks, hload]
  | ok c =>
      have hlacks : Lacks w p source ↔ c.move source target = .ok none := by
        simp [Lacks, hload, move_eq_none]
      rw [hlacks]
      cases hmove : c.move source target with
      | error fault => simp [moveInFile, hload, hmove]
      | ok moved =>
          cases moved with
          | none => simp [moveInFile, hload, hmove]
          | some found =>
              -- once there is something to save, it is saved or there is a fault
              obtain ⟨text, next⟩ := found
              rw [moveInFile_of_move hload hmove]
              refine iff_of_false ?_ (by rintro ⟨⟩)
              cases save w p next with
              | error fault => rintro ⟨⟩
              | ok saved => rintro ⟨⟩

/-- A catalog in which the message was moved was movable, and the moved one was written. -/
theorem moveInFile_eq_some {b : Backup} (h : moveInFile w p source target = .ok (some (b, v))) :
    ∃ next, Movable w w p source target next ∧ b.file = p ∧
      ∃ l d bytes, GuardedWrite w v b next.render l d bytes := by
  cases hload : load w p with
  | error fault => rw [moveInFile, hload] at h; cases h
  | ok c =>
      cases hmove : c.move source target with
      | error fault =>
          rw [moveInFile, hload] at h
          dsimp only at h
          rw [hmove] at h
          cases h
      | ok moved =>
          cases moved with
          | none =>
              rw [moveInFile_eq_none.mpr ⟨c, hload, move_eq_none.mp hmove⟩] at h
              cases h
          | some found =>
              obtain ⟨text, next⟩ := found
              rw [moveInFile_of_move hload hmove] at h
              cases hsave : save w p next with
              | error fault => rw [hsave] at h; cases h
              | ok saved =>
                  rw [hsave] at h
                  cases h
                  obtain ⟨hwritable, hcopied⟩ := exists_save_iff.mp ⟨_, hsave⟩
                  obtain ⟨hfile, hwritten⟩ := save_ok hsave
                  exact ⟨next, ⟨⟨c, text, hload, hmove⟩, hwritable, hcopied⟩, hfile, hwritten⟩

/-- And whatever is movable is moved. -/
theorem Movable.moveInFile (h : Movable w w p source target next) :
    ∃ written, moveInFile w p source target = .ok (some written) := by
  obtain ⟨c, text, hload, hmove⟩ := h.moves
  obtain ⟨saved, hsaved⟩ := exists_save_iff.mpr ⟨h.writable, h.copied⟩
  refine ⟨saved, ?_⟩
  rw [moveInFile_of_move hload hmove, hsaved]
  rfl

/-- There is a fault in all other cases. -/
theorem exists_fault_iff :
    (∃ fault, moveInFile w p source target = .error fault) ↔
      (∀ next, ¬ Movable w w p source target next) ∧ ¬ Lacks w p source := by
  constructor
  · rintro ⟨fault, hfault⟩
    constructor
    · intro next hmovable
      obtain ⟨written, hwritten⟩ := hmovable.moveInFile
      rw [hfault] at hwritten
      cases hwritten
    · intro hlacks
      rw [moveInFile_eq_none.mpr hlacks] at hfault
      cases hfault
  · rintro ⟨hmovable, hlacks⟩
    cases hmove : moveInFile w p source target with
    | error fault => exact ⟨fault, rfl⟩
    | ok written =>
        cases written with
        | none => exact absurd (moveInFile_eq_none.mp hmove) hlacks
        | some written =>
            obtain ⟨next, hnext, -⟩ := moveInFile_eq_some hmove
            exact absurd hnext (hmovable next)

/-! ## The same file in another workspace -/

theorem load_of_same (hlater : Later w v) (h : SameAt w v p) {c : Catalog} :
    load v p = .ok c ↔ load w p = .ok c := by
  have hloads : ∀ w : Workspace, load w p = .ok c ↔
      ∃ text, w.readText p = .ok text ∧ parse p text = .ok c := by
    intro w
    rw [load]
    cases w.readText p <;> simp
  rw [hloads, hloads]
  simp only [h.readText hlater]

theorem Movable.of_same (hlater : Later w v) (h : SameAt w v p) :
    Movable v u p source target next ↔ Movable w u p source target next := by
  constructor
  · rintro ⟨⟨c, text, hload, hmove⟩, hwritable, hcopied⟩
    exact ⟨⟨c, text, (load_of_same hlater h).mp hload, hmove⟩,
      by rw [← h.isReadOnly hlater, hwritable], hcopied⟩
  · rintro ⟨⟨c, text, hload, hmove⟩, hwritable, hcopied⟩
    exact ⟨⟨c, text, (load_of_same hlater h).mpr hload, hmove⟩,
      by rw [h.isReadOnly hlater, hwritable], hcopied⟩

theorem Lacks.of_same (hlater : Later w v) (h : SameAt w v p) :
    Lacks v p source ↔ Lacks w p source := by
  simp only [Lacks, load_of_same hlater h]

end MessageKeys.Catalog
