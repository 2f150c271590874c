import MessageKeys.Proofs.Migration.Attempt

/-! # Undoing — what the backups of a suggestion give back

    While the files of a suggestion are written, every file written so far differs from what
    it was, and its backup holds what it was: the trail is `Undoable`.  Undoing takes the
    written files off the pending ones, one at a time, until none is left; then nothing but
    the backups shows that anything was tried (`Unharmed`).

    Finishing backups takes away no more than their copies, and all of these if they are not
    kept. -/

namespace MessageKeys.Migration

open Workspace

variable {w v u : Workspace}

/-- Nothing that was there changed, and all that is new is backups. -/
structure Unharmed (w v : Workspace) : Prop where
  later : Later w v
  kept : ∀ l e, w.tree.get? l = some e → v.tree.get? l = some e
  added : ∀ l e, w.tree.get? l = none → v.tree.get? l = some e →
    (∃ bytes, e = .file bytes false) ∧ ∃ dir stem, l = dir ++ [stem ++ ".bak"]

/-- A file that could be read reads as it did. -/
theorem Unharmed.readText (h : Unharmed w v) {p : Path} {text : String}
    (hread : w.readText p = .ok text) : v.readText p = .ok text := by
  obtain ⟨bytes, readOnly, hentry, htext⟩ := readText_eq_ok.mp hread
  obtain ⟨l, hl, hheld⟩ := entry_eq_ok.mp hentry
  exact readText_eq_ok.mpr ⟨bytes, readOnly,
    entry_eq_ok.mpr ⟨l, (locate_of_later h.later p l).mpr hl, h.kept l _ hheld⟩, htext⟩

/-- The backups that were made hold what their files were.  Only the files of the pending
    ones may differ from it. -/
structure Undoable (w v : Workspace) (made pending : List Backup) : Prop where
  keeps : Keeps w v
  pending_made : ∀ b ∈ pending, b ∈ made
  kept : ∀ l e, w.tree.get? l = some e → (∀ b ∈ pending, w.locate b.file ≠ .ok l) →
    v.tree.get? l = some e
  held : ∀ b ∈ made, ∃ l c bytes, w.locate b.file = .ok l ∧ w.locate b.copy = .ok c ∧
    w.tree.get? l = some (.file bytes false) ∧ w.tree.get? c = none ∧
    v.tree.get? c = some (.file bytes false)
  coming : ∀ b ∈ made, Backup.Coming w b.file b.copy
  added : ∀ c, w.tree.get? c = none → v.tree.get? c ≠ none →
    ∃ b ∈ made, w.locate b.copy = .ok c

theorem Undoable.refl (w : Workspace) : Undoable w w [] [] where
  keeps := Keeps.refl w
  pending_made := fun _ hb => hb
  kept := fun _ _ hl _ => hl
  held := fun _ hb => absurd hb List.not_mem_nil
  coming := fun _ hb => absurd hb List.not_mem_nil
  added := fun _ hc hv => absurd hc hv

/-- A guarded write of a file that was there and not yet written can be undone as well. -/
theorem Undoable.write {made : List Backup} (h : Undoable w v made made) {b : Backup}
    {text : String} {l c : Location} {bytes : ByteArray} (hw : GuardedWrite v u b text l c bytes)
    (hl : w.tree.get? l ≠ none) (hnew : ∀ b' ∈ made, w.locate b'.file ≠ .ok l) :
    Undoable w u (made ++ [b]) (made ++ [b]) := by
  have hfile : w.locate b.file = .ok l := (locate_of_later h.keeps.toLater _ _).mp hw.file
  have hcopy : w.locate b.copy = .ok c := (locate_of_later h.keeps.toLater _ _).mp hw.copy
  have hfresh : w.tree.get? c = none := h.keeps.absent hw.fresh
  have hheld : w.tree.get? l = some (.file bytes false) := by
    cases he : w.tree.get? l with
    | none => exact absurd he hl
    | some e =>
        have hv := h.kept l e he hnew
        rw [hw.held] at hv
        exact hv.symm
  have hne : ∀ m, w.tree.get? m = none → l ≠ m := by
    intro m hm hlm
    rw [hlm] at hl
    exact hl hm
  refine
    { keeps := h.keeps.trans hw.keeps
      pending_made := fun _ hb => hb
      kept := ?_
      held := ?_
      coming := ?_
      added := ?_ }
  · -- what is not pending is neither the file nor its copy, which is new
    intro m e hm hpending
    have hlm : l ≠ m := by
      intro hlm
      exact hpending b (List.mem_append_right _ List.mem_cons_self) (hlm ▸ hfile)
    exact hw.get?_other
      (h.kept m e hm fun b' hb' => hpending b' (List.mem_append_left _ hb')) hlm
  · -- earlier copies stay: the new one is not at their place, and the file is no copy
    intro b' hb'
    rcases List.mem_append.mp hb' with hb' | hb'
    · obtain ⟨l', c', bytes', hl', hc', hwl', hwc', hvc'⟩ := h.held b' hb'
      exact ⟨l', c', bytes', hl', hc', hwl', hwc', hw.get?_other hvc' (hne c' hwc')⟩
    · cases List.mem_singleton.mp hb'
      exact ⟨l, c, bytes, hfile, hcopy, hheld, hfresh, hw.get?_copy⟩
  · intro b' hb'
    rcases List.mem_append.mp hb' with hb' | hb'
    · exact h.coming b' hb'
    · cases List.mem_singleton.mp hb'
      exact hw.coming.of_later h.keeps.toLater
  · intro m hm hum
    rw [hw.get?, if_neg (hne m hm)] at hum
    by_cases hcm : c = m
    · subst hcm
      exact ⟨b, List.mem_append_right _ List.mem_cons_self, hcopy⟩
    · rw [if_neg hcm] at hum
      obtain ⟨b', hb', hloc⟩ := h.added m hm hum
      exact ⟨b', List.mem_append_left _ hb', hloc⟩

/-- Where the copy is there and the file is no directory, restoring puts the file back. -/
theorem putAt_restoreIfPossible {b : Backup} {l c : Location} {bytes : ByteArray}
    {readOnly : Bool} (hl : v.locate b.file = .ok l) (hc : v.locate b.copy = .ok c)
    (hfree : v.tree.get? l ≠ some .directory)
    (hheld : v.tree.get? c = some (.file bytes readOnly)) :
    PutAt v (b.restoreIfPossible v) l bytes readOnly := by
  obtain ⟨u, hu, hput⟩ := copy_eq_ok (entry_eq_ok.mpr ⟨c, hc, hheld⟩) hl hfree
  have hrestore : b.restoreIfPossible v = u := by
    unfold Backup.restoreIfPossible Backup.restore
    rw [hu]
  rw [hrestore]
  exact hput

/-- Restoring a pending file settles it. -/
theorem Undoable.restore {made pending : List Backup} {b : Backup}
    (h : Undoable w v made (b :: pending)) :
    Undoable w (b.restoreIfPossible v) made pending := by
  have hmade : b ∈ made := h.pending_made b List.mem_cons_self
  obtain ⟨l, c, bytes, hl, hc, hwl, hwc, hvc⟩ := h.held b hmade
  have hlater := h.keeps.toLater
  have hfree : v.tree.get? l ≠ some .directory := by
    intro hd
    rw [(hlater.directory l).mp hd] at hwl
    cases hwl
  have hput := putAt_restoreIfPossible ((locate_of_later hlater _ _).mpr hl)
    ((locate_of_later hlater _ _).mpr hc) hfree hvc
  refine
    { keeps := ⟨hlater.trans hput.later, ?_⟩
      pending_made := fun b' hb' => h.pending_made b' (List.mem_cons_of_mem _ hb')
      kept := ?_
      held := ?_
      coming := h.coming
      added := ?_ }
  · intro m hm
    rw [hput.get?]
    split
    · rintro ⟨⟩
    · exact h.keeps.present m hm
  · -- the restored file is as it was; what differs elsewhere is pending still
    intro m e hm hpending
    rw [hput.get?]
    split
    · next hlm =>
      rw [← hlm, hwl] at hm
      exact hm
    · next hlm =>
      refine h.kept m e hm fun b' hb' => ?_
      rcases List.mem_cons.mp hb' with rfl | hb'
      · rw [hl]
        exact fun he => hlm (Except.ok.inj he)
      · exact hpending b' hb'
  · intro b' hb'
    obtain ⟨l', c', bytes', hl', hc', hwl', hwc', hvc'⟩ := h.held b' hb'
    refine ⟨l', c', bytes', hl', hc', hwl', hwc', ?_⟩
    have hlc : l ≠ c' := by
      intro hlc
      rw [← hlc, hwl] at hwc'
      cases hwc'
    rw [hput.get?_other hlc]
    exact hvc'
  · intro m hm hum
    have hlm : l ≠ m := by
      intro hlm
      rw [← hlm, hwl] at hm
      cases hm
    rw [hput.get?_other hlm] at hum
    exact h.added m hm hum

/-- **UNDOING**: when all pending files are restored, only backups are left. -/
theorem Undoable.restoreAll {made : List Backup} :
    ∀ {pending : List Backup} {v : Workspace}, Undoable w v made pending →
      Undoable w (pending.foldl (fun v b => b.restoreIfPossible v) v) made [] := by
  intro pending
  induction pending with
  | nil => intro v h; exact h
  | cons b pending ih => intro v h; exact ih h.restore

theorem Undoable.unharmed {made : List Backup} (h : Undoable w v made []) : Unharmed w v where
  later := h.keeps.toLater
  kept := fun l e hl => h.kept l e hl fun _ hb => absurd hb List.not_mem_nil
  added := by
    intro l e hl hv
    obtain ⟨b, hb, hloc⟩ := h.added l hl (by rw [hv]; rintro ⟨⟩)
    obtain ⟨_, c, bytes, -, hc, -, -, hvc⟩ := h.held b hb
    rw [hloc] at hc
    cases hc
    rw [hv] at hvc
    cases hvc
    exact ⟨⟨bytes, rfl⟩, (h.coming b hb).location hloc⟩

/-! ## Finishing backups -/

/-- Kept backups are left as they are. -/
theorem finishBackups_keep (bs : List Backup) (v : Workspace) :
    (finishBackups true bs v).2 = v := by
  induction bs with
  | nil => rfl
  | cons b rest ih => exact ih

theorem finishBackups_later (keep : Bool) (bs : List Backup) (v : Workspace) :
    Later v (finishBackups keep bs v).2 := by
  induction bs generalizing v with
  | nil => exact Later.refl v
  | cons b rest ih =>
      show Later v (finishBackups keep rest (b.finish keep v).2).2
      cases keep with
      | true => exact ih v
      | false => exact (later_remove v b.copy).trans (ih _)

/-- Finishing backups touches no file but the copies. -/
theorem finishBackups_get?_other (keep : Bool) {bs : List Backup} {v : Workspace} {m : Location}
    (h : ∀ b ∈ bs, v.locate b.copy ≠ .ok m) :
    (finishBackups keep bs v).2.tree.get? m = v.tree.get? m := by
  induction bs generalizing v with
  | nil => rfl
  | cons b rest ih =>
      obtain ⟨hb, hrest⟩ := List.forall_mem_cons.mp h
      show (finishBackups keep rest (b.finish keep v).2).2.tree.get? m = v.tree.get? m
      cases keep with
      | true => exact ih hrest
      | false =>
          show (finishBackups false rest (v.remove b.copy)).2.tree.get? m = v.tree.get? m
          rw [ih, remove_get? hb]
          intro b' hb'
          rw [Ne, locate_of_later (later_remove v b.copy)]
          exact hrest b' hb'

/-- Finishing makes no file. -/
theorem finishBackups_get?_none (keep : Bool) {bs : List Backup} {v : Workspace} {m : Location}
    (h : v.tree.get? m = none) : (finishBackups keep bs v).2.tree.get? m = none := by
  induction bs generalizing v with
  | nil => exact h
  | cons b rest ih =>
      cases keep with
      | true => exact ih h
      | false => exact ih (remove_get?_none h)

/-- Backups that are not kept are gone. -/
theorem finishBackups_get?_dropped {bs : List Backup} {v : Workspace} {m : Location}
    {b : Backup} (hb : b ∈ bs) (hm : v.locate b.copy = .ok m)
    (hfree : v.tree.get? m ≠ some .directory) :
    (finishBackups false bs v).2.tree.get? m = none := by
  induction bs generalizing v with
  | nil => cases hb
  | cons b' rest ih =>
      have hlater := later_remove v b'.copy
      rcases List.mem_cons.mp hb with rfl | hb
      · show (finishBackups false rest (v.remove b.copy)).2.tree.get? m = none
        exact finishBackups_get?_none false (remove_get?_self hm hfree)
      · refine ih hb ((locate_of_later hlater _ _).mpr hm) ?_
        rw [Ne, hlater.directory]
        exact hfree

/-- Keeping and dropping new backups keeps what was there. -/
theorem finishBackups_keeps (keep : Bool) {bs : List Backup} (h : Keeps w v)
    (hfresh : ∀ b ∈ bs, ∃ c, w.locate b.copy = .ok c ∧ w.tree.get? c = none) :
    Keeps w (finishBackups keep bs v).2 where
  toLater := h.toLater.trans (finishBackups_later keep bs v)
  present := by
    intro l hl
    rw [finishBackups_get?_other]
    · exact h.present l hl
    · intro b hb hcopy
      obtain ⟨c, hc, hnone⟩ := hfresh b hb
      rw [locate_of_later h.toLater, hc] at hcopy
      cases hcopy
      exact hl hnone

end MessageKeys.Migration
