import MessageKeys.Proofs.Migration.Turns

/-! # Tracking — which files a run may touch, and what it leaves beside them

    Whatever becomes of its suggestions, a run changes no file but its sources and its
    catalogs, takes none away, and all that is new are the backups it reports (`Tracked`).
    Nothing is asked of the sources: they may be missing, or lead to one place.

    A guarded write is tracked by its file and its copy.  Tracks are put one after the other
    by `Tracked.trans`: along the turns of a suggestion, over undoing them or finishing their
    backups, and from suggestion to suggestion. -/

namespace MessageKeys.Migration

open Workspace

variable {w v u : Workspace} {files more : List Path} {copies others : List Path}

/-- Between the two workspaces no file was changed but these, and the copies are all that is
    new. -/
structure Tracked (w v : Workspace) (files copies : List Path) : Prop where
  keeps : Keeps w v
  kept : ∀ l e, w.tree.get? l = some e → (∀ p ∈ files, w.locate p ≠ .ok l) →
    v.tree.get? l = some e
  placed : ∀ q ∈ copies, ∃ c, w.locate q = .ok c ∧ w.tree.get? c = none ∧
    v.tree.get? c ≠ none
  added : ∀ c, w.tree.get? c = none → v.tree.get? c ≠ none →
    ∃ q ∈ copies, w.locate q = .ok c
  apart : copies.Pairwise fun p q => ∀ c, w.locate p = .ok c → w.locate q ≠ .ok c
  beside : ∀ q ∈ copies, ∃ p ∈ files, Backup.Beside w p q

theorem Tracked.refl (w : Workspace) : Tracked w w [] [] where
  keeps := Keeps.refl w
  kept := fun _ _ hl _ => hl
  placed := fun _ hq => absurd hq List.not_mem_nil
  added := fun _ hc hv => absurd hc hv
  apart := List.Pairwise.nil
  beside := fun _ hq => absurd hq List.not_mem_nil

/-- More files may be named than were changed. -/
theorem Tracked.mono (h : Tracked w v files copies) (hsub : files ⊆ more) :
    Tracked w v more copies where
  keeps := h.keeps
  kept := fun l e hl hother => h.kept l e hl fun p hp => hother p (hsub hp)
  placed := h.placed
  added := h.added
  apart := h.apart
  beside := by
    intro q hq
    obtain ⟨p, hp, hbeside⟩ := h.beside q hq
    exact ⟨p, hsub hp, hbeside⟩

/-- **ONE TRACK AFTER THE OTHER**: later copies are at places that are new once more. -/
theorem Tracked.trans (h : Tracked w v files copies) (h' : Tracked v u more others) :
    Tracked w u (files ++ more) (copies ++ others) := by
  have hloc := locate_of_later h.keeps.toLater
  refine
    { keeps := h.keeps.trans h'.keeps
      kept := ?_
      placed := ?_
      added := ?_
      apart := ?_
      beside := ?_ }
  · intro l e hl hother
    refine h'.kept l e (h.kept l e hl fun p hp => hother p (List.mem_append_left _ hp)) ?_
    intro p hp
    rw [Ne, hloc]
    exact hother p (List.mem_append_right _ hp)
  · intro q hq
    rcases List.mem_append.mp hq with hq | hq
    · obtain ⟨c, hc, hfree, htaken⟩ := h.placed q hq
      exact ⟨c, hc, hfree, h'.keeps.present c htaken⟩
    · obtain ⟨c, hc, hfree, htaken⟩ := h'.placed q hq
      exact ⟨c, (hloc q c).mp hc, h.keeps.absent hfree, htaken⟩
  · intro c hfree htaken
    cases hv : v.tree.get? c with
    | none =>
        obtain ⟨q, hq, hc⟩ := h'.added c hv htaken
        exact ⟨q, List.mem_append_right _ hq, (hloc q c).mp hc⟩
    | some e =>
        obtain ⟨q, hq, hc⟩ := h.added c hfree (by rw [hv]; rintro ⟨⟩)
        exact ⟨q, List.mem_append_left _ hq, hc⟩
  · refine List.pairwise_append.mpr ⟨h.apart, ?_, ?_⟩
    · refine h'.apart.imp ?_
      intro p q hpq c hp
      rw [Ne, ← hloc]
      exact hpq c ((hloc p c).mpr hp)
    · -- an earlier copy is still there when a later one is made
      intro p hp q hq c hc hc'
      obtain ⟨d, hd, -, htaken⟩ := h.placed p hp
      obtain ⟨d', hd', hfree, -⟩ := h'.placed q hq
      rw [hc] at hd
      cases hd
      rw [(hloc q c).mpr hc'] at hd'
      cases hd'
      exact htaken hfree
  · intro q hq
    rcases List.mem_append.mp hq with hq | hq
    · obtain ⟨p, hp, hbeside⟩ := h.beside q hq
      exact ⟨p, List.mem_append_left _ hp, hbeside⟩
    · obtain ⟨p, hp, hbeside⟩ := h'.beside q hq
      exact ⟨p, List.mem_append_right _ hp, hbeside.of_later h.keeps.toLater⟩

/-- A copy that stood still stands, if none of the files is there. -/
theorem Tracked.holds (h : Tracked w v files copies) {q : Path} {e : Entry}
    (hq : w.entry q = .ok e) (hother : ∀ p ∈ files, ∀ c, w.locate q = .ok c → w.locate p ≠ .ok c) :
    v.entry q = .ok e := by
  obtain ⟨c, hc, he⟩ := entry_eq_ok.mp hq
  exact entry_eq_ok.mpr ⟨c, (locate_of_later h.keeps.toLater q c).mpr hc,
    h.kept c e he fun p hp => hother p hp c hc⟩

/-! ## The turns of a suggestion -/

theorem tracked_of_guardedWrite {b : Backup} {text : String} {l c : Location}
    {bytes : ByteArray} (h : GuardedWrite w v b text l c bytes) :
    Tracked w v [b.file] [b.copy] where
  keeps := h.keeps
  kept := by
    intro m e hm hother
    exact h.get?_other hm fun hlm => hother b.file List.mem_cons_self (hlm ▸ h.file)
  placed := by
    intro q hq
    cases List.mem_singleton.mp hq
    refine ⟨c, h.copy, h.fresh, ?_⟩
    rw [h.get?_copy]
    rintro ⟨⟩
  added := by
    intro m hm hv
    have hlm : l ≠ m := by
      rintro rfl
      rw [h.held] at hm
      cases hm
    by_cases hcm : c = m
    · exact ⟨b.copy, List.mem_cons_self, hcm ▸ h.copy⟩
    · rw [h.get?, if_neg hlm, if_neg hcm] at hv
      exact absurd hm hv
  apart := List.pairwise_singleton _ _
  beside := by
    intro q hq
    cases List.mem_singleton.mp hq
    refine ⟨b.file, List.mem_cons_self, h.coming, l, h.file, ?_⟩
    rw [h.held]
    rintro ⟨⟩

variable {turns : List Turn}

/-- A course is tracked by the backups made. -/
theorem Course.tracked (h : Course w turns v) :
    Tracked w v ((made turns).map Backup.file) ((made turns).map Backup.copy) := by
  induction h with
  | start => exact Tracked.refl w
  | passed file _ ih =>
      rw [made_append, show made [⟨file, _, none⟩] = [] from rfl, List.append_nil]
      exact ih
  | changed _ hw ih =>
      rw [made_append, List.map_append, List.map_append]
      exact ih.trans (tracked_of_guardedWrite hw)

/-- The turns before one are a course to what was found on it. -/
theorem Course.before (h : Course w turns v) {t : Turn} (ht : t ∈ turns) :
    ∃ earlier later, turns = earlier ++ t :: later ∧ Course w earlier t.found := by
  induction h with
  | start => cases ht
  | @passed turns v file hcourse ih =>
      rcases List.mem_append.mp ht with ht | ht
      · obtain ⟨earlier, later, rfl, hbefore⟩ := ih ht
        exact ⟨earlier, later ++ [⟨file, v, none⟩], List.append_assoc .., hbefore⟩
      · cases List.mem_singleton.mp ht
        exact ⟨turns, [], rfl, hcourse⟩
  | @changed turns v u file copy text l c bytes hcourse hw ih =>
      rcases List.mem_append.mp ht with ht | ht
      · obtain ⟨earlier, later, rfl, hbefore⟩ := ih ht
        exact ⟨earlier, later ++ [⟨file, v, some (copy, text)⟩], List.append_assoc .., hbefore⟩
      · cases List.mem_singleton.mp ht
        exact ⟨turns, [], rfl, hcourse⟩

/-- The turn was taken under a backup: the file held the bytes, and was copied to the path
    before it was written. -/
def Turn.Guards (t : Turn) (copy : Path) (bytes : ByteArray) : Prop :=
  (∃ text, t.change = some (copy, text)) ∧ t.found.entry t.file = .ok (.file bytes false)

/-- What was copied on a turn is in the copy, unless a file of the course is that copy. -/
theorem Course.holds (h : Course w turns v) {t : Turn} (ht : t ∈ turns) {copy : Path}
    {text : String} (hchange : t.change = some (copy, text)) :
    ∃ bytes, t.Guards copy bytes ∧
      (v.entry copy = .ok (.file bytes false) ∨
        ∃ p ∈ turns.map Turn.file, ∃ c, w.locate copy = .ok c ∧ w.locate p = .ok c) := by
  induction h with
  | start => cases ht
  | passed file _ ih =>
      rcases List.mem_append.mp ht with ht | ht
      · obtain ⟨bytes, hguards, hheld⟩ := ih ht
        refine ⟨bytes, hguards, hheld.imp_right ?_⟩
        rintro ⟨p, hp, hplace⟩
        rw [List.map_append]
        exact ⟨p, List.mem_append_left _ hp, hplace⟩
      · cases List.mem_singleton.mp ht
        cases hchange
  | @changed _ v u file _ _ l c bytes hcourse hw ih =>
      have hloc := locate_of_later hcourse.keeps.1.toLater
      rw [List.map_append]
      rcases List.mem_append.mp ht with ht | ht
      · obtain ⟨old, hguards, hheld | ⟨p, hp, hplace⟩⟩ := ih ht
        · refine ⟨old, hguards, ?_⟩
          obtain ⟨d, hd, hbytes⟩ := entry_eq_ok.mp hheld
          -- the file whose turn it is may be the copy itself
          by_cases hld : l = d
          · subst hld
            exact .inr ⟨file, List.mem_append_right _ List.mem_cons_self, l,
              (hloc copy l).mp hd, (hloc file l).mp hw.file⟩
          · refine .inl ((tracked_of_guardedWrite hw).holds hheld ?_)
            intro p hp d' hd' hp'
            cases List.mem_singleton.mp hp
            rw [hd] at hd'
            cases hd'
            rw [hw.file] at hp'
            cases hp'
            exact hld rfl
        · exact ⟨old, hguards, .inr ⟨p, List.mem_append_left _ hp, hplace⟩⟩
      · cases List.mem_singleton.mp ht
        cases hchange
        refine ⟨bytes, ⟨⟨text, rfl⟩, entry_eq_ok.mpr ⟨l, hw.file, hw.held⟩⟩, .inl ?_⟩
        exact entry_eq_ok.mpr ⟨c, (locate_of_later hw.later _ _).mpr hw.copy, hw.get?_copy⟩

/-- The files that were written are there. -/
theorem Course.present (h : Course w turns v) {b : Backup} (hb : b ∈ made turns) :
    ∃ l, v.locate b.file = .ok l ∧ v.tree.get? l ≠ none := by
  induction h with
  | start => cases hb
  | passed file _ ih =>
      rw [made_append, show made [⟨file, _, none⟩] = [] from rfl, List.append_nil] at hb
      exact ih hb
  | @changed _ v u file copy text l c bytes _ hw ih =>
      rw [made_append] at hb
      rcases List.mem_append.mp hb with hb | hb
      · obtain ⟨m, hm, htaken⟩ := ih hb
        exact ⟨m, (locate_of_later hw.later _ _).mpr hm, hw.keeps.present m htaken⟩
      · cases List.mem_singleton.mp hb
        refine ⟨l, (locate_of_later hw.later _ _).mpr hw.file, ?_⟩
        rw [hw.get?_file]
        rintro ⟨⟩

/-! ## Undoing and finishing -/

/-- Putting a file back touches that file only. -/
theorem Backup.tracked_restoreIfPossible (b : Backup) {l : Location}
    (hl : v.locate b.file = .ok l) (htaken : v.tree.get? l ≠ none) :
    Tracked v (b.restoreIfPossible v) [b.file] [] := by
  cases hrestore : b.restore v with
  | error fault =>
      rw [MessageKeys.Backup.restoreIfPossible, hrestore]
      exact (Tracked.refl v).mono (List.nil_subset _)
  | ok u =>
      rw [MessageKeys.Backup.restoreIfPossible, hrestore]
      obtain ⟨bytes, readOnly, m, -, hm, hput⟩ := copy_ok hrestore
      rw [hl] at hm
      cases hm
      refine
        { keeps := ⟨hput.later, ?_⟩
          kept := ?_
          placed := fun _ hq => absurd hq List.not_mem_nil
          added := ?_
          apart := List.Pairwise.nil
          beside := fun _ hq => absurd hq List.not_mem_nil }
      · intro m hm
        rw [hput.get?]
        split
        · rintro ⟨⟩
        · exact hm
      · intro m e hm hother
        have hlm : l ≠ m := fun hlm => hother b.file List.mem_cons_self (hlm ▸ hl)
        rw [hput.get?_other hlm, hm]
      · intro m hm hu
        have hlm : l ≠ m := fun hlm => htaken (hlm ▸ hm)
        rw [hput.get?_other hlm] at hu
        exact absurd hm hu

theorem tracked_restoreAll (bs : List Backup)
    (h : ∀ b ∈ bs, ∃ l, v.locate b.file = .ok l ∧ v.tree.get? l ≠ none) :
    Tracked v (bs.foldl (fun v b => b.restoreIfPossible v) v) (bs.map Backup.file) [] := by
  induction bs generalizing v with
  | nil => exact Tracked.refl v
  | cons b rest ih =>
      obtain ⟨⟨l, hl, htaken⟩, hrest⟩ := List.forall_mem_cons.mp h
      have hone := Backup.tracked_restoreIfPossible b hl htaken
      refine hone.trans (ih fun b' hb' => ?_)
      obtain ⟨m, hm, hm'⟩ := hrest b' hb'
      exact ⟨m, (locate_of_later hone.keeps.toLater _ _).mpr hm, hone.keeps.present m hm'⟩

/-- Backups that are dropped leave only what was there before them. -/
theorem Tracked.drop {bs : List Backup} (h : Tracked w v files (bs.map Backup.copy)) :
    Tracked w (finishBackups false bs v).2 files [] := by
  have hloc := locate_of_later h.keeps.toLater
  have hplaced : ∀ b ∈ bs, ∃ c, w.locate b.copy = .ok c ∧ w.tree.get? c = none ∧
      v.tree.get? c ≠ none := fun b hb => h.placed b.copy (List.mem_map_of_mem hb)
  refine
    { keeps := finishBackups_keeps false h.keeps fun b hb => ?_
      kept := ?_
      placed := fun _ hq => absurd hq List.not_mem_nil
      added := ?_
      apart := List.Pairwise.nil
      beside := fun _ hq => absurd hq List.not_mem_nil }
  · obtain ⟨c, hc, hfree, -⟩ := hplaced b hb
    exact ⟨c, hc, hfree⟩
  · intro l e hl hother
    rw [finishBackups_get?_other false fun b hb hcopy => ?_]
    · exact h.kept l e hl hother
    · obtain ⟨c, hc, hfree, -⟩ := hplaced b hb
      rw [hloc, hc] at hcopy
      cases hcopy
      rw [hfree] at hl
      cases hl
  · intro c hfree hnew
    have hv : v.tree.get? c ≠ none := fun hv => hnew (finishBackups_get?_none false hv)
    obtain ⟨q, hq, hc⟩ := h.added c hfree hv
    obtain ⟨b, hb, rfl⟩ := List.mem_map.mp hq
    refine absurd (finishBackups_get?_dropped hb ((hloc _ _).mpr hc) ?_) hnew
    rw [Ne, h.keeps.directory, hfree]
    rintro ⟨⟩

theorem finishBackups_paths (keep : Bool) (bs : List Backup) (v : Workspace) :
    (finishBackups keep bs v).1 = if keep then bs.map Backup.copy else [] := by
  induction bs generalizing v with
  | nil => cases keep <;> rfl
  | cons b rest ih =>
      cases keep with
      | true => exact congrArg (b.copy :: ·) (ih v)
      | false => exact ih (v.remove b.copy)

/-! ## Suggestions and runs -/

/-- A file with an absolute path stays where it is, joined or not. -/
theorem resolve_eq_join {s : Settings} {root : Path} (h : s.sourceRoot = some root)
    (file : String) : s.resolve file = root.join ⟨file⟩ := by
  rw [Settings.resolve, h]
  dsimp only
  split
  · next habs => rw [Path.join, if_pos habs]
  · rfl

/-- The files that a suggestion may write. -/
def Settings.within (s : Settings) (x : Suggestion) : List Path := s.sourceFiles x ++ s.catalogs

/-- The files that a run may write. -/
def Settings.reach (s : Settings) (xs : List Suggestion) : List Path :=
  xs.flatMap s.sourceFiles ++ s.catalogs

theorem within_subset_reach (s : Settings) {x : Suggestion} {xs : List Suggestion} (h : x ∈ xs) :
    s.within x ⊆ s.reach xs := by
  intro p hp
  rcases List.mem_append.mp hp with hp | hp
  · exact List.mem_append_left _ (List.mem_flatMap.mpr ⟨x, h, hp⟩)
  · exact List.mem_append_right _ hp

theorem reach_subset_reach (s : Settings) {xs ys : List Suggestion} (h : xs ⊆ ys) :
    s.reach xs ⊆ s.reach ys := by
  intro p hp
  rcases List.mem_append.mp hp with hp | hp
  · obtain ⟨x, hx, hp⟩ := List.mem_flatMap.mp hp
    exact within_subset_reach s (h hx) (List.mem_append_left _ hp)
  · exact List.mem_append_right _ hp

/-- **EVERY ATTEMPT TAKES TURNS**, whether it succeeds or not, and they are at its own
    files. -/
theorem attempt_course (s : Settings) (x : Suggestion) (w : Workspace) (store : KeyStore) :
    ∃ turns, Course w turns (attempt s x (Trail.start w store)).1.workspace ∧
      (attempt s x (Trail.start w store)).1.backups = made turns ∧
      turns.map Turn.file ⊆ s.within x := by
  rcases attempt_cases s x w store with ⟨reason, hrefused⟩ | ⟨moved, store', -, -, hways⟩
  · rw [hrefused]
    exact ⟨[], Course.start, rfl, List.nil_subset _⟩
  · -- the turns of the sources, and those of the catalogs if it came to them
    have hsources : ∀ q fault?, afterSources s x w store' = (q, fault?) → ∃ turns,
        Course w turns q.workspace ∧ q.sources = made turns ∧ q.catalogs = [] ∧
          turns.map Turn.file ⊆ s.sourceFiles x := by
      intro q fault? hq
      obtain ⟨turns, hcourse, hfiles, hmade, -⟩ :=
        renameInSources_course (s.renaming x) (s.sourceFiles x) hq Course.start
      obtain ⟨-, -, hcatalogs⟩ := afterSources_frame s x w store'
      rw [hq] at hcatalogs
      exact ⟨turns, hcourse, hmade, hcatalogs, hfiles.subset⟩
    have hcatalogs : ∀ q, afterSources s x w store' = (q, none) → ∃ turns,
        Course w turns (moveInFiles x.key x.newKey s.catalogs q).workspace ∧
          (moveInFiles x.key x.newKey s.catalogs q).backups = made turns ∧
          turns.map Turn.file ⊆ s.within x := by
      intro q hq
      obtain ⟨sources, hcourse, hmade, hnone, hfiles⟩ := hsources q none hq
      obtain ⟨catalogs, hcourse', hfiles', hmade', -⟩ :=
        moveInFiles_course x.key x.newKey s.catalogs hcourse
      refine ⟨sources ++ catalogs, hcourse', ?_, ?_⟩
      · rw [Trail.backups, (moveInFiles_frame x.key x.newKey s.catalogs q).2.2, hmade, hmade',
          hnone, made_append]
        rfl
      · rw [List.map_append, hfiles']
        exact List.append_subset.mpr ⟨fun p hp => List.mem_append_left _ (hfiles hp),
          List.subset_append_right _ _⟩
    rcases hways with ⟨q, fault, hq, hattempt⟩ | ⟨q, hq, ⟨-, reason, hattempt⟩ | ⟨-, hattempt⟩⟩
    · rw [hattempt]
      obtain ⟨turns, hcourse, hmade, hnone, hfiles⟩ := hsources q _ hq
      refine ⟨turns, hcourse, ?_, fun p hp => List.mem_append_left _ (hfiles hp)⟩
      rw [Trail.backups, hmade, hnone, List.append_nil]
    · rw [hattempt]
      exact hcatalogs q hq
    · rw [hattempt]
      exact hcatalogs q hq

/-- The files written when a suggestion is tried, whatever becomes of it. -/
def State.writtenFor (s : Settings) (st : State) (x : Suggestion) : List Path :=
  (attempt s x (Trail.start st.workspace st.store)).1.backups.map Backup.file

/-- The copies made when a suggestion is tried. -/
def State.copiesOf (s : Settings) (st : State) (x : Suggestion) : List Path :=
  (attempt s x (Trail.start st.workspace st.store)).1.backups.map Backup.copy

/-- The suggestion fails. -/
def State.fails (s : Settings) (st : State) (x : Suggestion) : Bool :=
  (attempt s x (Trail.start st.workspace st.store)).2.isSome

/-- The copies that are left of a suggestion. -/
def State.leftOf (s : Settings) (st : State) (x : Suggestion) : List Path :=
  if s.keepBackups || st.fails s x then st.copiesOf s x else []

/-- **A SUGGESTION THAT FAILS** is undone, and its copies are reported. -/
theorem step_failed {s : Settings} {st : State} {x : Suggestion} (h : st.fails s x = true) :
    ∃ p reason, attempt s x (Trail.start st.workspace st.store) = (p, some reason) ∧
      step s st x = ⟨(undo x p).workspace, (undo x p).store,
        { st.outcome with
          failed := st.outcome.failed ++ [⟨x, reason, (undo x p).issues⟩]
          backups := st.outcome.backups ++ p.backups.map Backup.copy }⟩ := by
  unfold State.fails at h
  unfold step
  cases hattempt : attempt s x (Trail.start st.workspace st.store) with
  | mk p reason? =>
      rw [hattempt] at h
      cases reason? with
      | none => cases h
      | some reason => exact ⟨p, reason, rfl, rfl⟩

/-- **A SUGGESTION THAT IS APPLIED** has its backups finished and its files reported. -/
theorem step_applied {s : Settings} {st : State} {x : Suggestion} (h : st.fails s x = false) :
    ∃ p, attempt s x (Trail.start st.workspace st.store) = (p, none) ∧
      step s st x = ⟨(finishBackups s.keepBackups p.backups p.workspace).2, p.store,
        { applied := st.outcome.applied ++ [x]
          failed := st.outcome.failed
          modified := p.backups.foldl (fun ps b => Path.insertOrdered b.file ps) st.outcome.modified
          updated := st.outcome.updated + 1
          warnings := st.outcome.warnings ++ p.issues
          backups := st.outcome.backups
            ++ (finishBackups s.keepBackups p.backups p.workspace).1 }⟩ := by
  unfold State.fails at h
  unfold step
  cases hattempt : attempt s x (Trail.start st.workspace st.store) with
  | mk p reason? =>
      rw [hattempt] at h
      cases reason? with
      | none => exact ⟨p, rfl, rfl⟩
      | some reason => cases h

theorem fails_iff (s : Settings) (st : State) (x : Suggestion) :
    st.fails s x = true ↔ (step s st x).outcome.failed ≠ st.outcome.failed := by
  cases hfails : st.fails s x with
  | true =>
      obtain ⟨p, reason, -, hstep⟩ := step_failed hfails
      rw [hstep]
      simp
  | false =>
      obtain ⟨p, -, hstep⟩ := step_applied hfails
      rw [hstep]
      simp

theorem writtenFor_subset_within (s : Settings) (st : State) (x : Suggestion) :
    st.writtenFor s x ⊆ s.within x := by
  obtain ⟨turns, -, hmade, hfiles⟩ := attempt_course s x st.workspace st.store
  intro p hp
  rw [State.writtenFor, hmade] at hp
  obtain ⟨b, hb, rfl⟩ := List.mem_map.mp hp
  exact hfiles (file_mem_of_made hb)

/-- Where the copies of a suggestion are left, what follows its turns writes the same files at
    most. -/
theorem left_tracked {s : Settings} {st : State} {x : Suggestion}
    (h : (s.keepBackups || st.fails s x) = true) :
    Tracked (attempt s x (Trail.start st.workspace st.store)).1.workspace
      (step s st x).workspace (st.writtenFor s x) [] := by
  cases hfails : st.fails s x with
  | true =>
      obtain ⟨turns, hcourse, hmade, -⟩ := attempt_course s x st.workspace st.store
      obtain ⟨p, reason, hattempt, hstep⟩ := step_failed hfails
      rw [hattempt] at hcourse hmade
      rw [State.writtenFor, hattempt, hstep]
      -- undoing writes the files of the turns again
      exact tracked_restoreAll p.backups fun b hb => hcourse.present (hmade ▸ hb)
  | false =>
      obtain ⟨p, hattempt, hstep⟩ := step_applied hfails
      rw [hfails, Bool.or_false] at h
      rw [hattempt, hstep, h]
      dsimp only
      rw [finishBackups_keep]
      exact (Tracked.refl _).mono (List.nil_subset _)

/-- The step reports the copies that are left. -/
theorem step_backups (s : Settings) (st : State) (x : Suggestion) :
    (step s st x).outcome.backups = st.outcome.backups ++ st.leftOf s x := by
  rw [State.leftOf, State.copiesOf]
  cases hfails : st.fails s x with
  | true =>
      obtain ⟨p, reason, hattempt, hstep⟩ := step_failed hfails
      rw [hattempt, hstep, Bool.or_true, if_pos rfl]
  | false =>
      obtain ⟨p, hattempt, hstep⟩ := step_applied hfails
      rw [hattempt, hstep, Bool.or_false, ← finishBackups_paths s.keepBackups p.backups p.workspace]

/-- The turns of a suggestion change the files written for it and leave nothing but copies
    beside them. -/
theorem attempt_tracked (s : Settings) (st : State) (x : Suggestion) :
    Tracked st.workspace (attempt s x (Trail.start st.workspace st.store)).1.workspace
      (st.writtenFor s x) (st.copiesOf s x) := by
  obtain ⟨turns, hcourse, hmade, -⟩ := attempt_course s x st.workspace st.store
  rw [State.writtenFor, State.copiesOf, hmade]
  exact hcourse.tracked

/-- **ONE STEP IS TRACKED** by the files written for its suggestion and the copies left of
    it. -/
theorem step_tracked (s : Settings) (st : State) (x : Suggestion) :
    Tracked st.workspace (step s st x).workspace (st.writtenFor s x) (st.leftOf s x) := by
  have hattempt := attempt_tracked s st x
  rw [State.leftOf]
  split
  · next hleft =>
    have hafter := hattempt.trans (left_tracked hleft)
    rw [List.append_nil] at hafter
    exact hafter.mono (List.append_subset.mpr ⟨List.Subset.refl _, List.Subset.refl _⟩)
  · next hdropped =>
    -- the suggestion was applied, and its backups are not kept
    rw [Bool.not_eq_true, Bool.or_eq_false_iff] at hdropped
    obtain ⟨hkeep, hfails⟩ := hdropped
    obtain ⟨p, hp, hstep⟩ := step_applied hfails
    rw [State.copiesOf, hp] at hattempt
    rw [hstep, hkeep]
    exact hattempt.drop

/-- A run is tracked from any state on. -/
theorem foldl_tracked (s : Settings) (xs : List Suggestion) (st : State) :
    ∃ left, (xs.foldl (step s) st).outcome.backups = st.outcome.backups ++ left ∧
      Tracked st.workspace (xs.foldl (step s) st).workspace (s.reach xs) left := by
  induction xs generalizing st with
  | nil => exact ⟨[], (List.append_nil _).symm, (Tracked.refl _).mono (List.nil_subset _)⟩
  | cons x rest ih =>
      obtain ⟨left, hleft, hrest⟩ := ih (step s st x)
      refine ⟨st.leftOf s x ++ left, ?_, ?_⟩
      · rw [List.foldl_cons, hleft, step_backups, List.append_assoc]
      · refine ((step_tracked s st x).trans hrest).mono (List.append_subset.mpr ⟨?_, ?_⟩)
        · exact fun p hp => within_subset_reach s List.mem_cons_self
            (writtenFor_subset_within s st x hp)
        · exact reach_subset_reach s (List.subset_cons_self x rest)

/-- **RUNS ARE TRACKED** by the files of their suggestions and the backups they report. -/
theorem run_tracked (s : Settings) (w : Workspace) (store : KeyStore) (xs : List Suggestion) :
    Tracked w (run s w store xs).workspace (s.reach xs) (run s w store xs).outcome.backups := by
  obtain ⟨left, hleft, htracked⟩ := foldl_tracked s xs ⟨w, store, Outcome.empty⟩
  rw [run]
  rw [hleft]
  exact htracked

end MessageKeys.Migration
