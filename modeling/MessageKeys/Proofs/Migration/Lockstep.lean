import MessageKeys.Proofs.Catalog.WrittenForm
import MessageKeys.Proofs.Dictionary
import MessageKeys.Proofs.Migration.Atomicity

/-! # Lockstep — what an applied suggestion changes

    A suggestion that is reported as applied moved its key in the store, in every source and in
    every catalog that could be changed, and did nothing else (`InLockstep`).  The files right
    before it decide all of it but one thing: whether a catalog can be copied may depend on
    the backups that were made before its turn (`Settings.atTurn`).

    The proof reads the turns of the suggestion as one course over its sources and its
    catalogs, and sees what finishing the backups takes away.  The files must be distinct: a
    catalog that goes by two paths, or by the name of a backup to come, is out of lockstep
    (`catalogs_out_of_lockstep`). -/

namespace MessageKeys

/-! ## Files in order -/

namespace Path

theorem exists_same_insertOrdered (p q : Path) (ps : List Path) :
    (∃ m ∈ insertOrdered p ps, m.same q) ↔ p.same q ∨ ∃ m ∈ ps, m.same q := by
  induction ps with
  | nil => simp [insertOrdered]
  | cons m rest ih =>
      rw [insertOrdered]
      split
      · next hsame =>
        -- the path that is there stands for the new one
        have hmq : m.same q ↔ p.same q := by
          simp only [same, decide_eq_true_eq] at hsame ⊢
          rw [hsame]
        simp [hmq]
      · split
        · simp
        · simp [ih, or_left_comm]

theorem exists_same_foldl (bs : List Backup) (q : Path) (ps : List Path) :
    (∃ m ∈ bs.foldl (fun ps b => insertOrdered b.file ps) ps, m.same q) ↔
      (∃ m ∈ ps, m.same q) ∨ ∃ b ∈ bs, b.file.same q := by
  induction bs generalizing ps with
  | nil => simp
  | cons b rest ih =>
      rw [List.foldl_cons, ih, exists_same_insertOrdered]
      simp [or_assoc, or_left_comm]

end Path

namespace Migration

open Workspace

variable {w v : Workspace}

/-! ## The files at the end -/

/-- The files after backups are finished: what was there first is as the turns left it, and
    what is new is a backup that is kept. -/
structure Finished (w v u : Workspace) (keep : Bool) : Prop where
  later : Later w u
  kept : ∀ l, w.tree.get? l ≠ none → u.tree.get? l = v.tree.get? l
  free : ∀ l, v.tree.get? l = none → u.tree.get? l = none
  new : ∀ l, w.tree.get? l = none → u.tree.get? l ≠ none →
    keep = true ∧ u.tree.get? l = v.tree.get? l

variable {turns : List Turn} {keep : Bool}

theorem Accounted.finished (h : Accounted w v turns) (keep : Bool) :
    Finished w v (finishBackups keep (made turns) v).2 keep where
  later := h.undoable.keeps.toLater.trans (finishBackups_later keep (made turns) v)
  kept := by
    intro l hl
    refine finishBackups_get?_other keep fun b hb hcopy => ?_
    obtain ⟨_, c, _, -, hc, -, hfree, -⟩ := h.undoable.held b hb
    rw [locate_of_later h.undoable.keeps.toLater, hc] at hcopy
    cases hcopy
    exact hl hfree
  free := fun l hl => finishBackups_get?_none keep hl
  new := by
    intro l hl hnew
    cases keep with
    | true => exact ⟨rfl, by rw [finishBackups_keep]⟩
    | false =>
        -- what was added is a copy, and these are taken away
        exfalso
        have hv : v.tree.get? l ≠ none := fun hv => hnew (finishBackups_get?_none false hv)
        obtain ⟨b, hb, hcopy⟩ := h.undoable.added l hl hv
        obtain ⟨_, c, bytes, -, hc, -, -, hheld⟩ := h.undoable.held b hb
        rw [hcopy] at hc
        cases hc
        refine hnew (finishBackups_get?_dropped hb
          ((locate_of_later h.undoable.keeps.toLater _ _).mpr hcopy) ?_)
        rw [hheld]
        rintro ⟨⟩

/-- A file that was not changed is as it was. -/
theorem Finished.same (h : Finished w v u keep) {p : Path} (hsame : SameAt w v p) :
    SameAt w u p := by
  intro l hl
  cases he : w.tree.get? l with
  | none => exact h.free l (by rw [hsame l hl, he])
  | some e => rw [h.kept l (by rw [he]; rintro ⟨⟩), hsame l hl, he]

/-- A file that was changed holds the text that was written on its turn. -/
theorem Finished.readText (h : Finished w v u keep) (ha : Accounted w v turns) {t : Turn}
    (ht : t ∈ turns) {copy : Path} {text : String} (hchange : t.change = some (copy, text)) :
    u.readText t.file = .ok text := by
  obtain ⟨l, bytes, hl, hwas, hnow⟩ := ha.written t ht copy text hchange
  refine readText_eq_ok.mpr ⟨text.toUTF8, false, entry_eq_ok.mpr ⟨l, ?_, ?_⟩,
    fromUTF8?_toUTF8 text⟩
  · exact (locate_of_later h.later _ _).mpr hl
  · rw [h.kept l (by rw [hwas]; rintro ⟨⟩), hnow]

/-! ## What is written -/

/-- The files when the turn of a catalog comes, in `store` the key being renamed already. -/
def Settings.atTurn (s : Settings) (x : Suggestion) (w : Workspace) (store : KeyStore)
    (p : Path) : Workspace :=
  (moveInFiles x.key x.newKey (s.catalogs.takeWhile (· ≠ p))
    (afterSources s x w store).1).workspace

/-- The message moves in the catalog of the path, to this catalog. -/
def Settings.Moves (s : Settings) (x : Suggestion) (w : Workspace) (store : KeyStore) (p : Path)
    (next : Catalog) : Prop :=
  Catalog.Movable w (s.atTurn x w store p) p x.key x.newKey next

/-- The file is one to write: a source with references to the old key, or a catalog in which
    the message moves. -/
def Settings.Writes (s : Settings) (x : Suggestion) (w : Workspace) (store : KeyStore)
    (p : Path) : Prop :=
  (p ∈ s.sourceFiles x ∧ ∃ text new, w.readText p = .ok text ∧
      (s.renaming x).applyTo? text = some new) ∨
    (p ∈ s.catalogs ∧ ∃ next, s.Moves x w store p next)

section

variable {s : Settings} {x : Suggestion} {p : Trail} {sources catalogs : List Turn}

/-- The turn of a source, told from the start. -/
theorem Taken.source_turn (h : Taken s x w p sources catalogs)
    (ha : Accounted w v (sources ++ catalogs)) {t : Turn} (ht : t ∈ sources) :
    ∃ text, w.readText t.file = .ok text ∧
      t.change.map (·.2) = (s.renaming x).applyTo? text := by
  obtain ⟨text, hread, hchange⟩ := h.renames t ht
  obtain ⟨hlater, hsame⟩ := ha.found t (List.mem_append_left _ ht)
  exact ⟨text, (hsame.readText hlater).mp hread, hchange⟩

theorem Taken.found_eq (h : Taken s x w p sources catalogs) (hcatalogs : s.catalogs.Nodup)
    {t : Turn} (ht : t ∈ catalogs) : t.found = s.atTurn x w p.store t.file := by
  obtain ⟨-, before, after, hfiles, hfound⟩ := h.fate t ht
  -- the path is listed once, so those up to it are the catalogs before it
  have hbefore : s.catalogs.takeWhile (· ≠ t.file) = before := by
    rw [hfiles] at hcatalogs ⊢
    have hnot := (List.nodup_append.mp hcatalogs).2.2
    rw [List.takeWhile_append_of_pos, List.takeWhile_cons_of_neg (by simp), List.append_nil]
    intro file hfile
    simpa using hnot file hfile t.file List.mem_cons_self
  rw [Settings.atTurn, hbefore, hfound]

/-- A catalog is changed on its turn exactly if the message moves in it. -/
theorem Taken.catalog_turn (h : Taken s x w p sources catalogs) (hcatalogs : s.catalogs.Nodup)
    (ha : Accounted w v (sources ++ catalogs)) {t : Turn} (ht : t ∈ catalogs) :
    (∀ next, s.Moves x w p.store t.file next → ∃ copy, t.change = some (copy, next.render)) ∧
      ((∀ next, ¬ s.Moves x w p.store t.file next) → t.change = none) ∧
      ((∃ issue, t.issue? x.key x.newKey = some issue) ↔
        (∀ next, ¬ s.Moves x w p.store t.file next) ∧ ¬ Catalog.Lacks w t.file x.key) := by
  obtain ⟨hfate, -⟩ := h.fate t ht
  obtain ⟨hlater, hsame⟩ := ha.found t (List.mem_append_right _ ht)
  unfold Settings.Moves
  rw [← h.found_eq hcatalogs ht]
  refine ⟨fun next hnext => hfate.change_of_movable hlater hsame hnext, ?_,
    Turn.exists_issue_iff hlater hsame⟩
  intro hnone
  cases hchange : t.change with
  | none => rfl
  | some change =>
      obtain ⟨next, hnext⟩ := hfate.movable_of_change hlater hsame hchange
      exact absurd hnext (hnone next)

theorem Taken.exists_source (h : Taken s x w p sources catalogs) {file : Path}
    (hfile : file ∈ s.sourceFiles x) : ∃ t ∈ sources, t.file = file :=
  List.mem_map.mp (h.source_files ▸ hfile)

theorem Taken.exists_catalog (h : Taken s x w p sources catalogs) {file : Path}
    (hfile : file ∈ s.catalogs) : ∃ t ∈ catalogs, t.file = file :=
  List.mem_map.mp (h.catalog_files ▸ hfile)

/-- **WRITES**: backups are made of the files to write, and of no others. -/
theorem Taken.exists_made_iff (h : Taken s x w p sources catalogs) (hcatalogs : s.catalogs.Nodup)
    (ha : Accounted w v (sources ++ catalogs)) {file : Path} :
    (∃ b ∈ made (sources ++ catalogs), b.file = file) ↔ s.Writes x w p.store file := by
  constructor
  · rintro ⟨b, hb, rfl⟩
    obtain ⟨t, ht, text, hchange, hfile⟩ := mem_made.mp hb
    rw [← hfile]
    rcases List.mem_append.mp ht with ht | ht
    · obtain ⟨old, hread, hnew⟩ := h.source_turn ha ht
      rw [hchange] at hnew
      exact .inl ⟨h.source_files ▸ List.mem_map_of_mem ht, old, text, hread, hnew.symm⟩
    · refine .inr ⟨h.catalog_files ▸ List.mem_map_of_mem ht, ?_⟩
      refine Classical.byContradiction fun hnone => ?_
      rw [(h.catalog_turn hcatalogs ha ht).2.1 (fun next hnext => hnone ⟨next, hnext⟩)] at hchange
      cases hchange
  · -- a file to write has a turn, and on that it was changed
    have hmade : ∀ t ∈ sources ++ catalogs, ∀ copy text, t.change = some (copy, text) →
        ∃ b ∈ made (sources ++ catalogs), b.file = t.file :=
      fun t ht copy text hchange => ⟨⟨t.file, copy⟩, mem_made.mpr ⟨t, ht, text, hchange, rfl⟩, rfl⟩
    rintro (⟨hfile, text, new, hread, hnew⟩ | ⟨hfile, next, hnext⟩)
    · obtain ⟨t, ht, rfl⟩ := h.exists_source hfile
      obtain ⟨text', hread', hchange⟩ := h.source_turn ha ht
      rw [hread] at hread'
      cases hread'
      rw [hnew] at hchange
      obtain ⟨⟨copy, written⟩, hsome, -⟩ := Option.map_eq_some_iff.mp hchange
      exact hmade t (List.mem_append_left _ ht) copy written hsome
    · obtain ⟨t, ht, rfl⟩ := h.exists_catalog hfile
      obtain ⟨copy, hchange⟩ := (h.catalog_turn hcatalogs ha ht).1 next hnext
      exact hmade t (List.mem_append_right _ ht) copy next.render hchange

end

/-! ## Lockstep -/

/-- The suggestion changed store, sources and catalogs together, and nothing else, from the
    state right before it to the one right after it. -/
structure InLockstep (s : Settings) (x : Suggestion) (before after : State) : Prop where
  /-- It is reported as applied. -/
  applied : after.outcome.applied = before.outcome.applied ++ [x]
  /-- The value of the old key is stored under the new one, and no other record changed. -/
  store : ∃ record, before.store.get? x.key = some record ∧
    after.store.get? x.newKey = some (StoredKey.ofKey x.newKey record.value) ∧
    after.store.get? x.key = none ∧
    ∀ key, key ≠ x.key → key ≠ x.newKey → after.store.get? key = before.store.get? key
  /-- Every source has its references renamed, or its text if there are none. -/
  sources : ∀ file, (file ∈ x.files ∨ ∃ ix, s.index = some ix ∧ file ∈ ix.filesOf x.key) →
    ∃ text, before.workspace.readText (s.resolve file) = .ok text ∧
      after.workspace.readText (s.resolve file)
        = .ok (((s.renaming x).applyTo? text).getD text)
  /-- Every catalog in which the message moves is the moved one. -/
  moved : ∀ p ∈ s.catalogs, ∀ next, s.Moves x before.workspace after.store p next →
    after.workspace.readText p = .ok next.render
  /-- Every other catalog is as it was. -/
  unmoved : ∀ p ∈ s.catalogs, (∀ next, ¬ s.Moves x before.workspace after.store p next) →
    SameAt before.workspace after.workspace p
  /-- The warnings added are those of the other catalogs that do not simply lack the message. -/
  warnings : ∃ issues, after.outcome.warnings = before.outcome.warnings ++ issues ∧
    (issues.map Issue.path).Sublist s.catalogs ∧
    (∀ p ∈ s.catalogs, p ∈ issues.map Issue.path ↔
      (∀ next, ¬ s.Moves x before.workspace after.store p next) ∧
        ¬ Catalog.Lacks before.workspace p x.key) ∧
    ∀ issue ∈ issues, Catalog.moveInFile (s.atTurn x before.workspace after.store issue.path)
      issue.path x.key x.newKey = .error issue.fault
  /-- The message moved in some catalog. -/
  some_moved : ∃ p ∈ s.catalogs, ∃ next, s.Moves x before.workspace after.store p next
  /-- No file but those to write changed. -/
  others : ∀ l e, before.workspace.tree.get? l = some e →
    (∀ p, s.Writes x before.workspace after.store p → before.workspace.locate p ≠ .ok l) →
    after.workspace.tree.get? l = some e
  /-- What is new is a backup of a file that was written, with what it held, if backups are
      kept. -/
  backups : ∀ l e, before.workspace.tree.get? l = none → after.workspace.tree.get? l = some e →
    s.keepBackups = true ∧ ∃ p copy bytes, s.Writes x before.workspace after.store p ∧
      Backup.Coming before.workspace p copy ∧ before.workspace.locate copy = .ok l ∧
      before.workspace.entry p = .ok (.file bytes false) ∧ e = .file bytes false
  /-- The files reported as modified grow by those that were written. -/
  modified : ∀ q : Path, (∃ m ∈ after.outcome.modified, m.same q) ↔
    (∃ m ∈ before.outcome.modified, m.same q) ∨
      ∃ p, s.Writes x before.workspace after.store p ∧ p.same q

theorem mem_sourceFiles {s : Settings} {x : Suggestion} {file : String}
    (h : file ∈ x.files ∨ ∃ ix, s.index = some ix ∧ file ∈ ix.filesOf x.key) :
    s.resolve file ∈ s.sourceFiles x := by
  rw [Settings.sourceFiles]
  refine List.mem_map_of_mem ((NameSet.mem_ofNames_iff _ file).mpr (List.mem_append.mpr ?_))
  rcases h with h | ⟨ix, hix, h⟩
  · exact .inl h
  · rw [hix]
    exact .inr h

section

variable {s : Settings} {x : Suggestion} {p : Trail} {sources catalogs : List Turn}

/-- The text of a source at the end. -/
theorem Taken.source_text (h : Taken s x w p sources catalogs)
    (hd : Distinct w ((sources ++ catalogs).map Turn.file))
    (hu : Finished w p.workspace u keep) {file : Path} (hfile : file ∈ s.sourceFiles x) :
    ∃ text, w.readText file = .ok text ∧
      u.readText file = .ok (((s.renaming x).applyTo? text).getD text) := by
  have ha := h.course.accounted hd
  obtain ⟨t, ht, rfl⟩ := h.exists_source hfile
  have hmem := List.mem_append_left catalogs ht
  obtain ⟨text, hread, hchange⟩ := h.source_turn ha ht
  refine ⟨text, hread, ?_⟩
  cases hwritten : t.change with
  | none =>
      rw [hwritten] at hchange
      rw [← hchange]
      exact ((hu.same (ha.passed hd hmem hwritten)).readText hu.later).mpr hread
  | some change =>
      obtain ⟨copy, new⟩ := change
      rw [hwritten] at hchange
      rw [← hchange]
      exact hu.readText ha hmem hwritten

/-- The message moved in some catalog, since one was written. -/
theorem Taken.some_moved (h : Taken s x w p sources catalogs) (hcatalogs : s.catalogs.Nodup)
    (ha : Accounted w v (sources ++ catalogs)) :
    ∃ file ∈ s.catalogs, ∃ next, s.Moves x w p.store file next := by
  obtain ⟨b, hb⟩ := List.exists_mem_of_ne_nil _ h.some_made
  obtain ⟨t, ht, text, hchange, -⟩ := mem_made.mp hb
  refine ⟨t.file, h.catalog_files ▸ List.mem_map_of_mem ht, ?_⟩
  refine Classical.byContradiction fun hnone => ?_
  rw [(h.catalog_turn hcatalogs ha ht).2.1 (fun next hnext => hnone ⟨next, hnext⟩)] at hchange
  cases hchange

theorem issues_sublist (source target : String) (turns : List Turn) :
    ((turns.filterMap (Turn.issue? source target)).map Issue.path).Sublist
      (turns.map Turn.file) := by
  induction turns with
  | nil => exact List.Sublist.slnil
  | cons t rest ih =>
      cases hissue : t.issue? source target with
      | none =>
          rw [List.filterMap_cons_none hissue]
          exact ih.cons t.file
      | some issue =>
          rw [List.filterMap_cons_some hissue, List.map_cons, List.map_cons,
            (Turn.issue?_eq_some.mp hissue).1]
          exact ih.cons_cons t.file

/-- The issues are those of the catalogs in which the message neither moves nor is missing. -/
theorem Taken.issues_spec (h : Taken s x w p sources catalogs) (hcatalogs : s.catalogs.Nodup)
    (ha : Accounted w v (sources ++ catalogs)) :
    (p.issues.map Issue.path).Sublist s.catalogs ∧
      (∀ file ∈ s.catalogs, file ∈ p.issues.map Issue.path ↔
        (∀ next, ¬ s.Moves x w p.store file next) ∧ ¬ Catalog.Lacks w file x.key) ∧
      ∀ issue ∈ p.issues, Catalog.moveInFile (s.atTurn x w p.store issue.path) issue.path
        x.key x.newKey = .error issue.fault := by
  rw [h.issues]
  refine ⟨h.catalog_files ▸ issues_sublist x.key x.newKey catalogs, ?_, ?_⟩
  · intro file hfile
    constructor
    · intro hmem
      obtain ⟨issue, hissue, rfl⟩ := List.mem_map.mp hmem
      obtain ⟨t, ht, hnoted⟩ := List.mem_filterMap.mp hissue
      rw [(Turn.issue?_eq_some.mp hnoted).1]
      exact (h.catalog_turn hcatalogs ha ht).2.2.mp ⟨issue, hnoted⟩
    · intro hneither
      obtain ⟨t, ht, rfl⟩ := h.exists_catalog hfile
      obtain ⟨issue, hnoted⟩ := (h.catalog_turn hcatalogs ha ht).2.2.mpr hneither
      exact List.mem_map.mpr
        ⟨issue, List.mem_filterMap.mpr ⟨t, ht, hnoted⟩, (Turn.issue?_eq_some.mp hnoted).1⟩
  · intro issue hissue
    obtain ⟨t, ht, hnoted⟩ := List.mem_filterMap.mp hissue
    obtain ⟨hpath, hfault⟩ := Turn.issue?_eq_some.mp hnoted
    rw [hpath, ← h.found_eq hcatalogs ht]
    exact hfault

end

/-- **ONE STEP IN LOCKSTEP**: a step that applies its suggestion changes store, sources and
    catalogs together. -/
theorem step_in_lockstep (s : Settings) {st : State} {x : Suggestion}
    (hcatalogs : s.catalogs.Nodup)
    (hd : Distinct st.workspace (s.sourceFiles x ++ s.catalogs))
    (happlied : (step s st x).outcome.applied ≠ st.outcome.applied) :
    InLockstep s x st (step s st x) := by
  rw [step] at happlied ⊢
  cases hattempt : attempt s x (Trail.start st.workspace st.store) with
  | mk p reason? =>
      rw [hattempt] at happlied
      cases reason? with
      | some reason => exact absurd rfl happlied
      | none =>
          obtain ⟨⟨hne, moved, hrename⟩, sources, catalogs, htaken⟩ :=
            attempt_taken hattempt
          have hdistinct : Distinct st.workspace ((sources ++ catalogs).map Turn.file) := by
            rw [List.map_append, htaken.source_files, htaken.catalog_files]
            exact hd
          have ha := htaken.course.accounted hdistinct
          have hfinished := ha.finished s.keepBackups
          rw [← htaken.backups] at hfinished
          obtain ⟨record, hold, -, rfl, hget⟩ := KeyStore.rename_ok hrename
          obtain ⟨hsublist, hissues, hfaults⟩ := htaken.issues_spec hcatalogs ha
          refine
            { applied := rfl
              store := ⟨record, hold, ?_, ?_, ?_⟩
              sources := ?_
              moved := ?_
              unmoved := ?_
              warnings := ⟨p.issues, rfl, hsublist, hissues, hfaults⟩
              some_moved := htaken.some_moved hcatalogs ha
              others := ?_
              backups := ?_
              modified := ?_ }
          · exact (hget x.newKey).trans (if_pos rfl)
          · exact (hget x.key).trans ((if_neg hne.symm).trans (if_pos rfl))
          · intro key hkey hnew
            exact (hget key).trans ((if_neg hnew.symm).trans (if_neg hkey.symm))
          · intro file hfile
            exact htaken.source_text hdistinct hfinished (mem_sourceFiles hfile)
          · intro file hfile next hnext
            obtain ⟨t, ht, rfl⟩ := htaken.exists_catalog hfile
            obtain ⟨copy, hchange⟩ := (htaken.catalog_turn hcatalogs ha ht).1 next hnext
            exact hfinished.readText ha (List.mem_append_right _ ht) hchange
          · intro file hfile hnone
            obtain ⟨t, ht, rfl⟩ := htaken.exists_catalog hfile
            have hchange := (htaken.catalog_turn hcatalogs ha ht).2.1 hnone
            exact hfinished.same (ha.passed hdistinct (List.mem_append_right _ ht) hchange)
          · intro l e hl hother
            show (finishBackups s.keepBackups p.backups p.workspace).2.tree.get? l = some e
            rw [hfinished.kept l (by rw [hl]; rintro ⟨⟩)]
            refine ha.undoable.kept l e hl fun b hb => hother b.file ?_
            exact (htaken.exists_made_iff hcatalogs ha).mp ⟨b, hb, rfl⟩
          · intro l e hl hnew
            obtain ⟨hkeep, hsame⟩ := hfinished.new l hl (by rw [hnew]; rintro ⟨⟩)
            rw [hnew] at hsame
            obtain ⟨b, hb, hcopy⟩ := ha.undoable.added l hl (by rw [← hsame]; rintro ⟨⟩)
            obtain ⟨m, c, bytes, hm, hc, hwas, -, hheld⟩ := ha.undoable.held b hb
            rw [hcopy] at hc
            cases hc
            rw [hheld] at hsame
            refine ⟨hkeep, b.file, b.copy, bytes, (htaken.exists_made_iff hcatalogs ha).mp ⟨b, hb, rfl⟩,
              ha.undoable.coming b hb, hcopy, entry_eq_ok.mpr ⟨m, hm, hwas⟩, ?_⟩
            exact Option.some.inj hsame
          · intro q
            refine (Path.exists_same_foldl p.backups q st.outcome.modified).trans
              (or_congr_right ?_)
            rw [htaken.backups]
            constructor
            · rintro ⟨b, hb, hsame⟩
              exact ⟨b.file, (htaken.exists_made_iff hcatalogs ha).mp ⟨b, hb, rfl⟩, hsame⟩
            · rintro ⟨file, hwrites, hsame⟩
              obtain ⟨b, hb, rfl⟩ := (htaken.exists_made_iff hcatalogs ha).mpr hwrites
              exact ⟨b, hb, hsame⟩

/-- **LOCKSTEP**: right after a suggestion that is reported as applied, store, sources and
    catalogs were changed together, and nothing else was, from what they were right before. -/
theorem applied_suggestion_in_lockstep (s : Settings) (w : Workspace) (store : KeyStore)
    (before : List Suggestion) (x : Suggestion) (hcatalogs : s.catalogs.Nodup)
    (hd : Distinct (run s w store before).workspace (s.sourceFiles x ++ s.catalogs))
    (happlied : (run s w store (before ++ [x])).outcome.applied
      ≠ (run s w store before).outcome.applied) :
    InLockstep s x (run s w store before) (run s w store (before ++ [x])) := by
  have hrun : run s w store (before ++ [x]) = step s (run s w store before) x := by
    rw [run]
    rw [List.foldl_append]
    rfl
  rw [hrun] at happlied ⊢
  exact step_in_lockstep s hcatalogs hd happlied

/-- The first suggestion of the sample is applied, and its source and its catalog are the two
    files that change. -/
theorem applied_suggestion_of_sample :
    (run sampleSettings sampleWorkspace sampleStore ([] ++ [sampleBye])).outcome.applied
        ≠ (run sampleSettings sampleWorkspace sampleStore []).outcome.applied ∧
      InLockstep sampleSettings sampleBye (run sampleSettings sampleWorkspace sampleStore [])
        (run sampleSettings sampleWorkspace sampleStore ([] ++ [sampleBye])) := by
  have happlied :
      (run sampleSettings sampleWorkspace sampleStore ([] ++ [sampleBye])).outcome.applied
        ≠ (run sampleSettings sampleWorkspace sampleStore []).outcome.applied :=
    fun h => absurd (congrArg List.length h) (by decide +kernel)
  have hd : Distinct sampleWorkspace
      (sampleSettings.sourceFiles sampleBye ++ sampleSettings.catalogs) :=
    Distinct.of_files (by decide +kernel) (by decide +kernel)
  exact ⟨happlied, applied_suggestion_in_lockstep sampleSettings sampleWorkspace sampleStore []
    sampleBye (by decide) hd happlied⟩

/-! ### Catalogs that are not distinct

    A catalog that is listed under the name of the backup to come is found on its turn,
    although it was not there; one that is listed under two paths may be moved on its first
    turn, and reported on its second one. -/

/-- **A CATALOG LISTED TWICE**: if it nests too deep once the message has moved, it is moved on
    its first turn and cannot be read on its second one. -/
theorem moveInFiles_twice {source target : String} {p q : Path} {l : Location} {next : Catalog}
    {t : Trail} (hm : Catalog.Movable t.workspace t.workspace p source target next)
    (hdeep : Json.Value.maxDepth < next.depth) (hp : t.workspace.locate p = .ok l)
    (hq : t.workspace.locate q = .ok l) :
    ∃ b v, moveInFiles source target [p, q] t
      = { t with
          workspace := v
          catalogs := t.catalogs ++ [b]
          issues := t.issues ++ [⟨q, .syntaxError q⟩] } := by
  obtain ⟨⟨b, v⟩, hmoved⟩ := hm.moveInFile
  obtain ⟨next', hm', rfl, l', c, bytes, hw⟩ := Catalog.moveInFile_eq_some hmoved
  obtain rfl := hm.unique hm'
  obtain rfl : l' = l := Except.ok.inj (hw.file.symm.trans hp)
  have hread : v.readText q = .ok next.render := by
    refine readText_eq_ok.mpr ⟨_, false, entry_eq_ok.mpr ⟨l', ?_, hw.get?_file⟩,
      fromUTF8?_toUTF8 _⟩
    exact (locate_of_later hw.later _ _).mpr hq
  have hfault : Catalog.moveInFile v q source target = .error (.syntaxError q) := by
    rw [Catalog.moveInFile, Catalog.load, hread]
    dsimp only
    rw [Catalog.parse_render hm.ordered, if_neg (Nat.not_le.mpr hdeep)]
  refine ⟨b, v, ?_⟩
  rw [moveInFiles, hmoved]
  dsimp only
  rw [moveInFiles, hfault]
  rfl

/-- A suggestion that is applied to such catalogs is reported with a warning. -/
theorem step_listed_twice {s : Settings} {st : State} {x : Suggestion} {p q : Path} {l : Location}
    {next : Catalog} {moved : StoredKey} {store : KeyStore} {t : Trail}
    (hcatalogs : s.catalogs = [p, q]) (hne : x.key ≠ x.newKey)
    (hrename : st.store.rename x.key x.newKey = .ok (moved, store))
    (hsources : afterSources s x st.workspace store = (t, none))
    (hm : Catalog.Movable t.workspace t.workspace p x.key x.newKey next)
    (hdeep : Json.Value.maxDepth < next.depth) (hp : t.workspace.locate p = .ok l)
    (hq : t.workspace.locate q = .ok l) :
    (step s st x).outcome.applied = st.outcome.applied ++ [x] ∧
      (step s st x).outcome.warnings = st.outcome.warnings ++ [⟨q, .syntaxError q⟩] := by
  have hnoted : (afterSources s x st.workspace store).1.issues = [] :=
    renameInSources_issues _ _ (Trail.renamedIn st.workspace store)
  rw [hsources] at hnoted
  obtain ⟨b, v, hmoved⟩ := moveInFiles_twice hm hdeep hp hq
  have hsome : (t.catalogs ++ [b]).isEmpty = false := by simp
  rw [step, attempt_of_rename hne hrename, hsources]
  dsimp only
  rw [hcatalogs, hmoved, hsome]
  dsimp only
  rw [hnoted]
  exact ⟨rfl, rfl⟩

/-- A key of 128 empty segments. -/
def deepKey : String := String.ofList (List.replicate 127 '.')

def sampleDeep : Suggestion := ⟨"bye", deepKey, "", [], 1.0, ""⟩

/-- The settings of the sample, with a second path to a catalog. -/
def sampleWith (p : Path) : Settings := { sampleSettings with catalogs := [⟨"en.json"⟩, p] }

/-- Both paths of the catalog lead to one in which the message can be moved. -/
theorem sampleDeep_movable {p : Path} (hp : p = ⟨"en.json"⟩ ∨ p = ⟨"./en.json"⟩) :
    ∃ next, Catalog.Movable sampleWorkspace sampleWorkspace p sampleDeep.key
        sampleDeep.newKey next ∧
      Json.Value.maxDepth < next.depth := by
  have hmoves : ((Catalog.load sampleWorkspace p).toOption.any fun c =>
      (c.move sampleDeep.key sampleDeep.newKey).toOption.any fun moved =>
        moved.any fun found => decide (Json.Value.maxDepth < found.2.depth)) = true := by
    rcases hp with rfl | rfl <;> decide +kernel
  have hcopied : sampleWorkspace.isReadOnly p = false ∧
      (Backup.create sampleWorkspace p).toOption.isSome = true := by
    rcases hp with rfl | rfl <;> decide +kernel
  cases hload : Catalog.load sampleWorkspace p with
  | error fault =>
      rw [hload] at hmoves
      cases hmoves
  | ok c =>
      rw [hload] at hmoves
      obtain ⟨_, ⟨rfl⟩, hmoves⟩ := (Option.any_eq_true _ _).mp hmoves
      cases hmove : c.move sampleDeep.key sampleDeep.newKey with
      | error fault =>
          rw [hmove] at hmoves
          cases hmoves
      | ok moved =>
          rw [hmove] at hmoves
          obtain ⟨_, ⟨rfl⟩, hmoves⟩ := (Option.any_eq_true _ _).mp hmoves
          obtain ⟨⟨text, next⟩, rfl, hdeep⟩ := (Option.any_eq_true _ _).mp hmoves
          refine ⟨next, ⟨⟨c, text, hload, hmove⟩, hcopied.1, ?_⟩, of_decide_eq_true hdeep⟩
          cases hcreate : Backup.create sampleWorkspace p with
          | ok made => exact ⟨made, rfl⟩
          | error fault =>
              rw [hcreate] at hcopied
              cases hcopied.2

/-- **DISTINCT FILES ARE NEEDED**: a catalog that is not there, under the name of the backup to
    come, gets no warning, and one in which the message can be moved gets one if another path
    leads to it. -/
theorem catalogs_out_of_lockstep :
    ((sampleWith ⟨"en.json.T.bak"⟩).catalogs.Nodup ∧
      ((sampleWith ⟨"en.json.T.bak"⟩).sourceFiles sampleBye
          ++ (sampleWith ⟨"en.json.T.bak"⟩).catalogs).Pairwise
        (fun p q => ∀ l, sampleWorkspace.locate p = .ok l → sampleWorkspace.locate q ≠ .ok l) ∧
      (run (sampleWith ⟨"en.json.T.bak"⟩) sampleWorkspace sampleStore
        [sampleBye]).outcome.applied ≠ [] ∧
      ¬ InLockstep (sampleWith ⟨"en.json.T.bak"⟩) sampleBye
        (run (sampleWith ⟨"en.json.T.bak"⟩) sampleWorkspace sampleStore [])
        (run (sampleWith ⟨"en.json.T.bak"⟩) sampleWorkspace sampleStore [sampleBye])) ∧
    (sampleWith ⟨"./en.json"⟩).catalogs.Nodup ∧
      (sampleWith ⟨"./en.json"⟩).sourceFiles sampleDeep = [] ∧
      (∃ next, Catalog.Movable sampleWorkspace sampleWorkspace ⟨"./en.json"⟩ sampleDeep.key
        sampleDeep.newKey next) ∧
      (run (sampleWith ⟨"./en.json"⟩) sampleWorkspace sampleStore
        [sampleDeep]).outcome.applied = [sampleDeep] ∧
      (run (sampleWith ⟨"./en.json"⟩) sampleWorkspace sampleStore
        [sampleDeep]).outcome.warnings = [⟨⟨"./en.json"⟩, .syntaxError ⟨"./en.json"⟩⟩] := by
  refine ⟨⟨by decide, pairwise_apart (by decide +kernel),
    fun h => absurd (congrArg List.length h) (by decide +kernel), ?_⟩, by decide, rfl, ?_⟩
  · rintro ⟨-, -, -, -, -, ⟨issues, hwarnings, -, hreported, -⟩, -⟩
    have hquiet : (run (sampleWith ⟨"en.json.T.bak"⟩) sampleWorkspace sampleStore
        [sampleBye]).outcome.warnings = [] := by decide +kernel
    rw [hquiet] at hwarnings
    have hnone : issues = [] := (List.append_eq_nil_iff.mp hwarnings.symm).2
    have hunread : sampleWorkspace.readText ⟨"en.json.T.bak"⟩ = .error .notFound := by
      decide +kernel
    have hload : ∀ c, Catalog.load sampleWorkspace ⟨"en.json.T.bak"⟩ ≠ .ok c := by
      intro c hload
      rw [Catalog.load, hunread] at hload
      cases hload
    have hmem : ⟨"en.json.T.bak"⟩ ∈ issues.map Issue.path := by
      refine (hreported ⟨"en.json.T.bak"⟩ (by decide)).mpr ⟨?_, ?_⟩
      · rintro next ⟨⟨c, _, hc, -⟩, -, -⟩
        exact hload c hc
      · rintro ⟨c, hc, -⟩
        exact hload c hc
    rw [hnone] at hmem
    cases hmem
  · obtain ⟨next, hmovable, -⟩ := sampleDeep_movable (.inr rfl)
    obtain ⟨next', hmovable', hdeep⟩ := sampleDeep_movable (.inl rfl)
    refine ⟨⟨next, hmovable⟩, ?_⟩
    cases hrename : sampleStore.rename sampleDeep.key sampleDeep.newKey with
    | error fault =>
        have hok : (sampleStore.rename sampleDeep.key sampleDeep.newKey).toBool = true := by
          decide +kernel
        rw [hrename] at hok
        cases hok
    | ok renamed =>
        obtain ⟨moved, store⟩ := renamed
        have hsources : afterSources (sampleWith ⟨"./en.json"⟩) sampleDeep sampleWorkspace store
            = (Trail.renamedIn sampleWorkspace store, none) := rfl
        have hne : sampleDeep.key ≠ sampleDeep.newKey := by decide +kernel
        have hplace : sampleWorkspace.locate ⟨"en.json"⟩ = .ok ["en.json"] := by decide +kernel
        have hplace' : sampleWorkspace.locate ⟨"./en.json"⟩ = .ok ["en.json"] := by decide +kernel
        rw [run, List.foldl_cons, List.foldl_nil]
        exact step_listed_twice rfl hne hrename hsources hmovable' hdeep hplace hplace'

end Migration

end MessageKeys
