import MessageKeys.Proofs.KeyStore
import MessageKeys.Proofs.Migration.Turns

/-! # Failure atomicity — a failed suggestion leaves no trace but backups

    However far the sources of a suggestion were renamed, the turns they took can be undone,
    and undoing them leaves every file as it was.  Catalogs need no undoing: a suggestion that
    changed one has not failed.

    A run in which the sources of each suggestion are `Separate` goes from one kept
    workspace to the next, so every suggestion finds the conditions that were asked of the
    first workspace.  A source under the name of a backup to come is not separate, and may
    leave a file renamed (`foreseen_backup_leaves_trace`). -/

namespace MessageKeys.Migration

open Workspace

variable {w v u : Workspace}

/-! ## Renaming in the sources -/

/-- The sources of a suggestion are distinct files. -/
def Separate (s : Settings) (w : Workspace) (x : Suggestion) : Prop :=
  Distinct w (s.sourceFiles x)

/-! ## A suggestion that fails -/

/-- **RENAMING IN SOURCES CAN BE UNDONE**, however far it came. -/
theorem afterSources_undoable {s : Settings} {x : Suggestion} (hsep : Separate s w x)
    (store : KeyStore) :
    Undoable w (afterSources s x w store).1.workspace (afterSources s x w store).1.sources
      (afterSources s x w store).1.sources := by
  obtain ⟨turns, hcourse, ⟨rest, hfiles⟩, hmade, -⟩ :=
    renameInSources_course (s.renaming x) (s.sourceFiles x)
      (p := Trail.renamedIn w store) (q := (afterSources s x w store).1) rfl Course.start
  have hd : Distinct w (turns.map Turn.file ++ rest) := hfiles ▸ hsep
  rw [hmade]
  exact (hcourse.accounted hd.of_append).undoable

/-- How far a failed suggestion got with the store. -/
def StoreTouched (x : Suggestion) (store : KeyStore) (p : Trail) : Prop :=
  p.renamed = false ∧ p.store = store ∨
    p.renamed = true ∧ x.key ≠ x.newKey ∧
      ∃ moved, store.rename x.key x.newKey = .ok (moved, p.store)

/-- What a failed suggestion leaves to undo: the writes of its sources, and its key in the
    store if it was renamed. -/
theorem attempt_failed {s : Settings} {x : Suggestion} (hsep : Separate s w x)
    {store : KeyStore} {p : Trail} {reason : MigrationFault}
    (h : attempt s x (Trail.start w store) = (p, some reason)) :
    Undoable w p.workspace p.backups p.backups ∧ StoreTouched x store p := by
  rcases attempt_cases s x w store with ⟨_, hrefused⟩ | ⟨moved, store', hne, hrename, hways⟩
  · rw [hrefused] at h
    cases h
    exact ⟨Undoable.refl w, Or.inl ⟨rfl, rfl⟩⟩
  · have hundo := afterSources_undoable hsep store'
    obtain ⟨hstore, hrenamed, hcatalogs⟩ := afterSources_frame s x w store'
    rcases hways with ⟨q, fault, hq, hattempt⟩ | ⟨q, hq, hways⟩
    · rw [hattempt] at h
      cases h
      rw [hq] at hundo hstore hrenamed hcatalogs
      have hbackups : p.backups = p.sources := by
        rw [Trail.backups, hcatalogs, List.append_nil]
      rw [hbackups]
      exact ⟨hundo, Or.inr ⟨hrenamed, hne, moved, by rw [hstore, hrename]⟩⟩
    · rw [hq] at hundo hstore hrenamed hcatalogs
      rcases hways with ⟨hnone, _, hattempt⟩ | ⟨-, hattempt⟩
      · rw [hattempt] at h
        cases h
        obtain ⟨hstore', hrenamed', hsources'⟩ :=
          moveInFiles_frame x.key x.newKey s.catalogs q
        -- no catalog was written, so the backups are those of the sources
        have hbackups : (moveInFiles x.key x.newKey s.catalogs q).backups = q.sources := by
          rw [Trail.backups, hsources', hnone, List.append_nil]
        rw [hbackups, moveInFiles_workspace x.key x.newKey s.catalogs hnone]
        refine ⟨hundo, Or.inr ⟨hrenamed'.trans hrenamed, hne, moved, ?_⟩⟩
        rw [hstore', hstore, hrename]
      · rw [hattempt] at h
        cases h

/-- **UNDOING A SUGGESTION** gives back every file, and the store itself. -/
theorem undo_unharmed {x : Suggestion} {store : KeyStore} (hstore : store.Consistent)
    {p : Trail} (h : Undoable w p.workspace p.backups p.backups)
    (hs : StoreTouched x store p) :
    Unharmed w (undo x p).workspace ∧ (undo x p).store = store := by
  refine ⟨h.restoreAll.unharmed, ?_⟩
  rcases hs with ⟨hr, hsame⟩ | ⟨hr, hne, moved, hrename⟩
  · rw [undo]
    rw [hr]
    exact hsame
  · obtain ⟨back, hback⟩ := KeyStore.rename_back hstore hne hrename
    rw [undo]
    rw [hr]
    dsimp only
    rw [hback]
    rfl

/-! ## Any suggestion -/

/-- A suggestion that succeeds keeps what was there, its backups are new, and the store is
    still consistent. -/
theorem attempt_applied {s : Settings} {x : Suggestion} {store : KeyStore}
    (hstore : store.Consistent) {p : Trail}
    (h : attempt s x (Trail.start w store) = (p, none)) :
    Keeps w p.workspace ∧
      (∀ b ∈ p.backups, ∃ c, w.locate b.copy = .ok c ∧ w.tree.get? c = none) ∧
      p.store.Consistent := by
  obtain ⟨⟨-, moved, hrename⟩, sources, catalogs, htaken⟩ := attempt_taken h
  obtain ⟨hkeeps, hfresh⟩ := htaken.course.keeps
  exact ⟨hkeeps, htaken.backups ▸ hfresh, hstore.rename hrename⟩

/-! ## Runs -/

/-- **ONE STEP**: a suggestion is reported as applied or as failed, and if it failed, nothing
    but new backups shows that it was tried. -/
theorem step_cases (s : Settings) {st : State} (hstore : st.store.Consistent) {x : Suggestion}
    (hsep : Separate s st.workspace x) :
    Keeps st.workspace (step s st x).workspace ∧ (step s st x).store.Consistent ∧
      ((step s st x).outcome.failed = st.outcome.failed ∨
        (∃ reason issues,
          (step s st x).outcome.failed = st.outcome.failed ++ [⟨x, reason, issues⟩]) ∧
        Unharmed st.workspace (step s st x).workspace ∧ (step s st x).store = st.store) := by
  rw [step]
  cases hattempt : attempt s x (Trail.start st.workspace st.store) with
  | mk p reason? =>
      cases reason? with
      | none =>
          obtain ⟨hkeeps, hfresh, hconsistent⟩ := attempt_applied hstore hattempt
          exact ⟨finishBackups_keeps s.keepBackups hkeeps hfresh, hconsistent, Or.inl rfl⟩
      | some reason =>
          obtain ⟨hundoable, hs⟩ := attempt_failed hsep hattempt
          obtain ⟨hun, hsame⟩ := undo_unharmed hstore hundoable hs
          refine ⟨⟨hun.later, ?_⟩, ?_, Or.inr ⟨⟨reason, (undo x p).issues, rfl⟩, hun, hsame⟩⟩
          · intro l hl
            cases he : st.workspace.tree.get? l with
            | none => exact absurd he hl
            | some e =>
                show (undo x p).workspace.tree.get? l ≠ none
                rw [hun.kept l e he]
                rintro ⟨⟩
          · show (undo x p).store.Consistent
            rw [hsame]
            exact hstore

/-- A run of separate suggestions keeps what was there, and a consistent store. -/
theorem run_keeps (s : Settings) (w : Workspace) {store : KeyStore}
    (hstore : store.Consistent) (xs : List Suggestion) (hsep : ∀ x ∈ xs, Separate s w x) :
    Keeps w (run s w store xs).workspace ∧ (run s w store xs).store.Consistent := by
  -- the run is compared with its start, where the sources are known to be separate
  have key : ∀ (xs : List Suggestion) (st : State), (∀ x ∈ xs, Separate s w x) →
      Keeps w st.workspace → st.store.Consistent →
      Keeps w (xs.foldl (step s) st).workspace ∧ (xs.foldl (step s) st).store.Consistent := by
    intro xs
    induction xs with
    | nil => intro st _ hk hc; exact ⟨hk, hc⟩
    | cons x rest ih =>
        intro st hs hk hc
        obtain ⟨hk', hc', -⟩ := step_cases s hc ((hs x List.mem_cons_self).of_keeps hk)
        exact ih _ (fun y hy => hs y (List.mem_cons_of_mem x hy)) (hk.trans hk') hc'
  exact key xs _ hsep (Keeps.refl w) hstore

/-- **FAILURE ATOMICITY**: right after a suggestion that is reported as failed, every file and
    every record of the store is as it was right before it, with all that earlier suggestions
    did; only new backups may have appeared. -/
theorem failed_suggestion_leaves_no_trace (s : Settings) (w : Workspace) {store : KeyStore}
    (hstore : store.Consistent) (before after : List Suggestion) (x : Suggestion)
    (hsep : ∀ y ∈ before ++ x :: after, Separate s w y)
    (hfailed : (run s w store (before ++ [x])).outcome.failed
      ≠ (run s w store before).outcome.failed) :
    Unharmed (run s w store before).workspace (run s w store (before ++ [x])).workspace ∧
      (run s w store (before ++ [x])).store = (run s w store before).store ∧
      ∃ reason issues, (run s w store (before ++ [x])).outcome.failed
        = (run s w store before).outcome.failed ++ [⟨x, reason, issues⟩] := by
  have hrun : run s w store (before ++ [x]) = step s (run s w store before) x := by
    rw [run]
    rw [List.foldl_append]
    rfl
  obtain ⟨hk, hc⟩ := run_keeps s w hstore before
    fun y hy => hsep y (List.mem_append_left _ hy)
  have hx : Separate s w x := hsep x (List.mem_append_right _ List.mem_cons_self)
  obtain ⟨-, -, hcases⟩ := step_cases s hc (hx.of_keeps hk)
  rw [hrun] at hfailed ⊢
  rcases hcases with hsame | ⟨hreported, hun, hstore'⟩
  · exact absurd hsame hfailed
  · exact ⟨hun, hstore', hreported⟩

/-! ### An applied suggestion and a failed one

    Two sources and one catalog; the second source must not be written. -/

def sampleWorkspace : Workspace where
  tree := ⟨[(["a.svelte"], .file "m.hello() m.bye()".toUTF8 false),
    (["b.svelte"], .file "m.hello()".toUTF8 true),
    (["en.json"], .file "\x7b\"bye\": \"Bye\", \"hello\": \"Hello\"\x7d".toUTF8 false)]⟩
  here := []
  clock := fun _ => "T"
  ticks := 0

def sampleSettings : Settings where
  catalogs := [⟨"en.json"⟩]
  accessor := "m"
  keepBackups := true
  sourceRoot := none
  index := none

def sampleStore : KeyStore :=
  (KeyStore.empty.insert "bye" (some "Bye")).insert "hello" (some "Hello")

def sampleBye : Suggestion := ⟨"bye", "nav.bye", "nav", ["a.svelte"], 1.0, ""⟩

def sampleHello : Suggestion :=
  ⟨"hello", "home.hello", "home", ["a.svelte", "b.svelte"], 1.0, ""⟩

/-- The first suggestion is applied, the second one fails at the file that is read-only, and
    what the first one wrote to the other file stays. -/
theorem failed_suggestion_after_applied_one :
    (run sampleSettings sampleWorkspace sampleStore [sampleBye, sampleHello]).outcome.failed
        ≠ (run sampleSettings sampleWorkspace sampleStore [sampleBye]).outcome.failed ∧
      Unharmed (run sampleSettings sampleWorkspace sampleStore [sampleBye]).workspace
        (run sampleSettings sampleWorkspace sampleStore [sampleBye, sampleHello]).workspace := by
  have hfailed :
      (run sampleSettings sampleWorkspace sampleStore [sampleBye, sampleHello]).outcome.failed
        ≠ (run sampleSettings sampleWorkspace sampleStore [sampleBye]).outcome.failed :=
    fun h => absurd (congrArg List.length h) (by decide +kernel)
  have hstore : sampleStore.Consistent :=
    (KeyStore.consistent_empty.insert "bye" (some "Bye")).insert "hello" (some "Hello")
  have hsep : ∀ y ∈ [sampleBye] ++ [sampleHello], Separate sampleSettings sampleWorkspace y := by
    intro y hy
    rcases List.mem_cons.mp hy with rfl | hy
    · exact Distinct.of_files (by decide +kernel) (by decide +kernel)
    · cases List.mem_singleton.mp hy
      exact Distinct.of_files (by decide +kernel) (by decide +kernel)
  exact ⟨hfailed, (failed_suggestion_leaves_no_trace sampleSettings sampleWorkspace hstore
    [sampleBye] [] sampleHello hsep hfailed).1⟩

/-- Between a source and a file that is not there stands the name of the backup that the
    source will get. -/
def sampleForeseen : Suggestion :=
  ⟨"hello", "home.hello", "home", ["a.svelte", "a.svelte.T.bak", "z.svelte"], 1.0, ""⟩

/-- **DIFFERENT PLACES ARE NOT ENOUGH**: the backup of the first source is renamed in as the
    second one, before the third one fails, so what is put back from it is not what the first
    one held. -/
theorem foreseen_backup_leaves_trace :
    ((sampleSettings.sourceFiles sampleForeseen).Pairwise fun p q =>
        ∀ l, sampleWorkspace.locate p = .ok l → sampleWorkspace.locate q ≠ .ok l) ∧
      (run sampleSettings sampleWorkspace sampleStore [sampleForeseen]).outcome.failed
        ≠ (run sampleSettings sampleWorkspace sampleStore []).outcome.failed ∧
      sampleWorkspace.readText ⟨"a.svelte"⟩ = .ok "m.hello() m.bye()" ∧
      (run sampleSettings sampleWorkspace sampleStore [sampleForeseen]).workspace.readText
        ⟨"a.svelte"⟩ = .ok "m[\"home.hello\"]() m.bye()" ∧
      ¬ Unharmed (run sampleSettings sampleWorkspace sampleStore []).workspace
        (run sampleSettings sampleWorkspace sampleStore [sampleForeseen]).workspace := by
  have hbefore : sampleWorkspace.readText ⟨"a.svelte"⟩ = .ok "m.hello() m.bye()" := by
    decide +kernel
  have hafter : (run sampleSettings sampleWorkspace sampleStore
      [sampleForeseen]).workspace.readText ⟨"a.svelte"⟩
        = .ok "m[\"home.hello\"]() m.bye()" := by decide +kernel
  refine ⟨pairwise_apart (by decide +kernel),
    fun h => absurd (congrArg List.length h) (by decide +kernel), hbefore, hafter, ?_⟩
  intro hunharmed
  have hkept := hunharmed.readText hbefore
  rw [hafter] at hkept
  exact absurd hkept (by decide)

end MessageKeys.Migration
