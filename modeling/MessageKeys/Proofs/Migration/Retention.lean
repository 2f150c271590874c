import MessageKeys.Proofs.Migration.Atomicity
import MessageKeys.Proofs.Migration.Tracking

/-! # Retention — backups clobber nothing, and all that are left are reported

    A copy that is made in a run is at a place that was free when the run began, so neither
    making nor dropping it touches a file that was there.  What is there at the end and was
    not at the start are the backups reported: all that were made if backups are kept, those of
    failed suggestions if not.  Each holds what its file held right before it was written,
    unless the run is given the path of the backup itself to write to
    (`exposed_backup_not_held`). -/

namespace MessageKeys.Migration

open Workspace

/-! ## Where in a run a backup was made -/

/-- The reported backups are those left of the suggestions, each in its state. -/
theorem mem_foldl_backups (s : Settings) (xs : List Suggestion) (st : State) (q : Path) :
    q ∈ (xs.foldl (step s) st).outcome.backups ↔ q ∈ st.outcome.backups ∨
      ∃ before x after, xs = before ++ x :: after ∧
        q ∈ (before.foldl (step s) st).leftOf s x := by
  induction xs generalizing st with
  | nil => simp
  | cons y rest ih =>
      rw [List.foldl_cons, ih, step_backups, List.mem_append, or_assoc]
      refine or_congr_right ⟨?_, ?_⟩
      · rintro (hq | ⟨before, x, after, rfl, hq⟩)
        · exact ⟨[], y, rest, rfl, hq⟩
        · exact ⟨y :: before, x, after, rfl, hq⟩
      · rintro ⟨before, x, after, hsplit, hq⟩
        cases before with
        | nil =>
            cases hsplit
            exact .inl hq
        | cons z before =>
            cases hsplit
            exact .inr ⟨before, x, after, rfl, hq⟩

variable (s : Settings) (w : Workspace) (store : KeyStore)

theorem run_append (before after : List Suggestion) :
    run s w store (before ++ after) = after.foldl (step s) (run s w store before) := by
  rw [run]
  rw [List.foldl_append]
  rfl

theorem mem_run_backups (xs : List Suggestion) (q : Path) :
    q ∈ (run s w store xs).outcome.backups ↔ ∃ before x after, xs = before ++ x :: after ∧
      q ∈ (run s w store before).leftOf s x := by
  rw [run]
  rw [mem_foldl_backups]
  exact or_iff_right List.not_mem_nil

/-- A copy is left of a suggestion if backups are kept or the suggestion failed. -/
theorem mem_leftOf_iff {st : State} {x : Suggestion} {q : Path} :
    q ∈ st.leftOf s x ↔ q ∈ st.copiesOf s x ∧
      (s.keepBackups = true ∨ (step s st x).outcome.failed ≠ st.outcome.failed) := by
  rw [State.leftOf, ← fails_iff, ← Bool.or_eq_true]
  split
  · next h => simp [h]
  · next h => simp [h]

/-- A copy is made where nothing was, neither then nor when the run began. -/
theorem run_copies_placed (before : List Suggestion) (x : Suggestion) :
    ∀ q ∈ (run s w store before).copiesOf s x, ∃ c, w.locate q = .ok c ∧
      w.tree.get? c = none ∧ (run s w store before).workspace.tree.get? c = none := by
  intro q hq
  have hk := (run_tracked s w store before).keeps
  obtain ⟨c, hc, hfree, -⟩ := (attempt_tracked s (run s w store before) x).placed q hq
  exact ⟨c, (locate_of_later hk.toLater q c).mp hc, hk.absent hfree, hfree⟩

/-! ## What a backup holds -/

/-- The backup was made on a turn of the suggestion, when its file held the bytes. -/
def MadeFrom (st : State) (x : Suggestion) (q : Path) (bytes : ByteArray) : Prop :=
  ∃ turns, Course st.workspace turns (attempt s x (Trail.start st.workspace st.store)).1.workspace ∧
    made turns = (attempt s x (Trail.start st.workspace st.store)).1.backups ∧
    ∃ t ∈ turns, t.file ∈ s.within x ∧ t.Guards q bytes

/-- The run is given the path of the backup to write to: a source or a catalog that was not
    there at the start. -/
def Exposed (xs : List Suggestion) (q : Path) : Prop :=
  ∃ p ∈ s.reach xs, ∃ c, w.locate p = .ok c ∧ w.locate q = .ok c ∧ w.tree.get? c = none

/-- A copy holds what its file held until the suggestion is done with, unless the suggestion
    writes to it. -/
theorem step_holds {st : State} {x : Suggestion} {q : Path} (hq : q ∈ st.leftOf s x) :
    ∃ bytes, MadeFrom s st x q bytes ∧
      ((∀ p ∈ s.within x, ∀ c, st.workspace.locate q = .ok c → st.workspace.locate p ≠ .ok c) →
        (step s st x).workspace.entry q = .ok (.file bytes false)) := by
  obtain ⟨turns, hcourse, hmade, hfiles⟩ := attempt_course s x st.workspace st.store
  obtain ⟨hcopy, hleft⟩ := (mem_leftOf_iff s).mp hq
  obtain ⟨b, hb, rfl⟩ := List.mem_map.mp hcopy
  rw [hmade] at hb
  obtain ⟨t, ht, text, hchange, -⟩ := mem_made.mp hb
  obtain ⟨bytes, hguards, hheld⟩ := hcourse.holds ht hchange
  refine ⟨bytes, ⟨turns, hcourse, hmade.symm, t, ht, hfiles (List.mem_map_of_mem ht), hguards⟩, ?_⟩
  intro hother
  rcases hheld with hheld | ⟨p, hp, c, hc, hp'⟩
  · rw [← fails_iff, ← Bool.or_eq_true] at hleft
    refine (left_tracked hleft).holds hheld fun p hp c hc => ?_
    have hloc := locate_of_later hcourse.keeps.1.toLater
    rw [Ne, hloc]
    exact hother p (writtenFor_subset_within s st x hp) c ((hloc _ c).mp hc)
  · exact absurd hp' (hother p (hfiles hp) c hc)

/-- A backup holds at the end what its file held right before it was written. -/
theorem run_holds {xs before after : List Suggestion} {x : Suggestion}
    (hxs : xs = before ++ x :: after) {q : Path} (hq : q ∈ (run s w store before).leftOf s x) :
    ∃ bytes, MadeFrom s (run s w store before) x q bytes ∧
      ((run s w store xs).workspace.entry q = .ok (.file bytes false) ∨ Exposed s w xs q) := by
  obtain ⟨bytes, hmade, hheld⟩ := step_holds s hq
  refine ⟨bytes, hmade, ?_⟩
  by_cases hexposed : Exposed s w xs q
  · exact .inr hexposed
  · left
    have hx : x ∈ xs := hxs ▸ List.mem_append_right _ List.mem_cons_self
    have hafter : after ⊆ xs := fun y hy =>
      hxs ▸ List.mem_append_right _ (List.mem_cons_of_mem x hy)
    -- no path of the run leads to the backup, seen from any of its states
    have hother : ∀ v, Later w v → ∀ p ∈ s.reach xs, ∀ c, v.locate q = .ok c →
        v.locate p ≠ .ok c := by
      intro v hlater p hp c hc hp'
      rw [locate_of_later hlater] at hc hp'
      obtain ⟨d, hd, hfree, -⟩ :=
        run_copies_placed s w store before x q ((mem_leftOf_iff s).mp hq).1
      rw [hc] at hd
      cases hd
      exact hexposed ⟨p, hp, c, hp', hc, hfree⟩
    have hlater := (run_tracked s w store before).keeps.toLater
    have hstep := hheld fun p hp => hother _ hlater p (within_subset_reach s hx hp)
    obtain ⟨_, -, hrest⟩ := foldl_tracked s after (step s (run s w store before) x)
    rw [hxs, run_append]
    refine hrest.holds hstep fun p hp => ?_
    exact hother _ (hlater.trans (step_tracked s _ x).keeps.toLater) p
      (reach_subset_reach s hafter hp)

/-! ## All backups of a run -/

/-- The backups of a run clobber nothing and are accounted for. -/
structure BackupsAccounted (xs : List Suggestion) : Prop where
  /-- What was there is there still, and only a source or a catalog may have changed. -/
  kept : ∀ l e, w.tree.get? l = some e → (run s w store xs).workspace.tree.get? l ≠ none ∧
    ((∀ p ∈ s.reach xs, w.locate p ≠ .ok l) →
      (run s w store xs).workspace.tree.get? l = some e)
  /-- No copy, kept or dropped later, was made where something was. -/
  fresh : ∀ before x after, xs = before ++ x :: after →
    ∀ q ∈ (run s w store before).copiesOf s x, ∃ c, w.locate q = .ok c ∧
      w.tree.get? c = none ∧ (run s w store before).workspace.tree.get? c = none
  /-- What is new are the backups reported. -/
  new : ∀ c, w.tree.get? c = none → ((run s w store xs).workspace.tree.get? c ≠ none ↔
    ∃ q ∈ (run s w store xs).outcome.backups, w.locate q = .ok c)
  /-- Each of these is new. -/
  placed : ∀ q ∈ (run s w store xs).outcome.backups, ∃ c, w.locate q = .ok c ∧
    w.tree.get? c = none
  /-- No two of these are the same, nor at one place. -/
  apart : (run s w store xs).outcome.backups.Pairwise fun p q =>
    p ≠ q ∧ ∀ c, w.locate p = .ok c → w.locate q ≠ .ok c
  /-- Each holds what its file held right before it was written. -/
  held : ∀ q ∈ (run s w store xs).outcome.backups,
    ∃ before x after bytes, xs = before ++ x :: after ∧
      MadeFrom s (run s w store before) x q bytes ∧
      ((run s w store xs).workspace.entry q = .ok (.file bytes false) ∨ Exposed s w xs q)
  /-- If backups are kept these are all that were made, else those of failed suggestions. -/
  reported : ∀ q, q ∈ (run s w store xs).outcome.backups ↔
    ∃ before x after, xs = before ++ x :: after ∧
      q ∈ (run s w store before).copiesOf s x ∧
      (s.keepBackups = true ∨ (run s w store (before ++ [x])).outcome.failed
        ≠ (run s w store before).outcome.failed)

/-- **BACKUPS ARE ACCOUNTED FOR**, whatever the files, the clock, the settings and the
    suggestions are. -/
theorem backups_accounted (xs : List Suggestion) : BackupsAccounted s w store xs := by
  have htracked := run_tracked s w store xs
  refine
    { kept := ?_
      fresh := fun before x _ _ => run_copies_placed s w store before x
      new := ?_
      placed := ?_
      apart := ?_
      held := ?_
      reported := ?_ }
  · intro l e hl
    exact ⟨htracked.keeps.present l (by rw [hl]; rintro ⟨⟩), htracked.kept l e hl⟩
  · intro c hfree
    constructor
    · exact htracked.added c hfree
    · rintro ⟨q, hq, hc⟩
      obtain ⟨d, hd, -, htaken⟩ := htracked.placed q hq
      rw [hc] at hd
      cases hd
      exact htaken
  · intro q hq
    obtain ⟨c, hc, hfree, -⟩ := htracked.placed q hq
    exact ⟨c, hc, hfree⟩
  · refine htracked.apart.imp_of_mem ?_
    intro p q hp _ hpq
    refine ⟨?_, hpq⟩
    rintro rfl
    obtain ⟨c, hc, -⟩ := htracked.placed p hp
    exact hpq c hc hc
  · intro q hq
    obtain ⟨before, x, after, hxs, hleft⟩ := (mem_run_backups s w store xs q).mp hq
    obtain ⟨bytes, hmade, hheld⟩ := run_holds s w store hxs hleft
    exact ⟨before, x, after, bytes, hxs, hmade, hheld⟩
  · intro q
    rw [mem_run_backups]
    simp only [mem_leftOf_iff, run_append, List.foldl_cons, List.foldl_nil]

/-! ### A backup that is renamed in

    The run is given the name of the backup that the first source will get as a second
    source, so it renames in the backup as well. -/

/-- The first backup of a suggestion was made of what its file held before. -/
theorem MadeFrom.of_first {st : State} {x : Suggestion} {b : Backup} {rest : List Backup}
    {bytes : ByteArray}
    (hfirst : (attempt s x (Trail.start st.workspace st.store)).1.backups = b :: rest)
    (hother : ∀ b' ∈ rest, b'.copy ≠ b.copy) (h : MadeFrom s st x b.copy bytes) :
    st.workspace.entry b.file = .ok (.file bytes false) := by
  obtain ⟨turns, hcourse, hmade, t, ht, -, ⟨text, hchange⟩, hheld⟩ := h
  obtain ⟨earlier, later, rfl, hbefore⟩ := hcourse.before ht
  have hturn : made (t :: later) = ⟨t.file, b.copy⟩ :: made later := by
    have hbackup : t.backup? = some ⟨t.file, b.copy⟩ := by
      rw [Turn.backup?, hchange]
      rfl
    rw [made, List.filterMap_cons_some hbackup]
    rfl
  rw [hfirst, made_append, hturn] at hmade
  have htracked := hbefore.tracked
  cases hearlier : made earlier with
  | nil =>
      -- nothing was written before this turn
      rw [hearlier] at hmade htracked
      have hfile : t.file = b.file := congrArg Backup.file (List.cons.inj hmade).1
      rw [hfile] at hheld
      obtain ⟨l, hl, hbytes⟩ := entry_eq_ok.mp hheld
      refine entry_eq_ok.mpr ⟨l, (locate_of_later htracked.keeps.toLater _ _).mp hl, ?_⟩
      cases he : st.workspace.tree.get? l with
      | none =>
          obtain ⟨q, hq, -⟩ := htracked.added l he (by rw [hbytes]; rintro ⟨⟩)
          cases hq
      | some e =>
          rw [htracked.kept l e he fun p hp => absurd hp List.not_mem_nil] at hbytes
          exact hbytes
  | cons a more =>
      rw [hearlier] at hmade
      have hrest := (List.cons.inj hmade).2
      exact absurd rfl (hother ⟨t.file, b.copy⟩
        (hrest ▸ List.mem_append_right more List.mem_cons_self))

/-- A source, and the name of the backup that it will get. -/
def sampleExposed : Suggestion :=
  ⟨"hello", "home.hello", "home", ["a.svelte", "a.svelte.T.bak"], 1.0, ""⟩

/-- **AN EXPOSED BACKUP** is reported, and does not hold at the end what its file held right
    before it was written. -/
theorem exposed_backup_not_held :
    ⟨"a.svelte.T.bak"⟩
        ∈ (run sampleSettings sampleWorkspace sampleStore [sampleExposed]).outcome.backups ∧
      (run sampleSettings sampleWorkspace sampleStore [sampleExposed]).workspace.readText
        ⟨"a.svelte.T.bak"⟩ = .ok "m[\"home.hello\"]() m.bye()" ∧
      ¬ ∃ before x after bytes, [sampleExposed] = before ++ x :: after ∧
        MadeFrom sampleSettings (run sampleSettings sampleWorkspace sampleStore before) x
          ⟨"a.svelte.T.bak"⟩ bytes ∧
        (run sampleSettings sampleWorkspace sampleStore [sampleExposed]).workspace.entry
          ⟨"a.svelte.T.bak"⟩ = .ok (.file bytes false) := by
  have hafter : (run sampleSettings sampleWorkspace sampleStore [sampleExposed]).workspace.readText
      ⟨"a.svelte.T.bak"⟩ = .ok "m[\"home.hello\"]() m.bye()" := by decide +kernel
  have hbackups : (run sampleSettings sampleWorkspace sampleStore [sampleExposed]).outcome.backups
      = [⟨"a.svelte.T.bak"⟩, ⟨"a.svelte.T.bak.T.bak"⟩, ⟨"en.json.T.bak"⟩] := by decide +kernel
  refine ⟨hbackups ▸ List.mem_cons_self, hafter, ?_⟩
  rintro ⟨before, x, after, bytes, hxs, hmade, hheld⟩
  cases before with
  | cons y rest =>
      have hlength := congrArg List.length hxs
      simp at hlength
  | nil =>
      cases hxs
      have hfirst : (attempt sampleSettings sampleExposed
          (Trail.start sampleWorkspace sampleStore)).1.backups
            = [⟨⟨"a.svelte"⟩, ⟨"a.svelte.T.bak"⟩⟩,
              ⟨⟨"a.svelte.T.bak"⟩, ⟨"a.svelte.T.bak.T.bak"⟩⟩,
              ⟨⟨"en.json"⟩, ⟨"en.json.T.bak"⟩⟩] := by decide +kernel
      have hother : ∀ b ∈ [⟨⟨"a.svelte.T.bak"⟩, ⟨"a.svelte.T.bak.T.bak"⟩⟩,
          (⟨⟨"en.json"⟩, ⟨"en.json.T.bak"⟩⟩ : Backup)], b.copy ≠ ⟨"a.svelte.T.bak"⟩ := by decide
      have hwas : sampleWorkspace.entry ⟨"a.svelte"⟩ = .ok (.file bytes false) :=
        MadeFrom.of_first sampleSettings (b := ⟨⟨"a.svelte"⟩, ⟨"a.svelte.T.bak"⟩⟩) hfirst hother
          hmade
      have hbefore : sampleWorkspace.readText ⟨"a.svelte"⟩ = .ok "m.hello() m.bye()" := by
        decide +kernel
      -- the backup would read as its file did before
      have hsame : (run sampleSettings sampleWorkspace sampleStore
          [sampleExposed]).workspace.readText ⟨"a.svelte.T.bak"⟩
            = sampleWorkspace.readText ⟨"a.svelte"⟩ := by
        simp only [readText, readBytes, hwas, hheld]
      rw [hafter, hbefore] at hsame
      exact absurd hsame (by decide)

end MessageKeys.Migration
