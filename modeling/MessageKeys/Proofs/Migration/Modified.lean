import MessageKeys.Proofs.Migration.Lockstep
import MessageKeys.Proofs.Migration.Tracking

/-! # Modified files — all that a run changed is reported

    Where the sources of each suggestion are `Separate`, a failed suggestion changes nothing
    that was there, and an applied one only files that it reports.  So after a run every file
    is as it was, or lies where a file reported as modified does (`run_reported`), and these
    are sources and catalogs of the run (`modified_subset_reach`). -/

namespace MessageKeys

namespace Path

theorem mem_insertOrdered {p q : Path} {ps : List Path} (h : q ∈ insertOrdered p ps) :
    q = p ∨ q ∈ ps := by
  induction ps with
  | nil => exact .inl (List.mem_singleton.mp h)
  | cons m rest ih =>
      rw [insertOrdered] at h
      split at h
      · exact .inr h
      · split at h
        · exact List.mem_cons.mp h
        · rcases List.mem_cons.mp h with rfl | h
          · exact .inr List.mem_cons_self
          · exact (ih h).imp_right (List.mem_cons_of_mem m)

theorem mem_foldl_insertOrdered {bs : List Backup} {q : Path} {ps : List Path}
    (h : q ∈ bs.foldl (fun ps b => insertOrdered b.file ps) ps) :
    q ∈ ps ∨ ∃ b ∈ bs, b.file = q := by
  induction bs generalizing ps with
  | nil => exact .inl h
  | cons b rest ih =>
      rcases ih h with h | ⟨b', hb', hq⟩
      · rcases mem_insertOrdered h with rfl | h
        · exact .inr ⟨b, List.mem_cons_self, rfl⟩
        · exact .inl h
      · exact .inr ⟨b', List.mem_cons_of_mem b hb', hq⟩

end Path

namespace Migration

open Workspace

variable {w : Workspace} {s : Settings} {st : State} {x : Suggestion}

/-! ## One step -/

/-- A suggestion that fails counts no file. -/
theorem modified_of_fails (h : st.fails s x = true) :
    (step s st x).outcome.modified = st.outcome.modified := by
  obtain ⟨p, reason, -, hstep⟩ := step_failed h
  rw [hstep]

/-- One that is applied counts the files it backed up. -/
theorem modified_of_applied (h : st.fails s x = false) :
    (step s st x).outcome.modified
      = (attempt s x (Trail.start st.workspace st.store)).1.backups.foldl
          (fun ps b => Path.insertOrdered b.file ps) st.outcome.modified := by
  obtain ⟨p, hattempt, hstep⟩ := step_applied h
  rw [hattempt, hstep]

/-- What a step reports was reported before or is written in it. -/
theorem mem_step_modified {q : Path} (h : q ∈ (step s st x).outcome.modified) :
    q ∈ st.outcome.modified ∨ q ∈ st.writtenFor s x := by
  cases hfails : st.fails s x with
  | true => exact .inl (modified_of_fails hfails ▸ h)
  | false =>
      rw [modified_of_applied hfails] at h
      refine (Path.mem_foldl_insertOrdered h).imp_right ?_
      rintro ⟨b, hb, rfl⟩
      exact List.mem_map_of_mem hb

/-- What was reported or is written by an applied suggestion is reported, in some spelling. -/
theorem exists_same_modified (h : st.fails s x = false) {q : Path}
    (hq : q ∈ st.outcome.modified ∨ q ∈ st.writtenFor s x) :
    ∃ m ∈ (step s st x).outcome.modified, m.same q := by
  rw [modified_of_applied h, Path.exists_same_foldl]
  have hself : q.same q := decide_eq_true rfl
  refine hq.imp (fun hq => ⟨q, hq, hself⟩) fun hq => ?_
  obtain ⟨b, hb, rfl⟩ := List.mem_map.mp hq
  exact ⟨b, hb, hself⟩

/-- A suggestion with separate sources that fails changes nothing that was there. -/
theorem unharmed_of_fails (hsep : Separate s st.workspace x) (h : st.fails s x = true) :
    Unharmed st.workspace (step s st x).workspace := by
  obtain ⟨p, reason, hattempt, hstep⟩ := step_failed h
  rw [hstep]
  exact (attempt_failed hsep hattempt).1.restoreAll.unharmed

/-- What is written somewhere leads there. -/
theorem exists_locate_of_written {q : Path} (h : q ∈ st.writtenFor s x) :
    ∃ l, st.workspace.locate q = .ok l := by
  obtain ⟨turns, hcourse, hmade, -⟩ := attempt_course s x st.workspace st.store
  rw [State.writtenFor, hmade] at h
  obtain ⟨b, hb, rfl⟩ := List.mem_map.mp h
  obtain ⟨l, hl, -⟩ := hcourse.present hb
  exact ⟨l, (locate_of_later hcourse.keeps.1.toLater _ _).mp hl⟩

/-! ## Runs -/

/-- What was there is as it was, or lies where a file reported as modified does. -/
structure Reported (w : Workspace) (st : State) : Prop where
  keeps : Keeps w st.workspace
  led : ∀ q ∈ st.outcome.modified, ∃ l, w.locate q = .ok l
  kept : ∀ l e, w.tree.get? l = some e → (∀ q ∈ st.outcome.modified, w.locate q ≠ .ok l) →
    st.workspace.tree.get? l = some e

/-- **ONE STEP REPORTS** all that it changes. -/
theorem Reported.step (h : Reported w st) (hsep : Separate s st.workspace x) :
    Reported w (step s st x) := by
  have hloc := locate_of_later h.keeps.toLater
  have htracked := step_tracked s st x
  have hled : ∀ q ∈ (Migration.step s st x).outcome.modified, ∃ l, w.locate q = .ok l := by
    intro q hq
    rcases mem_step_modified hq with hq | hq
    · exact h.led q hq
    · obtain ⟨l, hl⟩ := exists_locate_of_written hq
      exact ⟨l, (hloc q l).mp hl⟩
  refine ⟨h.keeps.trans htracked.keeps, hled, ?_⟩
  intro l e hl hother
  cases hfails : st.fails s x with
  | true =>
      rw [modified_of_fails hfails] at hother
      exact (unharmed_of_fails hsep hfails).kept l e (h.kept l e hl hother)
  | false =>
      -- a path in another spelling leads to the same place
      have hnowhere : ∀ q, q ∈ st.outcome.modified ∨ q ∈ st.writtenFor s x →
          w.locate q ≠ .ok l := by
        intro q hq hql
        obtain ⟨m, hm, hsame⟩ := exists_same_modified hfails hq
        obtain ⟨l', hl'⟩ := hled m hm
        refine hother m hm ?_
        rw [hl', locate_unique (of_decide_eq_true hsame) hl' hql]
      refine htracked.kept l e (h.kept l e hl fun q hq => hnowhere q (.inl hq)) ?_
      intro q hq
      rw [Ne, hloc]
      exact hnowhere q (.inr hq)

/-- **RUNS REPORT** all that they change. -/
theorem run_reported (s : Settings) (w : Workspace) (store : KeyStore) (xs : List Suggestion)
    (hsep : ∀ x ∈ xs, Separate s w x) : Reported w (run s w store xs) := by
  suffices hall : ∀ (xs : List Suggestion) (st : State), (∀ x ∈ xs, Separate s w x) →
      Reported w st → Reported w (xs.foldl (Migration.step s) st) from
    hall xs _ hsep ⟨Keeps.refl w, fun _ hq => absurd hq List.not_mem_nil, fun _ _ hl _ => hl⟩
  intro xs
  induction xs with
  | nil => exact fun _ _ h => h
  | cons x rest ih =>
      intro st hsep h
      obtain ⟨hx, hrest⟩ := List.forall_mem_cons.mp hsep
      exact ih _ hrest (h.step (hx.of_keeps h.keeps))

/-- No file is counted that no suggestion reaches. -/
theorem modified_subset_reach (s : Settings) (w : Workspace) (store : KeyStore)
    (xs : List Suggestion) : (run s w store xs).outcome.modified ⊆ s.reach xs := by
  suffices hall : ∀ (ys : List Suggestion) (st : State), ys ⊆ xs →
      st.outcome.modified ⊆ s.reach xs →
      (ys.foldl (Migration.step s) st).outcome.modified ⊆ s.reach xs from
    hall xs _ (List.Subset.refl xs) (List.nil_subset _)
  intro ys
  induction ys with
  | nil => exact fun _ _ h => h
  | cons y rest ih =>
      intro st hys h
      obtain ⟨hy, hrest⟩ := List.cons_subset.mp hys
      refine ih _ hrest fun q hq => ?_
      rcases mem_step_modified hq with hq | hq
      · exact h hq
      · exact within_subset_reach s hy (writtenFor_subset_within s st y hq)

end Migration

end MessageKeys
