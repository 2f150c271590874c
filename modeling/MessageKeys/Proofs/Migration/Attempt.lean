import MessageKeys.Migration.Run
import MessageKeys.Proofs.Backup

/-! # Attempts — the ways a suggestion can go

    A suggestion is refused before anything is written, fails in its sources, finds no
    catalog to change, or is applied (`attempt_cases`).  Both loops write files only by
    guarded writes, and each of them leaves the fields of the trail alone that are not its
    own. -/

namespace MessageKeys.Migration

open Workspace

variable {w v : Workspace}

/-! ## The two loops -/

/-- Renaming in sources changes files and notes their backups. -/
theorem renameInSources_frame (r : Reference.Renaming) (files : List Path) (p : Trail) :
    (renameInSources r files p).1.store = p.store ∧
      (renameInSources r files p).1.renamed = p.renamed ∧
      (renameInSources r files p).1.catalogs = p.catalogs := by
  induction files generalizing p with
  | nil => exact ⟨rfl, rfl, rfl⟩
  | cons file rest ih =>
      rw [renameInSources]
      split
      · exact ⟨rfl, rfl, rfl⟩
      · exact ih p
      · exact ih _

/-- No issues are noted on the way. -/
theorem renameInSources_issues (r : Reference.Renaming) (files : List Path) (p : Trail) :
    (renameInSources r files p).1.issues = p.issues := by
  induction files generalizing p with
  | nil => rfl
  | cons file rest ih =>
      rw [renameInSources]
      split
      · rfl
      · exact ih p
      · exact ih _

/-- Moving in catalogs changes files and notes their backups and the issues. -/
theorem moveInFiles_frame (source target : String) (files : List Path) (p : Trail) :
    (moveInFiles source target files p).store = p.store ∧
      (moveInFiles source target files p).renamed = p.renamed ∧
      (moveInFiles source target files p).sources = p.sources := by
  induction files generalizing p with
  | nil => exact ⟨rfl, rfl, rfl⟩
  | cons file rest ih =>
      rw [moveInFiles]
      split
      · exact ih _
      · exact ih p
      · exact ih _

/-- The catalogs that were written are not forgotten. -/
theorem moveInFiles_catalogs (source target : String) (files : List Path) {p : Trail}
    (h : p.catalogs ≠ []) : (moveInFiles source target files p).catalogs ≠ [] := by
  induction files generalizing p with
  | nil => exact h
  | cons file rest ih =>
      rw [moveInFiles]
      split
      · exact ih h
      · exact ih h
      · exact ih (List.append_ne_nil_of_left_ne_nil h _)

/-- Where no catalog was written, no file was. -/
theorem moveInFiles_workspace (source target : String) (files : List Path) {p : Trail}
    (h : (moveInFiles source target files p).catalogs = []) :
    (moveInFiles source target files p).workspace = p.workspace := by
  induction files generalizing p with
  | nil => rfl
  | cons file rest ih =>
      rw [moveInFiles] at h ⊢
      split at h
      · exact ih h
      · exact ih h
      · next b u _ =>
        exact absurd h (moveInFiles_catalogs source target rest
          (List.append_ne_nil_of_right_ne_nil _ (List.cons_ne_nil b [])))

/-! ## The whole attempt -/

/-- The trail of a suggestion whose key was renamed in the store. -/
def Trail.renamedIn (w : Workspace) (store : KeyStore) : Trail := ⟨w, store, true, [], [], []⟩

/-- The trail after the sources of a suggestion, and what stopped it there. -/
def afterSources (s : Settings) (x : Suggestion) (w : Workspace) (store : KeyStore) :
    Trail × Option SourceFault :=
  renameInSources (Reference.Renaming.ofKeys s.accessor x.key x.newKey) (s.sourceFiles x)
    (Trail.renamedIn w store)

theorem afterSources_frame (s : Settings) (x : Suggestion) (w : Workspace) (store : KeyStore) :
    (afterSources s x w store).1.store = store ∧ (afterSources s x w store).1.renamed = true ∧
      (afterSources s x w store).1.catalogs = [] :=
  renameInSources_frame _ _ (Trail.renamedIn w store)

/-- With its key renamed in the store, a suggestion takes its sources and then its catalogs. -/
theorem attempt_of_rename {s : Settings} {x : Suggestion} {store store' : KeyStore}
    {moved : StoredKey} (hne : x.key ≠ x.newKey)
    (hrename : store.rename x.key x.newKey = .ok (moved, store')) :
    attempt s x (Trail.start w store) =
      match afterSources s x w store' with
      | (q, some fault) => (q, some (.source fault))
      | (q, none) =>
        let p := moveInFiles x.key x.newKey s.catalogs q
        if p.catalogs.isEmpty then
          if p.issues.isEmpty then (p, some (.notInCatalogs x.key))
          else (p, some (.noCatalogChanged x.key))
        else (p, none) := by
  have hstart : (Trail.start w store).store.rename x.key x.newKey = .ok (moved, store') := hrename
  rw [attempt]
  dsimp only
  rw [if_neg hne, hstart]
  rfl

/-- **THE WAYS OF AN ATTEMPT**: refused, stopped in the sources, without a catalog, applied. -/
theorem attempt_cases (s : Settings) (x : Suggestion) (w : Workspace) (store : KeyStore) :
    (∃ reason, attempt s x (Trail.start w store) = (Trail.start w store, some reason)) ∨
    ∃ moved store', x.key ≠ x.newKey ∧ store.rename x.key x.newKey = .ok (moved, store') ∧
      ((∃ q fault, afterSources s x w store' = (q, some fault) ∧
          attempt s x (Trail.start w store) = (q, some (.source fault))) ∨
        ∃ q, afterSources s x w store' = (q, none) ∧
          ((moveInFiles x.key x.newKey s.catalogs q).catalogs = [] ∧
            (∃ reason, attempt s x (Trail.start w store)
              = (moveInFiles x.key x.newKey s.catalogs q, some reason)) ∨
          (moveInFiles x.key x.newKey s.catalogs q).catalogs ≠ [] ∧
            attempt s x (Trail.start w store)
              = (moveInFiles x.key x.newKey s.catalogs q, none))) := by
  by_cases hne : x.key = x.newKey
  · refine Or.inl ⟨.unchangedKey x.key, ?_⟩
    rw [attempt]
    dsimp only
    rw [if_pos hne]
  · cases hrename : store.rename x.key x.newKey with
    | error fault =>
        refine Or.inl ⟨.store fault, ?_⟩
        rw [attempt]
        dsimp only
        rw [if_neg hne]
        have hstart : (Trail.start w store).store.rename x.key x.newKey = .error fault := hrename
        rw [hstart]
    | ok renamed =>
        obtain ⟨moved, store'⟩ := renamed
        refine Or.inr ⟨moved, store', hne, rfl, ?_⟩
        cases hsources : afterSources s x w store' with
        | mk q fault? =>
            rw [attempt_of_rename hne hrename, hsources]
            cases fault? with
            | some fault => exact Or.inl ⟨q, fault, rfl, rfl⟩
            | none =>
                refine Or.inr ⟨q, rfl, ?_⟩
                dsimp only
                by_cases hempty : (moveInFiles x.key x.newKey s.catalogs q).catalogs = []
                · refine Or.inl ⟨hempty, ?_⟩
                  rw [if_pos (List.isEmpty_iff.mpr hempty)]
                  split
                  · exact ⟨_, rfl⟩
                  · exact ⟨_, rfl⟩
                · refine Or.inr ⟨hempty, ?_⟩
                  rw [if_neg (fun he => hempty (List.isEmpty_iff.mp he))]

end MessageKeys.Migration
