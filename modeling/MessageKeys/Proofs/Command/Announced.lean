import MessageKeys.Command.Run
import MessageKeys.Proofs.Dictionary
import MessageKeys.Proofs.Migration.Tracking

/-! # Commands write what they announce

    `scan`, `suggest` and `apply` without `--apply` leave all files alone, and `init` creates
    its file at most.  `apply --apply` is compared with what the same command line would have
    shown without `--apply` on the same files: it changes catalogs of the project and the
    source files shown, and what it adds are backups of these. -/

namespace MessageKeys.Command

open Workspace

variable {w v : Workspace}

/-! ## What is announced -/

/-- The files after a command line. -/
def filesAfter (w : Workspace) (a : Arguments) : Workspace :=
  match run? w a with
  | some (.ok (_, v)) => v
  | _ => w

/-- What `apply` finds with the same options, but told not to write. -/
def dryRun? (w : Workspace) (o : Options) : Option Application :=
  match runApply w { o with apply := false } with
  | .ok (⟨.apply a, _, _, _⟩, _) => some a
  | _ => none

/-- The catalogs of the project, and the source files that the dry run shows. -/
def announcedFiles (w : Workspace) (o : Options) : List Path :=
  match Project.load w o.project, dryRun? w o with
  | .ok p, some a =>
    p.catalogPaths ++ a.sourceFiles.map fun file => p.sourceDirectory.join ⟨file⟩
  | _, _ => []

/-- No file but these was changed, none was taken away, and what is new are backups that are
    named after these and stand beside them. -/
structure WritesOnly (w v : Workspace) (files : List Path) : Prop where
  kept : ∀ l e, w.tree.get? l = some e → (∀ p ∈ files, w.locate p ≠ .ok l) →
    v.tree.get? l = some e
  present : ∀ l, w.tree.get? l ≠ none → v.tree.get? l ≠ none
  new : ∀ l, w.tree.get? l = none → v.tree.get? l ≠ none →
    ∃ p ∈ files, ∃ q, Backup.Beside w p q ∧ w.locate q = .ok l
  sibling : w.tree.Proper → (∀ n, '/' ∉ (w.clock n).toList) →
    ∀ l, w.tree.get? l = none → v.tree.get? l ≠ none →
      ∃ p ∈ files, ∃ dir name stamp, w.locate p = .ok (dir ++ [name]) ∧
        l = dir ++ [name ++ "." ++ stamp ++ ".bak"]

theorem WritesOnly.refl (w : Workspace) (files : List Path) : WritesOnly w w files where
  kept := fun _ _ hl _ => hl
  present := fun _ => id
  new := fun _ hfree htaken => absurd hfree htaken
  sibling := fun _ _ _ hfree htaken => absurd hfree htaken

/-- A file with the text was created at the path, where nothing was, or nothing happened. -/
def CreatesOnly (w v : Workspace) (p : Path) (text : String) : Prop :=
  v = w ∨ ∃ l, w.locate p = .ok l ∧ w.tree.get? l = none ∧ PutAt w v l text.toUTF8 false

/-- What a command line may do to the files. -/
def Announced (w v : Workspace) : Arguments → Prop
  | .nothing => v = w
  | .init => CreatesOnly w v (w.herePath.join ⟨Config.fileName⟩) Config.defaultText
  | .project .scan _ => v = w
  | .project .suggest _ => v = w
  | .project .apply o => if o.apply then WritesOnly w v (announcedFiles w o) else v = w

/-! ## The commands -/

/-- A new configuration is one file, with the default text. -/
theorem init_creates (w : Workspace) :
    CreatesOnly w (filesAfter w .init) (w.herePath.join ⟨Config.fileName⟩) Config.defaultText := by
  unfold filesAfter run? runInit
  dsimp only
  by_cases hthere : w.exists? (w.herePath.join ⟨Config.fileName⟩) = true
  · rw [if_pos hthere]
    exact .inl rfl
  · rw [if_neg hthere]
    cases hwrite : w.writeText (w.herePath.join ⟨Config.fileName⟩) Config.defaultText with
    | error cause => exact .inl rfl
    | ok v =>
        right
        obtain ⟨l, hl, hd, rfl⟩ := put_ok hwrite
        have hfree := exists?_eq_false (by simpa using hthere) hl
        refine ⟨l, hl, hfree, putAt_set hd ?_⟩
        rw [hfree]

/-- A migration writes to the files that the dry run shows. -/
theorem reach_subset_announced {o : Options} {p : Project} {t : Float}
    (hload : Project.load w o.project = .ok p) (ht : thresholdFor o p = .ok t) :
    (migrationSettings p).reach (select (p.suggestions t) o.keys).1 ⊆ announcedFiles w o := by
  have hdry : dryRun? w o = some
      ⟨(select (p.suggestions t) o.keys).1, (select (p.suggestions t) o.keys).2,
        sourceFilesOf p.index (select (p.suggestions t) o.keys).1, p.catalogs.length, none,
        none⟩ := by
    have ht' : thresholdFor { o with apply := false } p = .ok t := ht
    have hload' : Project.load w ({ o with apply := false } : Options).project = .ok p := hload
    unfold dryRun? runApply
    rw [hload']
    dsimp only
    rw [ht']
    rfl
  rw [announcedFiles, hload, hdry]
  intro q hq
  rcases List.mem_append.mp hq with hq | hq
  · obtain ⟨x, hx, hq⟩ := List.mem_flatMap.mp hq
    obtain ⟨file, hfile, rfl⟩ := List.mem_map.mp hq
    refine List.mem_append_right _ (List.mem_map.mpr ⟨file, ?_, ?_⟩)
    · rw [sourceFilesOf, NameSet.mem_ofNames_iff, List.mem_flatMap]
      rw [NameSet.mem_ofNames_iff] at hfile
      exact ⟨x, hx, hfile⟩
    · exact (Migration.resolve_eq_join rfl file).symm
  · exact List.mem_append_left _ hq

theorem writesOnly_of_tracked {files copies : List Path}
    (h : Migration.Tracked w v files copies) : WritesOnly w v files where
  kept := h.kept
  present := h.keeps.present
  new := by
    intro l hfree htaken
    obtain ⟨q, hq, hl⟩ := h.added l hfree htaken
    obtain ⟨p, hp, hbeside⟩ := h.beside q hq
    exact ⟨p, hp, q, hbeside, hl⟩
  sibling := by
    intro hproper hclock l hfree htaken
    obtain ⟨q, hq, hl⟩ := h.added l hfree htaken
    obtain ⟨p, hp, hbeside⟩ := h.beside q hq
    obtain ⟨dir, name, stamp, hfile, hcopy⟩ := hbeside.sibling hproper hclock hl
    exact ⟨p, hp, dir, name, stamp, hfile, hcopy⟩

/-- **APPLYING** writes no file but those announced. -/
theorem apply_writesOnly (w : Workspace) (o : Options) :
    WritesOnly w (filesAfter w (.project .apply o)) (announcedFiles w o) := by
  unfold filesAfter run? runApply
  dsimp only
  cases hload : Project.load w o.project with
  | error fault => exact WritesOnly.refl w _
  | ok p =>
      dsimp only
      cases ht : thresholdFor o p with
      | error fault => exact WritesOnly.refl w _
      | ok t =>
          dsimp only
          split
          · next happlied =>
            split at happlied
            · cases happlied
              exact writesOnly_of_tracked ((Migration.run_tracked (migrationSettings p) w
                (p.keyStore w) _).mono (reach_subset_announced hload ht))
            · cases happlied
              exact WritesOnly.refl w _
          · exact WritesOnly.refl w _

/-- Without `--apply` nothing is written. -/
theorem apply_dry (w : Workspace) {o : Options} (ho : o.apply = false) :
    filesAfter w (.project .apply o) = w := by
  unfold filesAfter run? runApply
  dsimp only
  cases Project.load w o.project with
  | error fault => rfl
  | ok p =>
      dsimp only
      cases thresholdFor o p with
      | error fault => rfl
      | ok t =>
          dsimp only
          rw [ho, Bool.false_and, if_neg Bool.false_ne_true]

/-- **WRITES AS ANNOUNCED**: whatever the files are, a command line does to them no more than
    it announces. -/
theorem writes_announced (w : Workspace) (a : Arguments) : Announced w (filesAfter w a) a := by
  cases a with
  | nothing => rfl
  | init => exact init_creates w
  | project verb o =>
      cases verb with
      | scan =>
          show filesAfter w (.project .scan o) = w
          unfold filesAfter run? runScan
          dsimp only
          cases Project.load w o.project with
          | error fault => rfl
          | ok p => rfl
      | suggest =>
          show filesAfter w (.project .suggest o) = w
          unfold filesAfter run? runSuggest
          dsimp only
          cases Project.load w o.project with
          | error fault => rfl
          | ok p =>
              dsimp only
              cases thresholdFor o p with
              | error fault => rfl
              | ok t => rfl
      | apply =>
          show if o.apply then _ else _
          split
          · exact apply_writesOnly w o
          · next ho => exact apply_dry w (by simpa using ho)

end MessageKeys.Command
