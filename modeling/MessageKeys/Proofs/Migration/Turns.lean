import MessageKeys.Proofs.Catalog.File
import MessageKeys.Proofs.Migration.Course

/-! # The turns of sources and catalogs

    The two loops of a suggestion are courses.  A source that is read is changed to its text
    with the references renamed, if there are any (`Turn.Renames`).  A catalog has one of
    three fates on its turn, and only if its message moved it was changed (`Turn.Fate`); the
    faults are the issues, in order. -/

namespace MessageKeys.Migration

open Workspace

variable {w : Workspace} {turns : List Turn} {p q : Trail}

/-! ## Sources -/

/-- The source was read, and what was written, if anything, is its text with the references
    renamed. -/
def Turn.Renames (r : Reference.Renaming) (t : Turn) : Prop :=
  ∃ text, t.found.readText t.file = .ok text ∧ t.change.map (·.2) = r.applyTo? text

/-- What a source file becomes on its turn. -/
theorem applyToFile_turn {r : Reference.Renaming} {v : Workspace} {file : Path}
    {written : Option (Backup × Workspace)} (h : r.applyToFile v file = .ok written) :
    ∃ text, v.readText file = .ok text ∧
      ((written = none ∧ r.applyTo? text = none) ∨
        ∃ copy u new l c bytes, written = some (⟨file, copy⟩, u) ∧ r.applyTo? text = some new ∧
          GuardedWrite v u ⟨file, copy⟩ new l c bytes) := by
  rw [Reference.Renaming.applyToFile] at h
  split at h
  · cases h
  · next text hread =>
    refine ⟨text, hread, ?_⟩
    split at h
    · next hnone =>
      cases h
      exact .inl ⟨rfl, hnone⟩
    · next new hnew =>
      cases hwrite : writeWithBackup v file new with
      | error fault => rw [hwrite] at h; cases h
      | ok made =>
          obtain ⟨⟨original, copy⟩, u⟩ := made
          rw [hwrite] at h
          cases h
          obtain ⟨hfile, l, c, bytes, hguarded⟩ := writeWithBackup_ok hwrite
          cases hfile
          exact .inr ⟨copy, u, new, l, c, bytes, rfl, hnew, hguarded⟩

/-- **SOURCES TAKE TURNS**, up to the one that stops the suggestion, and each of them is
    renamed on its turn. -/
theorem renameInSources_course (r : Reference.Renaming) (files : List Path)
    {fault? : Option SourceFault} (h : renameInSources r files p = (q, fault?))
    (hc : Course w turns p.workspace) :
    ∃ more, Course w (turns ++ more) q.workspace ∧ more.map Turn.file <+: files ∧
      q.sources = p.sources ++ made more ∧ (∀ t ∈ more, t.Renames r) ∧
      (fault? = none → more.map Turn.file = files) := by
  induction files generalizing p turns with
  | nil =>
      cases h
      refine ⟨[], ?_, List.nil_prefix, (List.append_nil _).symm,
        fun _ ht => absurd ht List.not_mem_nil, fun _ => rfl⟩
      rw [List.append_nil]
      exact hc
  | cons file rest ih =>
      rw [renameInSources] at h
      -- the turn of the first file is put in front of those of the rest
      have hcons : ∀ (t : Turn) (p' : Trail), renameInSources r rest p' = (q, fault?) →
          Course w (turns ++ [t]) p'.workspace → t.file = file → t.Renames r →
          p'.sources = p.sources ++ made [t] →
          ∃ more, Course w (turns ++ more) q.workspace ∧ more.map Turn.file <+: file :: rest ∧
            q.sources = p.sources ++ made more ∧ (∀ t ∈ more, t.Renames r) ∧
            (fault? = none → more.map Turn.file = file :: rest) := by
        intro t p' hrest hcourse hfile hrenames hsources
        obtain ⟨more, hmore, hfiles, hmade, hall, hdone⟩ := ih hrest hcourse
        refine ⟨t :: more, ?_, ?_, ?_, List.forall_mem_cons.mpr ⟨hrenames, hall⟩, ?_⟩
        · rw [List.append_assoc] at hmore
          exact hmore
        · rw [List.map_cons]
          exact List.cons_prefix_cons.mpr ⟨hfile, hfiles⟩
        · rw [hmade, hsources, List.append_assoc, ← made_append]
          rfl
        · intro hnone
          rw [List.map_cons, hfile, hdone hnone]
      split at h
      · cases h
        refine ⟨[], ?_, List.nil_prefix, (List.append_nil _).symm,
          fun _ ht => absurd ht List.not_mem_nil, by rintro ⟨⟩⟩
        rw [List.append_nil]
        exact hc
      · next hnone =>
        obtain ⟨text, hread, ⟨-, hsame⟩ | ⟨_, _, _, _, _, _, he, -⟩⟩ := applyToFile_turn hnone
        · exact hcons ⟨file, p.workspace, none⟩ p h (hc.passed file) rfl
            ⟨text, hread, hsame.symm⟩ (List.append_nil _).symm
        · cases he
      · next b u hsome =>
        obtain ⟨text, hread, ⟨he, -⟩ | ⟨copy, _, new, l, c, bytes, he, hnew, hw⟩⟩ :=
          applyToFile_turn hsome
        · cases he
        · cases he
          exact hcons ⟨file, p.workspace, some (copy, new)⟩ _ h (hc.changed hw) rfl
            ⟨text, hread, hnew.symm⟩ rfl

/-! ## Catalogs -/

/-- What became of a catalog on its turn. -/
inductive Turn.Fate (source target : String) (t : Turn) : Prop where
  | moved {copy : Path} {next : Catalog} :
      Catalog.Movable t.found t.found t.file source target next →
      t.change = some (copy, next.render) → Fate source target t
  | lacking : Catalog.Lacks t.found t.file source → t.change = none → Fate source target t
  | failed {fault : CatalogFault} :
      Catalog.moveInFile t.found t.file source target = .error fault → t.change = none →
      Fate source target t

/-- The issue that is noted on the turn of a catalog. -/
def Turn.issue? (source target : String) (t : Turn) : Option Issue :=
  match Catalog.moveInFile t.found t.file source target with
  | .error fault => some ⟨t.file, fault⟩
  | .ok _ => none

theorem Turn.issue?_eq_some {source target : String} {t : Turn} {issue : Issue} :
    t.issue? source target = some issue ↔ issue.path = t.file ∧
      Catalog.moveInFile t.found t.file source target = .error issue.fault := by
  obtain ⟨path, fault⟩ := issue
  rw [Turn.issue?]
  cases Catalog.moveInFile t.found t.file source target with
  | error fault' => simp [eq_comm]
  | ok written => simp

section

variable {source target : String} {t : Turn}

/-- A movable catalog was changed to the moved one. -/
theorem Turn.Fate.change_of_movable (h : t.Fate source target) (hlater : Later w t.found)
    (hsame : SameAt w t.found t.file) {next : Catalog}
    (hnext : Catalog.Movable w t.found t.file source target next) :
    ∃ copy, t.change = some (copy, next.render) := by
  have hfound := (Catalog.Movable.of_same hlater hsame).mpr hnext
  cases h with
  | @moved copy _ hmoved hchange =>
      rw [hmoved.unique hfound] at hchange
      exact ⟨copy, hchange⟩
  | lacking hlacks => exact absurd hlacks hfound.not_lacks
  | failed hfault => exact absurd hfound ((Catalog.exists_fault_iff.mp ⟨_, hfault⟩).1 next)

/-- One that was changed was movable. -/
theorem Turn.Fate.movable_of_change (h : t.Fate source target) (hlater : Later w t.found)
    (hsame : SameAt w t.found t.file) {change : Path × String} (hchange : t.change = some change) :
    ∃ next, Catalog.Movable w t.found t.file source target next := by
  cases h with
  | @moved _ next hmoved => exact ⟨next, (Catalog.Movable.of_same hlater hsame).mp hmoved⟩
  | lacking _ hnone =>
      rw [hnone] at hchange
      cases hchange
  | failed _ hnone =>
      rw [hnone] at hchange
      cases hchange

/-- An issue is noted for those that can neither be moved nor lack the message. -/
theorem Turn.exists_issue_iff (hlater : Later w t.found) (hsame : SameAt w t.found t.file) :
    (∃ issue, t.issue? source target = some issue) ↔
      (∀ next, ¬ Catalog.Movable w t.found t.file source target next) ∧
        ¬ Catalog.Lacks w t.file source := by
  have hfaults : (∃ fault, Catalog.moveInFile t.found t.file source target = .error fault) ↔ _ :=
    Catalog.exists_fault_iff
  simp only [Catalog.Movable.of_same hlater hsame, Catalog.Lacks.of_same hlater hsame] at hfaults
  rw [← hfaults]
  constructor
  · rintro ⟨issue, hissue⟩
    exact ⟨issue.fault, (Turn.issue?_eq_some.mp hissue).2⟩
  · rintro ⟨fault, hfault⟩
    exact ⟨⟨t.file, fault⟩, Turn.issue?_eq_some.mpr ⟨rfl, hfault⟩⟩

end

/-- **CATALOGS TAKE TURNS**: each of them meets its fate in the workspace that the catalogs
    before it leave. -/
theorem moveInFiles_course (source target : String) (files : List Path)
    (hc : Course w turns p.workspace) :
    ∃ more, Course w (turns ++ more) (moveInFiles source target files p).workspace ∧
      more.map Turn.file = files ∧
      (moveInFiles source target files p).catalogs = p.catalogs ++ made more ∧
      (moveInFiles source target files p).issues
        = p.issues ++ more.filterMap (Turn.issue? source target) ∧
      ∀ t ∈ more, t.Fate source target ∧ ∃ before after, files = before ++ t.file :: after ∧
        t.found = (moveInFiles source target before p).workspace := by
  induction files generalizing p turns with
  | nil =>
      refine ⟨[], ?_, rfl, (List.append_nil _).symm, (List.append_nil _).symm,
        fun _ ht => absurd ht List.not_mem_nil⟩
      rw [List.append_nil]
      exact hc
  | cons file rest ih =>
      -- the turn of the first file is put in front of those of the rest
      have hcons : ∀ (t : Turn) (p' : Trail),
          (∀ fs, moveInFiles source target (file :: fs) p = moveInFiles source target fs p') →
          Course w (turns ++ [t]) p'.workspace → t.file = file → t.found = p.workspace →
          t.Fate source target → p'.catalogs = p.catalogs ++ made [t] →
          p'.issues = p.issues ++ (t.issue? source target).toList →
          ∃ more, Course w (turns ++ more)
              (moveInFiles source target (file :: rest) p).workspace ∧
            more.map Turn.file = file :: rest ∧
            (moveInFiles source target (file :: rest) p).catalogs = p.catalogs ++ made more ∧
            (moveInFiles source target (file :: rest) p).issues
              = p.issues ++ more.filterMap (Turn.issue? source target) ∧
            ∀ t ∈ more, t.Fate source target ∧
              ∃ before after, file :: rest = before ++ t.file :: after ∧
                t.found = (moveInFiles source target before p).workspace := by
        intro t p' hstep hcourse hfile hfound hfate hcatalogs hissues
        obtain ⟨more, hmore, hmap, hmade, hnoted, hall⟩ := ih hcourse
        rw [hstep rest]
        refine ⟨t :: more, ?_, by rw [List.map_cons, hfile, hmap], ?_, ?_,
          List.forall_mem_cons.mpr ⟨⟨hfate, [], rest, by rw [hfile]; rfl, hfound⟩, ?_⟩⟩
        · rw [List.append_assoc] at hmore
          exact hmore
        · rw [hmade, hcatalogs, List.append_assoc, ← made_append]
          rfl
        · rw [hnoted, hissues, List.append_assoc]
          refine congrArg (p.issues ++ ·) ?_
          cases hissue : t.issue? source target with
          | none => rw [List.filterMap_cons_none hissue]; rfl
          | some issue => rw [List.filterMap_cons_some hissue]; rfl
        · intro t' ht'
          obtain ⟨hfate', before, after, hrest, hfound'⟩ := hall t' ht'
          exact ⟨hfate', file :: before, after, by rw [hrest]; rfl, by rw [hstep, hfound']⟩
      cases hmove : Catalog.moveInFile p.workspace file source target with
      | error fault =>
          have hissue : Turn.issue? source target ⟨file, p.workspace, none⟩
              = some ⟨file, fault⟩ := Turn.issue?_eq_some.mpr ⟨rfl, hmove⟩
          refine hcons ⟨file, p.workspace, none⟩
            { p with issues := p.issues ++ [⟨file, fault⟩] } ?_ (hc.passed file) rfl rfl
            (.failed hmove rfl) (List.append_nil _).symm ?_
          · intro fs
            rw [moveInFiles, hmove]
          · rw [hissue]
            rfl
      | ok written =>
          have hissue : ∀ change, Turn.issue? source target ⟨file, p.workspace, change⟩ = none := by
            intro change
            rw [Turn.issue?]
            dsimp only
            rw [hmove]
          cases written with
          | none =>
              refine hcons ⟨file, p.workspace, none⟩ p ?_ (hc.passed file) rfl rfl
                (.lacking (Catalog.moveInFile_eq_none.mp hmove) rfl) (List.append_nil _).symm ?_
              · intro fs
                rw [moveInFiles, hmove]
              · rw [hissue]
                exact (List.append_nil _).symm
          | some written =>
              obtain ⟨⟨original, copy⟩, u⟩ := written
              obtain ⟨next, hmovable, hfile, l, d, bytes, hw⟩ := Catalog.moveInFile_eq_some hmove
              obtain rfl : file = original := hfile.symm
              refine hcons ⟨file, p.workspace, some (copy, next.render)⟩
                { p with workspace := u, catalogs := p.catalogs ++ [⟨file, copy⟩] } ?_
                (hc.changed hw) rfl rfl (.moved hmovable rfl) rfl ?_
              · intro fs
                rw [moveInFiles, hmove]
              · rw [hissue]
                exact (List.append_nil _).symm

/-! ## The turns of an applied suggestion -/

/-- The renaming of a suggestion in its sources. -/
def Settings.renaming (s : Settings) (x : Suggestion) : Reference.Renaming :=
  .ofKeys s.accessor x.key x.newKey

/-- The turns behind the trail of an applied suggestion: its sources, then its catalogs. -/
structure Taken (s : Settings) (x : Suggestion) (w : Workspace) (p : Trail)
    (sources catalogs : List Turn) : Prop where
  course : Course w (sources ++ catalogs) p.workspace
  source_files : sources.map Turn.file = s.sourceFiles x
  catalog_files : catalogs.map Turn.file = s.catalogs
  backups : p.backups = made (sources ++ catalogs)
  issues : p.issues = catalogs.filterMap (Turn.issue? x.key x.newKey)
  some_made : made catalogs ≠ []
  renames : ∀ t ∈ sources, t.Renames (s.renaming x)
  fate : ∀ t ∈ catalogs, t.Fate x.key x.newKey ∧
    ∃ before after, s.catalogs = before ++ t.file :: after ∧
      t.found
        = (moveInFiles x.key x.newKey before (afterSources s x w p.store).1).workspace

/-- **AN APPLIED SUGGESTION TAKES TURNS**, after its key was renamed in the store. -/
theorem attempt_taken {s : Settings} {x : Suggestion} {store : KeyStore} {p : Trail}
    (h : attempt s x (Trail.start w store) = (p, none)) :
    (x.key ≠ x.newKey ∧ ∃ moved, store.rename x.key x.newKey = .ok (moved, p.store)) ∧
      ∃ sources catalogs, Taken s x w p sources catalogs := by
  rcases attempt_cases s x w store with ⟨_, hrefused⟩ | ⟨moved, store', hne, hrename, hways⟩
  · rw [hrefused] at h
    cases h
  · rcases hways with ⟨q, fault, -, hattempt⟩ | ⟨q, hq, ⟨-, _, hattempt⟩ | ⟨hsome, hattempt⟩⟩
    · rw [hattempt] at h
      cases h
    · rw [hattempt] at h
      cases h
    · rw [hattempt] at h
      cases h
      obtain ⟨hstore, -, hnone⟩ := afterSources_frame s x w store'
      have hnoted : (afterSources s x w store').1.issues = [] :=
        renameInSources_issues _ _ (Trail.renamedIn w store')
      obtain ⟨hstore', -, hsources'⟩ := moveInFiles_frame x.key x.newKey s.catalogs q
      rw [hq] at hstore hnone hnoted
      obtain ⟨sources, hcourse, -, hmade, hrenames, hfiles⟩ :=
        renameInSources_course (s.renaming x) (s.sourceFiles x) hq Course.start
      obtain ⟨catalogs, hcourse', hfiles', hmade', hissues, hfate⟩ :=
        moveInFiles_course x.key x.newKey s.catalogs hcourse
      rw [hnone, List.nil_append] at hmade'
      rw [hnoted, List.nil_append] at hissues
      refine ⟨⟨hne, moved, by rw [hstore', hstore, hrename]⟩, sources, catalogs, ?_⟩
      refine
        { course := hcourse'
          source_files := hfiles rfl
          catalog_files := hfiles'
          backups := ?_
          issues := hissues
          some_made := hmade' ▸ hsome
          renames := hrenames
          fate := ?_ }
      · rw [Trail.backups, hsources', hmade, hmade', made_append]
        rfl
      · rw [hstore', hstore, hq]
        exact hfate

end MessageKeys.Migration
