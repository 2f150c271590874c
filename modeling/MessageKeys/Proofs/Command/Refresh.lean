import MessageKeys.Command.Run
import MessageKeys.Proofs.Migration.Modified
import MessageKeys.Proofs.Selection
import MessageKeys.Proofs.SourceFiles
import MessageKeys.Proofs.Suggestion

/-! # Refreshing after `apply` — the index that is kept against loading the project anew

    After a migration only the files that it reports as modified are read again.  Since a
    migration adds nothing but backups, the source files are the same as before, and the
    index that is kept is the one of a fresh load exactly if every source file that is not
    read again has the sites it had.

    That is so if no source file goes by two names: a failed suggestion is undone, an applied
    one reports all it wrote, and catalogs are no source files.  If a file goes by two names,
    it is reported and read again under one of them only. -/

namespace MessageKeys

open Workspace

/-! ## What is read again -/

namespace Project

/-- The names of the source files. -/
def sourceNames (p : Project) (w : Workspace) : List String :=
  (p.config.selection.collect w p.sourceDirectory).files

/-- The index of source files as they are. -/
def indexOf (p : Project) (w : Workspace) (names : List String) : Reference.Index :=
  Reference.Index.ofSources p.table (SourceFiles.read w p.sourceDirectory false names).files

/-- The index that loading the project anew gives. -/
def freshIndex (p : Project) (w : Workspace) : Reference.Index := p.indexOf w (p.sourceNames w)

/-- The index that is kept after a migration: the loaded one if nothing was written. -/
def keptIndex (p : Project) (w : Workspace) (o : Outcome) : Reference.Index :=
  match o.rescan? with
  | none => p.index
  | some changed => (p.refresh w changed).index

/-- The names of the source files that are read again. -/
def namesReread (p : Project) (o : Outcome) : List String := o.modified.filterMap p.sourceName?

variable {w v : Workspace} {a : ProjectArguments} {p : Project}

theorem index_of_load (h : load w a = .ok p) : p.index = p.freshIndex w := by
  unfold load at h
  dsimp only at h
  split at h
  · cases h
  · split at h
    · cases h
    · split at h
      · cases h
      · cases h
        rfl

theorem keptIndex_eq (p : Project) (w : Workspace) (o : Outcome) :
    p.keptIndex w o = p.index.follow p.table
      (SourceFiles.read w p.sourceDirectory false (p.namesReread o)).files
      ((SourceFiles.read w p.sourceDirectory false (p.namesReread o)).faults.map ScanFault.path) := by
  rw [keptIndex, namesReread, Outcome.rescan?]
  split
  · next hnone =>
    split at hnone
    · next hempty =>
      rw [List.isEmpty_iff.mp hempty]
      rfl
    · cases hnone
  · next changed hsome =>
    split at hsome
    · cases hsome
    · cases hsome
      rfl

end Project

/-- What is new after tracked writes are backups. -/
theorem Migration.Tracked.adds {w v : Workspace} {files copies : List Path}
    (h : Migration.Tracked w v files copies) (hw : w.tree.Proper) : Adds w v "bak" where
  keeps := h.keeps
  proper := hw
  added := by
    intro c hfree htaken
    obtain ⟨q, hq, hc⟩ := h.added c hfree htaken
    obtain ⟨_, -, hcoming, -⟩ := h.beside q hq
    obtain ⟨dir, stem, hplace⟩ := hcoming.location hc
    obtain ⟨d, n, rfl, hd, hn, -⟩ := exists_fileName hw hc (by rw [hfree]; rintro ⟨⟩)
    obtain ⟨-, hlast⟩ := List.append_inj' hplace rfl
    cases hlast
    have hname : stem ++ "." ++ "bak" = stem ++ ".bak" := String.append_assoc
    exact ⟨d, stem, by rw [hname], hd, by rw [hname]; exact hn⟩

namespace Command

variable {w : Workspace} {a : ProjectArguments} {p : Project} {t : Float} {xs : List Suggestion}

theorem select_subset (suggestions : List Suggestion) (keys : List String) :
    (select suggestions keys).1 ⊆ suggestions := by
  rw [select]
  split
  · exact List.Subset.refl _
  · exact fun _ hx => (List.mem_filter.mp hx).1

/-- The files of a suggestion are source files of the project. -/
theorem mem_names_of_suggested (hindex : p.index = p.freshIndex w) {x : Suggestion}
    (hx : x ∈ p.suggestions t) {name : String}
    (hname : name ∈ (NameSet.ofNames (x.files ++ p.index.filesOf x.key)).names) :
    name ∈ p.sourceNames w := by
  have hsite : ∃ site ∈ p.index.usages x.key, site.file = name := by
    rw [NameSet.mem_ofNames_iff] at hname
    rcases List.mem_append.mp hname with hfile | hfile
    · exact Suggestion.exists_site_of_mem_files hx hfile
    · exact List.mem_map.mp ((NameSet.mem_ofNames_iff _ _).mp hfile)
  obtain ⟨site, hsite, rfl⟩ := hsite
  rw [hindex] at hsite
  exact (SourceFiles.exists_text_of_mem_usages
    (p.config.selection.nodup_collect w p.sourceDirectory) hsite).1

/-- A migration writes to source files and catalogs of the project. -/
theorem mem_reach (hindex : p.index = p.freshIndex w) (hxs : xs ⊆ p.suggestions t) {q : Path}
    (hq : q ∈ (migrationSettings p).reach xs) :
    (∃ name ∈ p.sourceNames w, q = p.sourceDirectory.join ⟨name⟩) ∨ q ∈ p.catalogPaths := by
  refine (List.mem_append.mp hq).imp_left fun hq => ?_
  obtain ⟨x, hx, hq⟩ := List.mem_flatMap.mp hq
  obtain ⟨name, hname, rfl⟩ := List.mem_map.mp hq
  exact ⟨name, mem_names_of_suggested hindex (hxs hx) hname, Migration.resolve_eq_join rfl name⟩

/-- The sources of a suggestion are separate if no source file goes by two names. -/
theorem separate_of_apart (hindex : p.index = p.freshIndex w)
    (hapart : p.config.selection.Apart w p.sourceDirectory) {x : Suggestion}
    (hx : x ∈ p.suggestions t) : Migration.Separate (migrationSettings p) w x := by
  have hresolve := Migration.resolve_eq_join (s := migrationSettings p) rfl
  constructor
  · have hnodup := List.nodup_iff_pairwise_ne.mp
      (Dictionary.nodup_names (NameSet.ofNames (x.files ++ p.index.filesOf x.key)))
    refine List.pairwise_map.mpr (hnodup.imp_of_mem ?_)
    intro m n hm hn hne l hml hnl
    rw [hresolve] at hml hnl
    exact hne (hapart m (mem_names_of_suggested hindex hx hm) n
      (mem_names_of_suggested hindex hx hn) l hml hnl)
  · intro q hq l hl hfree
    obtain ⟨name, hname, rfl⟩ := List.mem_map.mp hq
    rw [hresolve] at hl
    obtain ⟨bytes, readOnly, hheld⟩ := p.config.selection.taken_of_mem_collect
      (mem_names_of_suggested hindex hx hname) hl
    rw [hfree] at hheld
    cases hheld

/-! ## A migration -/

section Migrated

variable (hindex : p.index = p.freshIndex w) (hproper : w.tree.Proper)
  (hbak : "bak" ∉ p.config.selection.extensions)
  (hcatalogs : ∀ q ∈ p.catalogPaths, p.config.selection.hasSourceExtension q = false)
  (hxs : xs ⊆ p.suggestions t)

include hindex hcatalogs hxs in
/-- What is read again are source files: those that are reported as modified. -/
theorem mem_namesReread {name : String} :
    name ∈ p.namesReread (migrate w p xs).1 ↔ name ∈ p.sourceNames w ∧
      ∃ q ∈ (migrate w p xs).1.modified, p.sourceName? q = some name := by
  rw [Project.namesReread, List.mem_filterMap]
  refine (and_iff_right_of_imp ?_).symm
  rintro ⟨q, hq, hname⟩
  rw [Project.sourceName?] at hname
  split at hname
  · next hsource =>
    rcases mem_reach hindex hxs (Migration.modified_subset_reach _ w _ xs hq) with
      ⟨other, hother, rfl⟩ | hcatalog
    · rw [(p.config.selection.name_of_mem_collect hother).2] at hname
      cases hname
      exact hother
    · rw [hcatalogs q hcatalog] at hsource
      cases hsource
  · cases hname

include hindex hproper hcatalogs hxs in
/-- Where no source file goes by two names, those that are not read again are as they were. -/
theorem textOf?_of_not_reread (hapart : p.config.selection.Apart w p.sourceDirectory)
    {name : String} (hname : name ∈ p.sourceNames w)
    (hother : name ∉ p.namesReread (migrate w p xs).1) :
    SourceFiles.textOf? w p.sourceDirectory name
      = SourceFiles.textOf? (migrate w p xs).2.2 p.sourceDirectory name := by
  have hreported := Migration.run_reported (migrationSettings p) w (p.keyStore w) xs
    fun x hx => separate_of_apart hindex hapart (hxs hx)
  refine SourceFiles.textOf?_of_sameAt hreported.keeps.toLater fun l hl => ?_
  obtain ⟨bytes, readOnly, hheld⟩ := p.config.selection.taken_of_mem_collect hname hl
  obtain ⟨hsource, hrelative⟩ := p.config.selection.name_of_mem_collect hname
  rw [hheld]
  refine hreported.kept l _ hheld fun q hq hql => ?_
  rcases mem_reach hindex hxs (Migration.modified_subset_reach _ w _ xs hq) with
    ⟨other, hother', rfl⟩ | hcatalog
  · -- the same source file, by the same name
    cases hapart other hother' name hname l hql hl
    refine hother (List.mem_filterMap.mpr ⟨_, hq, ?_⟩)
    rw [Project.sourceName?, if_pos hsource, hrelative]
  · -- a catalog, which has another extension
    have hfile : w.tree.get? l ≠ some .directory := by
      rw [hheld]
      rintro ⟨⟩
    obtain ⟨d, n, hplace, -, -, hn⟩ := exists_fileName hproper hl hfile
    obtain ⟨d', n', hplace', -, -, hn'⟩ := exists_fileName hproper hql hfile
    obtain ⟨-, hlast⟩ := List.append_inj' (hplace.symm.trans hplace') rfl
    cases hlast
    rw [p.config.selection.hasSourceExtension_congr (hn.trans hn'.symm),
      hcatalogs q hcatalog] at hsource
    cases hsource

include hproper hbak in
/-- The source files are those that were there before. -/
theorem sourceNames_migrate : p.sourceNames (migrate w p xs).2.2 = p.sourceNames w :=
  p.config.selection.collect_of_adds
    ((Migration.run_tracked (migrationSettings p) w (p.keyStore w) xs).adds hproper) (by decide)
    hbak p.sourceDirectory

include hindex hproper hbak hcatalogs hxs in
/-- The index that is kept is the one of a fresh load exactly if every source file that is
    not read again has the sites it had. -/
theorem keptIndex_eq_freshIndex_iff :
    p.keptIndex (migrate w p xs).2.2 (migrate w p xs).1 = p.freshIndex (migrate w p xs).2.2 ↔
      ∀ name ∈ p.sourceNames w, name ∉ p.namesReread (migrate w p xs).1 →
        p.indexOf w [name] = p.indexOf (migrate w p xs).2.2 [name] := by
  rw [Project.keptIndex_eq, hindex, Project.freshIndex, Project.freshIndex,
    sourceNames_migrate hproper hbak]
  exact SourceFiles.follow_eq_iff (p.config.selection.nodup_collect w p.sourceDirectory)
    fun name hname => ((mem_namesReread hindex hcatalogs hxs).mp hname).1

end Migrated

/-- The index that is kept after a migration, against the one of a fresh load. -/
structure KeptAgainstFresh (w : Workspace) (p : Project) (xs : List Suggestion) : Prop where
  /-- They are the same exactly if every source file that is not read again has the sites it
      had. -/
  same_iff : p.keptIndex (migrate w p xs).2.2 (migrate w p xs).1 = p.freshIndex (migrate w p xs).2.2 ↔
    ∀ name ∈ p.sourceNames w, name ∉ p.namesReread (migrate w p xs).1 →
      p.indexOf w [name] = p.indexOf (migrate w p xs).2.2 [name]
  /-- They are the same if no source file goes by two names, and then the number of keys that is
      reported is the one of a fresh load. -/
  same : p.config.selection.Apart w p.sourceDirectory →
    p.keptIndex (migrate w p xs).2.2 (migrate w p xs).1 = p.freshIndex (migrate w p xs).2.2 ∧
      ∀ n, (migrate w p xs).2.1 = some n → n = (p.freshIndex (migrate w p xs).2.2).keys.length
  /-- No source file goes by two names where the source directory has a path, and the includes
      are no patterns and do not go up. -/
  plain : p.sourceDirectory.text ≠ "" →
    (∀ part ∈ p.config.selection.includes,
      Glob.isPattern part = false ∧ ".." ∉ Text.split '/' part) →
    p.config.selection.Apart w p.sourceDirectory

/-- **THE INDEX AFTER `apply`**: however many of its suggestions fail, it is the index of a fresh
    load as far as no source file goes by two names. -/
theorem kept_index_against_fresh_load (hload : Project.load w a = .ok p)
    (hproper : w.tree.Proper) (hbak : "bak" ∉ p.config.selection.extensions)
    (hcatalogs : ∀ q ∈ p.catalogPaths, p.config.selection.hasSourceExtension q = false)
    (t : Float) (keys : List String) :
    KeptAgainstFresh w p (select (p.suggestions t) keys).1 := by
  have hindex := Project.index_of_load hload
  have hxs := select_subset (p.suggestions t) keys
  have hiff := keptIndex_eq_freshIndex_iff hindex hproper hbak hcatalogs hxs
  refine ⟨hiff, fun hapart => ?_, p.config.selection.apart_of_plain hproper⟩
  have hsame := hiff.mpr fun name hname hother => SourceFiles.ofSources_congr
    (textOf?_of_not_reread hindex hproper hcatalogs hxs hapart hname hother)
  refine ⟨hsame, fun n hn => ?_⟩
  obtain ⟨changed, hchanged, rfl⟩ := Option.map_eq_some_iff.mp hn
  rw [← hsame, Project.keptIndex]
  unfold migrate
  rw [hchanged]

/-- A project with its settings left as they are. -/
def sampleFiles : Workspace where
  tree := ⟨[(["messages"], .directory),
    (["messages", "en.json"], .file "\x7b\"hello\": \"Hello\"\x7d".toUTF8 false),
    (["src"], .directory), (["src", "routes"], .directory), (["src", "routes", "home"], .directory),
    (["src", "routes", "home", "a.svelte"], .file "m.hello()".toUTF8 false)]⟩
  here := []
  clock := fun _ => "T"
  ticks := 0

/-- The key moves to the namespace of its one source file, and what is kept in the index is
    what a fresh load would find. -/
theorem kept_index_against_fresh_load_sample :
    ∃ p, Project.load sampleFiles ⟨none, none, none⟩ = .ok p ∧
      p.sourceNames sampleFiles = ["src/routes/home/a.svelte"] ∧
      (migrate sampleFiles p (select (p.suggestions 0.6) []).1).1.applied.map (·.newKey)
        = ["home.hello"] ∧
      p.keptIndex (migrate sampleFiles p (select (p.suggestions 0.6) []).1).2.2
          (migrate sampleFiles p (select (p.suggestions 0.6) []).1).1
        = p.freshIndex (migrate sampleFiles p (select (p.suggestions 0.6) []).1).2.2 := by
  have hloaded : (Project.load sampleFiles ⟨none, none, none⟩).toOption.map (fun p =>
      (p.config.selection, p.catalogPaths, p.sourceDirectory))
        = some (Config.default.selection, [⟨"/messages/en.json"⟩], ⟨"/"⟩) := by
    decide +kernel
  have happlied : (Project.load sampleFiles ⟨none, none, none⟩).toOption.map (fun p =>
      (migrate sampleFiles p (select (p.suggestions 0.6) []).1).1.applied.map (·.newKey))
        = some ["home.hello"] := by
    decide +kernel
  obtain ⟨p, hp, hparts⟩ := Option.map_eq_some_iff.mp hloaded
  rw [hp] at happlied
  obtain ⟨hselection, hrest⟩ := Prod.mk.inj hparts
  obtain ⟨hcatalogs, hdirectory⟩ := Prod.mk.inj hrest
  have hload := SourceFiles.toOption_eq_some_iff.mp hp
  have hproper : sampleFiles.tree.Proper := FileTree.proper_of_entries (by decide +kernel)
  refine ⟨p, hload, ?_, Option.some.inj happlied, ?_⟩
  · rw [Project.sourceNames, hselection, hdirectory]
    decide +kernel
  · have hkept := kept_index_against_fresh_load hload hproper (by rw [hselection]; decide)
      (by rw [hselection, hcatalogs]; decide +kernel) 0.6 []
    exact (hkept.same (hkept.plain (by rw [hdirectory]; decide)
      (by rw [hselection]; decide +kernel))).1

end Command

end MessageKeys
