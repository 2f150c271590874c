import MessageKeys.Proofs.Reference.Index
import MessageKeys.Proofs.Workspace
import MessageKeys.Selection

/-! # Source files — reading changed files again against reading all of them

    What reading finds is told name by name (`SourceFiles.textOf?`).  An index that followed
    changed files is the index of all files as they are now exactly if none of the files that
    were not read again has other sites than before (`follow_eq_iff`). -/

namespace MessageKeys

open Reference (Index Site Source Pattern scan)

namespace SourceFiles

variable {w v : Workspace} {base : Path} {names : List String} {name : String}

/-! ## What is read -/

/-- The text of a file below a base directory, if it can be read. -/
def textOf? (w : Workspace) (base : Path) (name : String) : Option String :=
  (readOne w base name).toOption.map Source.text

theorem toOption_eq_some_iff {ε α : Type} {x : Except ε α} {a : α} :
    x.toOption = some a ↔ x = .ok a := by
  cases x with
  | error e => exact iff_of_false (by rintro ⟨⟩) (by rintro ⟨⟩)
  | ok b => exact ⟨fun h => congrArg _ (Option.some.inj h), fun h => congrArg _ (Except.ok.inj h)⟩

theorem readOne_eq_ok {source : Source} : readOne w base name = .ok source ↔
    source.path = name ∧ textOf? w base name = some source.text := by
  have hpath : ∀ s, readOne w base name = .ok s → s.path = name := by
    intro s hs
    rw [readOne] at hs
    split at hs
    · cases hs
    · split at hs
      · cases hs
      · cases hs
        rfl
  constructor
  · intro h
    exact ⟨hpath source h, by rw [textOf?, h]; rfl⟩
  · rintro ⟨rfl, htext⟩
    obtain ⟨found, hread, he⟩ := Option.map_eq_some_iff.mp htext
    rw [toOption_eq_some_iff] at hread
    have hfound := hpath found hread
    cases found
    cases source
    cases he
    cases hfound
    exact hread

theorem textOf?_eq_some_iff {text : String} :
    textOf? w base name = some text ↔ w.readText (base.join ⟨name⟩) = .ok text := by
  rw [textOf?, readOne, Workspace.readText]
  cases w.readBytes (base.join ⟨name⟩) with
  | error fault => exact iff_of_false (by rintro ⟨⟩) (by rintro ⟨⟩)
  | ok bytes =>
      dsimp only
      cases String.fromUTF8? bytes with
      | none => exact iff_of_false (by rintro ⟨⟩) (by rintro ⟨⟩)
      | some found =>
          exact ⟨fun h => congrArg _ (Option.some.inj h), fun h => congrArg _ (Except.ok.inj h)⟩

/-- A file whose place is as it was has its text. -/
theorem textOf?_of_sameAt (hlater : Workspace.Later w v)
    (h : Workspace.SameAt w v (base.join ⟨name⟩)) : textOf? w base name = textOf? v base name := by
  refine Option.ext fun text => ?_
  rw [textOf?_eq_some_iff, textOf?_eq_some_iff, h.readText hlater]

theorem files_eq : (read w base false names).files
    = names.filterMap fun name => (readOne w base name).toOption := by
  rw [read]
  dsimp only
  rw [if_neg Bool.false_ne_true, List.filterMap_map]
  rfl

/-- The pairs that are read are the names with their texts. -/
theorem mem_pairs_iff {text : String} : (name, text) ∈ Index.pairs (read w base false names).files ↔
    name ∈ names ∧ textOf? w base name = some text := by
  rw [Index.pairs, files_eq, List.mem_map]
  constructor
  · rintro ⟨source, hsource, he⟩
    obtain ⟨other, hother, hread⟩ := List.mem_filterMap.mp hsource
    cases he
    obtain ⟨rfl, htext⟩ := readOne_eq_ok.mp (toOption_eq_some_iff.mp hread)
    exact ⟨hother, htext⟩
  · rintro ⟨hname, htext⟩
    exact ⟨⟨name, text⟩, List.mem_filterMap.mpr
      ⟨name, hname, toOption_eq_some_iff.mpr (readOne_eq_ok.mpr ⟨rfl, htext⟩)⟩, rfl⟩

theorem get?_read (w : Workspace) (base : Path) (names : List String) (name : String) :
    (Dictionary.ofList (Index.pairs (read w base false names).files)).get? name
      = if name ∈ names then textOf? w base name else none := by
  refine Option.ext fun text => ?_
  constructor
  · intro h
    obtain ⟨hname, htext⟩ := mem_pairs_iff.mp (Dictionary.mem_of_get?_ofList h)
    rw [if_pos hname, htext]
  · intro h
    split at h
    · next hname =>
      refine Dictionary.get?_ofList_of_mem (mem_pairs_iff.mpr ⟨hname, h⟩) fun other hother => ?_
      exact Option.some.inj ((mem_pairs_iff.mp hother).2.symm.trans h)
    · cases h

/-- The faults are those of names without a text. -/
theorem mem_faults_iff : name ∈ (read w base false names).faults.map ScanFault.path ↔
    name ∈ names ∧ textOf? w base name = none := by
  have hfault : ∀ {n fault}, readOne w base n = .error fault → fault.path = n := by
    intro n fault h
    rw [readOne] at h
    split at h
    · cases h
      rfl
    · split at h
      · cases h
        rfl
      · cases h
  rw [read]
  dsimp only
  rw [if_neg Bool.false_ne_true, List.filterMap_map, List.mem_map]
  constructor
  · rintro ⟨fault, hmem, rfl⟩
    obtain ⟨n, hn, he⟩ := List.mem_filterMap.mp hmem
    rw [Function.comp_apply] at he
    cases hread : readOne w base n with
    | ok source => rw [hread] at he; cases he
    | error found =>
        rw [hread] at he
        cases he
        rw [hfault hread]
        exact ⟨hn, by rw [textOf?, hread]; rfl⟩
  · rintro ⟨hname, hnone⟩
    cases hread : readOne w base name with
    | ok source => rw [textOf?, hread] at hnone; cases hnone
    | error fault =>
        refine ⟨fault, List.mem_filterMap.mpr ⟨name, hname, ?_⟩, hfault hread⟩
        rw [Function.comp_apply, hread]

theorem nodup_paths (h : names.Nodup) :
    ((read w base false names).files.map Source.path).Nodup := by
  rw [files_eq]
  refine List.Nodup.sublist ?_ h
  induction names with
  | nil => exact List.Sublist.refl []
  | cons n rest ih =>
      have ih := ih (List.nodup_cons.mp h).2
      rw [List.filterMap_cons]
      cases hread : readOne w base n with
      | error fault => exact ih.cons n
      | ok source =>
          obtain ⟨rfl, -⟩ := readOne_eq_ok.mp hread
          exact ih.cons_cons source.path

/-! ## Indices of what is read -/

variable {table : List Pattern}

/-- The sites in a file below a base directory; none if it cannot be read. -/
def sitesOf (table : List Pattern) (w : Workspace) (base : Path) (name : String) : List Site :=
  ((textOf? w base name).map fun text => Source.sites (scan table) ⟨name, text⟩).getD []

/-- The index of files has their sites. -/
theorem records_read (h : names.Nodup) :
    (Index.ofSources table (read w base false names).files).Records
      fun name => if name ∈ names then sitesOf table w base name else [] := by
  have hrepresents : Index.Represents (scan table) _ _ :=
    Index.represents_ofRead (read w base false names).files (nodup_paths h)
  refine Index.Records.congr hrepresents fun name key => ?_
  rw [Index.foundIn, get?_read]
  split
  · rfl
  · rfl

/-- After changed files were read again the index has their new sites, and the old ones of
    the others. -/
theorem records_follow (h : names.Nodup) (changed : List String) :
    ((Index.ofSources table (read w base false names).files).follow table
        (read v base false changed).files ((read v base false changed).faults.map ScanFault.path)).Records
      fun name => if name ∈ changed then sitesOf table v base name
        else if name ∈ names then sitesOf table w base name else [] := by
  have hrepresents : Index.Represents (scan table) _ _ :=
    Index.represents_ofRead (read w base false names).files (nodup_paths h)
  have hfollowed := hrepresents.followRead (read v base false changed).files
    ((read v base false changed).faults.map ScanFault.path)
  refine Index.Records.congr hfollowed fun name key => ?_
  rw [Index.foundIn, Dictionary.get?_insertMany, Dictionary.get?_eraseMany, get?_read, get?_read,
    if_congr mem_faults_iff rfl rfl]
  by_cases hname : name ∈ changed
  · -- a file is read again, or it is forgotten
    rw [if_pos hname, if_pos hname, sitesOf]
    cases htext : textOf? v base name with
    | none => rw [if_pos ⟨hname, rfl⟩]; rfl
    | some text => rfl
  · rw [if_neg hname, if_neg hname, if_neg fun hand => hname hand.1]
    split
    · rfl
    · rfl

/-- **FOLLOWING CHANGES**: when changed files were read again, the index is the one of all
    files as they are now exactly if each of the others has the sites it had. -/
theorem follow_eq_iff (h : names.Nodup) {changed : List String} (hsub : changed ⊆ names) :
    (Index.ofSources table (read w base false names).files).follow table
        (read v base false changed).files ((read v base false changed).faults.map ScanFault.path)
      = Index.ofSources table (read v base false names).files ↔
    ∀ name ∈ names, name ∉ changed →
      Index.ofSources table (read w base false [name]).files
        = Index.ofSources table (read v base false [name]).files := by
  have hone : ∀ name u, (Index.ofSources table (read u base false [name]).files).Records
      fun other => if other ∈ [name] then sitesOf table u base other else [] :=
    fun name u => records_read (List.nodup_singleton name)
  rw [(records_follow h changed).eq_iff (records_read h)]
  constructor
  · intro hsame name hname hother
    rw [(hone name w).eq_iff (hone name v)]
    intro file key
    by_cases hfile : file ∈ [name]
    · cases List.mem_singleton.mp hfile
      rw [if_pos hfile, if_pos hfile]
      have := hsame name key
      rwa [if_neg hother, if_pos hname, if_pos hname] at this
    · rw [if_neg hfile, if_neg hfile]
  · intro hsame file key
    by_cases hchanged : file ∈ changed
    · rw [if_pos hchanged, if_pos (hsub hchanged)]
    · rw [if_neg hchanged]
      split
      · next hfile =>
        have := ((hone file w).eq_iff (hone file v)).mp (hsame file hfile hchanged) file key
        rwa [if_pos (List.mem_singleton_self file), if_pos (List.mem_singleton_self file)] at this
      · rfl

/-- A file with the same text has the same sites. -/
theorem ofSources_congr (h : textOf? w base name = textOf? v base name) :
    Index.ofSources table (read w base false [name]).files
      = Index.ofSources table (read v base false [name]).files := by
  have hw : (Index.ofSources table (read w base false [name]).files).Records _ :=
    records_read (List.nodup_singleton name)
  refine (hw.congr fun file key => ?_).unique (records_read (List.nodup_singleton name))
  split
  · next hfile =>
    cases List.mem_singleton.mp hfile
    rw [sitesOf, h, sitesOf]
  · rfl

/-- A key of the index has its sites in files that can be read. -/
theorem exists_text_of_mem_usages (h : names.Nodup) {key : String} {s : Site}
    (hs : s ∈ (Index.ofSources table (read w base false names).files).usages key) :
    s.file ∈ names ∧ ∃ text, textOf? w base s.file = some text := by
  have hrepresents : Index.Represents (scan table) _ _ :=
    Index.represents_ofRead (read w base false names).files (nodup_paths h)
  obtain ⟨-, text, htext, -⟩ := hrepresents.found_of_mem_usages hs
  rw [get?_read] at htext
  split at htext
  · next hname => exact ⟨hname, text, htext⟩
  · cases htext

end SourceFiles

end MessageKeys
