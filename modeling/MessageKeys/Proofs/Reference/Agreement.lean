import MessageKeys.Proofs.Reference.Index

/-! # The two maps of an index agree

    An index keeps the sites of each key and the keys of each file.  Forgetting a file asks the
    second map for the keys whose sites have to go, and a site is put in where the order of
    those before it says, so each change relies on all that the changes before it have left.

    `Records` has what both maps hold, for some sites of each file.  Which sites these are does
    not matter here, so a path may be read more than once: it has the sites of all its texts
    then (`Records.addRead`).  Every change keeps that there are such sites
    (`Reachable.records`), and `Records.agrees` reads off that the two maps tell the same. -/

namespace MessageKeys.Reference.Index

variable {ix : Index} {found : String → List Site} {read : String → List Site}

/-- The indices that changes lead to from the empty one.  Any list of sources can be read anew,
    also one with a path in it twice. -/
inductive Reachable (read : String → List Site) : Index → Prop
  | empty : Reachable read empty
  | rebuild (sources : List Source) : Reachable read (ofRead read sources)
  | update {ix : Index} (changed : List Source) (before : Reachable read ix) :
      Reachable read (reread read ix changed)
  | remove {ix : Index} (path : String) (before : Reachable read ix) :
      Reachable read (ix.remove path)
  | follow {ix : Index} (changed : List Source) (removed : List String)
      (before : Reachable read ix) : Reachable read (followRead read ix changed removed)

/-- What the two maps of an index have to do with each other. -/
structure Agrees (ix : Index) : Prop where
  /-- A key is listed for a file exactly if the file is listed for the key, … -/
  keysOf_iff : ∀ key file, key ∈ ix.keysOf file ↔ file ∈ ix.filesOf key
  /-- … and that is if the key has a site in the file. -/
  filesOf_iff : ∀ key file, file ∈ ix.filesOf key ↔ ∃ s ∈ ix.usages key, s.file = file
  /-- The sites of a key are sites of this key, … -/
  usages_key : ∀ key, ∀ s ∈ ix.usages key, s.key = key
  /-- … in order of file, line and column. -/
  usages_ordered : ∀ key, Ordered (ix.usages key)
  /-- Neither map stores anything empty, … -/
  byKey_ne_nil : ∀ key, ix.byKey.get? key ≠ some []
  byFile_ne_empty : ∀ file, ix.byFile.get? file ≠ some ∅
  /-- … so the keys are those with a site, each once, … -/
  nodup_keys : ix.keys.Nodup
  mem_keys_iff : ∀ key, key ∈ ix.keys ↔ ∃ s, s ∈ ix.usages key
  /-- … and what is counted are the files with a site. -/
  fileCount_eq : ∃ files : List String, files.Nodup ∧
    (∀ file, file ∈ files ↔ ∃ key, ∃ s ∈ ix.usages key, s.file = file) ∧
    ix.fileCount = files.length
  /-- A file that is forgotten has no site left and no key, and all other sites and keys stay. -/
  usages_remove : ∀ file key,
    (ix.remove file).usages key = (ix.usages key).filter (·.file ≠ file)
  keysOf_remove : ∀ file other,
    (ix.remove file).keysOf other = if other = file then [] else ix.keysOf other

/-! ## Both maps by the sites of the files -/

/-- The sites of a key are those that were found for it. -/
theorem Records.mem_usages_iff (h : Records ix found) {key : String} {s : Site} :
    s ∈ ix.usages key ↔ s ∈ found s.file ∧ s.key = key := by
  have hfile : s ∈ ix.usages key ↔ s ∈ (ix.usages key).filter (·.file = s.file) := by simp
  rw [hfile, h.sites, mem_inOrder, List.mem_filter, decide_eq_true_eq]

/-- The sites that are found in a file have it as their file. -/
theorem Records.file_eq (h : Records ix found) {file : String} {s : Site} (hs : s ∈ found file) :
    s.file = file := by
  have hmem : s ∈ inOrder ((found file).filter (·.key = s.key)) :=
    mem_inOrder.mpr (List.mem_filter.mpr ⟨hs, decide_eq_true rfl⟩)
  rw [← h.sites] at hmem
  exact of_decide_eq_true (List.mem_filter.mp hmem).2

/-- A file has a site of a key where the sites of the key say so. -/
theorem Records.exists_site_iff (h : Records ix found) {key file : String} :
    (∃ s ∈ ix.usages key, s.file = file) ↔ ∃ s ∈ found file, s.key = key := by
  constructor
  · rintro ⟨s, hs, rfl⟩
    exact ⟨s, h.mem_usages_iff.mp hs⟩
  · rintro ⟨s, hs, hkey⟩
    have hfile := h.file_eq hs
    exact ⟨s, h.mem_usages_iff.mpr ⟨hfile ▸ hs, hkey⟩, hfile⟩

theorem Records.keysOf_eq (h : Records ix found) (file : String) :
    ix.keysOf file = (NameSet.ofNames ((found file).map (·.key))).names := by
  rw [keysOf, h.files]
  split
  · next he => rw [he]; rfl
  · rfl

/-- The keys of a file are those that a site in it refers to. -/
theorem Records.mem_keysOf_iff (h : Records ix found) {key file : String} :
    key ∈ ix.keysOf file ↔ ∃ s ∈ found file, s.key = key := by
  rw [h.keysOf_eq, NameSet.mem_ofNames_iff, List.mem_map]

/-- The files of a key are those that a site of it lies in. -/
theorem mem_filesOf_iff (ix : Index) (key file : String) :
    file ∈ ix.filesOf key ↔ ∃ s ∈ ix.usages key, s.file = file := by
  rw [filesOf, NameSet.mem_ofNames_iff, List.mem_map]

/-- A file without keys has no entry. -/
theorem Records.byFile_ne_empty (h : Records ix found) (file : String) :
    ix.byFile.get? file ≠ some ∅ := by
  rw [h.files]
  split
  · rintro ⟨⟩
  · next hne =>
    intro he
    obtain ⟨s, hs⟩ := List.exists_mem_of_ne_nil _ hne
    have hkey : s.key ∈ (NameSet.ofNames ((found file).map (·.key))).names :=
      (NameSet.mem_ofNames_iff _ _).mpr (List.mem_map_of_mem hs)
    rw [Option.some.inj he] at hkey
    exact List.not_mem_nil hkey

/-- A key is listed if it has a site. -/
theorem Records.mem_keys_iff (h : Records ix found) (key : String) :
    key ∈ ix.keys ↔ ∃ s, s ∈ ix.usages key := by
  rw [keys, Dictionary.mem_keys_iff, get?_byKey h.pruned]
  split
  · next he => simp [he]
  · next hne => exact iff_of_true ⟨_, rfl⟩ (List.exists_mem_of_ne_nil _ hne)

/-- The files with an entry are those with a site. -/
theorem Records.mem_byFile_iff (h : Records ix found) (file : String) :
    file ∈ ix.byFile.keys ↔ ∃ key, ∃ s ∈ ix.usages key, s.file = file := by
  have hfound : (∃ key, ∃ s ∈ ix.usages key, s.file = file) ↔ ∃ s, s ∈ found file := by
    constructor
    · rintro ⟨key, hkey⟩
      obtain ⟨s, hs, -⟩ := h.exists_site_iff.mp hkey
      exact ⟨s, hs⟩
    · rintro ⟨s, hs⟩
      exact ⟨s.key, h.exists_site_iff.mpr ⟨s, hs, rfl⟩⟩
  rw [hfound, Dictionary.mem_keys_iff, h.files]
  split
  · next he => simp [he]
  · next hne => exact iff_of_true ⟨_, rfl⟩ (List.exists_mem_of_ne_nil _ hne)

/-- **AGREEMENT**: an index that holds the sites of some files tells the same by key and by
    file. -/
theorem Records.agrees (h : Records ix found) : ix.Agrees where
  keysOf_iff key file := by rw [h.mem_keysOf_iff, mem_filesOf_iff, h.exists_site_iff]
  filesOf_iff := mem_filesOf_iff ix
  usages_key _ _ hs := (h.mem_usages_iff.mp hs).2
  usages_ordered := h.ordered
  byKey_ne_nil := h.pruned
  byFile_ne_empty := h.byFile_ne_empty
  nodup_keys := ix.byKey.nodup_names
  mem_keys_iff := h.mem_keys_iff
  fileCount_eq :=
    ⟨ix.byFile.keys, ix.byFile.nodup_names, h.mem_byFile_iff, (List.length_map _).symm⟩
  usages_remove := h.usages_remove
  keysOf_remove file other := by
    rw [(h.remove file).keysOf_eq, h.keysOf_eq]
    by_cases ho : other = file
    · rw [ho, if_pos rfl, Function.update_self]
      rfl
    · rw [if_neg ho, Function.update_of_ne ho]

/-! ## What changes lead to -/

/-- Sources are taken in, whether their paths are new or not. -/
theorem Records.addRead (h : Records ix found) (sources : List Source) :
    ∃ found', Records (Index.addRead read ix sources) found' := by
  induction sources generalizing ix found with
  | nil => exact ⟨found, h⟩
  | cons s rest ih => exact ih (h.addFile s.path (s.sites read) fun _ => file_of_mem_sites)

theorem Records.removeMany (h : Records ix found) (paths : List String) :
    ∃ found', Records (paths.foldl Index.remove ix) found' := by
  induction paths generalizing ix found with
  | nil => exact ⟨found, h⟩
  | cons p rest ih => exact ih (h.remove p)

/-- Reading files again leaves a record of what is found now. -/
theorem Records.reread (h : Records ix found) (changed : List Source) :
    ∃ found', Records (Index.reread read ix changed) found' := by
  obtain ⟨left, hleft⟩ := h.removeMany ((latest changed).map (·.path))
  rw [List.foldl_map] at hleft
  exact hleft.addRead (latest changed)

/-- Whatever changes lead to holds the sites of some files. -/
theorem Reachable.records (h : Reachable read ix) : ∃ found, Records ix found := by
  induction h with
  | empty => exact ⟨_, records_empty⟩
  | rebuild sources => exact records_empty.addRead sources
  | update changed _ ih =>
      obtain ⟨found, h⟩ := ih
      exact h.reread changed
  | remove path _ ih =>
      obtain ⟨found, h⟩ := ih
      exact ⟨_, h.remove path⟩
  | follow changed removed _ ih =>
      obtain ⟨found, h⟩ := ih
      obtain ⟨left, hleft⟩ := h.removeMany removed
      exact hleft.reread changed

/-- **FORWARD AND BACKWARD**: whatever finds the references of a text, the two maps of every
    index that changes lead to agree. -/
theorem reachable_agrees (h : Reachable read ix) : ix.Agrees := by
  obtain ⟨found, hrecords⟩ := h.records
  exact hrecords.agrees

/-- One path is read with two texts at once, and another file is forgotten. -/
theorem reachable_agrees_sample :
    Reachable (scan (Pattern.defaults "m")) ((ofRead (scan (Pattern.defaults "m"))
      [⟨"a.ts", "m.hello()"⟩, ⟨"b.ts", "m.hello()"⟩, ⟨"a.ts", "$m.title m.hello()"⟩]).remove "b.ts") ∧
    ((ofRead (scan (Pattern.defaults "m"))
      [⟨"a.ts", "m.hello()"⟩, ⟨"b.ts", "m.hello()"⟩, ⟨"a.ts", "$m.title m.hello()"⟩]).remove
        "b.ts").Agrees :=
  ⟨.remove "b.ts" (.rebuild _), reachable_agrees (.remove "b.ts" (.rebuild _))⟩

end MessageKeys.Reference.Index
