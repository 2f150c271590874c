import Mathlib.Logic.Function.Basic
import MessageKeys.Proofs.Dictionary
import MessageKeys.Proofs.Reference.SiteOrder

/-! # The index of a project — changing it file by file is reading it anew

    An index that was changed file by file is compared with the index that reading all files
    anew gives.  What ties the two together is the invariant `Records`: for given sites of
    each file it says what the sorted lists and the key sets of the index are, and that
    nothing empty is stored.  It determines the index (`Records.unique`) and each change
    keeps it (`Records.addSite`, `Records.remove`), so after any run of changes the index
    is that of the files as they are then (`changes_eq_ofRead`). -/

namespace MessageKeys.Reference.Index

variable {ix other : Index} {found : String → List Site}

/-! ## What an index holds -/

/-- The index holds the sites of each file, in order, and nothing empty. -/
structure Records (ix : Index) (found : String → List Site) : Prop where
  ordered : ∀ key, Ordered (ix.usages key)
  sites : ∀ key file,
    (ix.usages key).filter (·.file = file) = inOrder ((found file).filter (·.key = key))
  pruned : ∀ key, ix.byKey.get? key ≠ some []
  files : ∀ file, ix.byFile.get? file
    = if found file = [] then none else some (NameSet.ofNames ((found file).map (·.key)))

theorem get?_byKey (h : ∀ key, ix.byKey.get? key ≠ some []) (key : String) :
    ix.byKey.get? key = if ix.usages key = [] then none else some (ix.usages key) := by
  rw [usages]
  cases hget : ix.byKey.get? key with
  | none => rfl
  | some sites =>
      have hne : sites ≠ [] := fun he => h key (he ▸ hget)
      exact (if_neg hne).symm

/-- The sites of the files determine the index. -/
theorem Records.unique (h : Records ix found) (h' : Records other found) : ix = other := by
  -- lists in order with the same sites of each file are the same
  have husages : ∀ key, ix.usages key = other.usages key := by
    intro key
    refine (h.ordered key).ext_files (h'.ordered key) fun file => ?_
    rw [h.sites, h'.sites]
  have hkey : ix.byKey = other.byKey := by
    refine Dictionary.ext_get? fun key => ?_
    rw [get?_byKey h.pruned, get?_byKey h'.pruned, husages]
  have hfile : ix.byFile = other.byFile := by
    refine Dictionary.ext_get? fun file => ?_
    rw [h.files, h'.files]
  cases ix
  cases other
  exact congrArg₂ Index.mk hkey hfile

/-- Only the order of the sites of each key counts. -/
theorem Records.congr {found' : String → List Site} (h : Records ix found)
    (hsame : ∀ file key, inOrder ((found file).filter (·.key = key))
      = inOrder ((found' file).filter (·.key = key))) : Records ix found' where
  ordered := h.ordered
  sites key file := (h.sites key file).trans (hsame file key)
  pruned := h.pruned
  files file := by
    have hkeys : ∀ key, key ∈ (found file).map (·.key) ↔ key ∈ (found' file).map (·.key) := by
      have hmem : ∀ (sites : List Site) (key : String),
          key ∈ sites.map (·.key) ↔ inOrder (sites.filter (·.key = key)) ≠ [] := by
        intro sites key
        rw [Ne, inOrder_eq_nil_iff, List.filter_eq_nil_iff, List.mem_map]
        simp
      intro key
      rw [hmem, hmem, hsame]
    rw [h.files]
    have hnames : NameSet.ofNames ((found file).map (·.key))
        = NameSet.ofNames ((found' file).map (·.key)) := NameSet.ofNames_congr hkeys
    have hnil : found file = [] ↔ found' file = [] := by
      rw [← List.map_eq_nil_iff (f := Site.key), ← List.map_eq_nil_iff (f := Site.key),
        List.eq_nil_iff_forall_not_mem, List.eq_nil_iff_forall_not_mem]
      exact forall_congr' fun key => not_congr (hkeys key)
    rw [hnames, if_congr hnil rfl rfl]

/-- Two indices are the same exactly if they have the same sites of each key in each file. -/
theorem Records.eq_iff {found' : String → List Site} (h : Records ix found)
    (h' : Records other found') : ix = other ↔ ∀ file key,
      inOrder ((found file).filter (·.key = key)) = inOrder ((found' file).filter (·.key = key)) := by
  constructor
  · rintro rfl file key
    rw [← h.sites, ← h'.sites]
  · exact fun hsame => (h.congr hsame).unique h'

theorem records_empty : Records empty fun _ => [] where
  ordered _ := List.Pairwise.nil
  sites _ _ := rfl
  pruned _ := (by rintro ⟨⟩)
  files _ := rfl

/-! ## Recording a file -/

theorem usages_addSite (file : String) (ix : Index) (s : Site) (key : String) :
    (addSite file ix s).usages key
      = if s.key = key then insertSite s (ix.usages key) else ix.usages key := by
  show (Dictionary.get? (Dictionary.insert _ _ _) key).getD [] = _
  rw [Dictionary.get?_insert]
  split
  · next h => rw [h]; rfl
  · rfl

/-- One more site of a file. -/
theorem Records.addSite (h : Records ix found) (s : Site) :
    Records (addSite s.file ix s) (Function.update found s.file (found s.file ++ [s])) where
  ordered key := by
    rw [usages_addSite]
    split
    · exact ordered_insertSite s (h.ordered key)
    · exact h.ordered key
  sites key file := by
    rw [usages_addSite]
    -- the sites of other files are where they were
    by_cases hfile : s.file = file
    · subst hfile
      rw [Function.update_self, List.filter_append, List.filter_cons, List.filter_nil]
      by_cases hkey : s.key = key
      · rw [if_pos hkey, filter_insertSite _ _ (h.ordered key), if_pos (by simp), h.sites,
          if_pos (by simpa using hkey), inOrder_append]
      · rw [if_neg hkey, h.sites, if_neg (by simpa using hkey), List.append_nil]
    · rw [Function.update_of_ne (Ne.symm hfile), ← h.sites]
      split
      · rw [filter_insertSite _ _ (h.ordered key), if_neg (by simpa using hfile)]
      · rfl
  pruned key := by
    show Dictionary.get? (Dictionary.insert _ _ _) key ≠ _
    rw [Dictionary.get?_insert]
    split
    · exact fun he => insertSite_ne_nil s _ (Option.some.inj he)
    · exact h.pruned key
  files file := by
    show Dictionary.get? (Dictionary.insert _ _ _) file = _
    rw [Dictionary.get?_insert]
    by_cases hfile : s.file = file
    · subst hfile
      rw [if_pos rfl, Function.update_self, if_neg (by simp), List.map_append, List.map_singleton,
        NameSet.ofNames_append, h.files]
      congr 2
      split
      · next he => rw [he]; rfl
      · rfl
    · rw [if_neg hfile, Function.update_of_ne (Ne.symm hfile), h.files]

/-- The sites of a file, one after the other. -/
theorem Records.addFile (h : Records ix found) (file : String) (sites : List Site)
    (hfile : ∀ s ∈ sites, s.file = file) :
    Records (ix.addFile file sites) (Function.update found file (found file ++ sites)) := by
  induction sites generalizing ix found with
  | nil =>
      rw [List.append_nil, Function.update_eq_self]
      exact h
  | cons s rest ih =>
      have hs : s.file = file := hfile s List.mem_cons_self
      have hstep := h.addSite s
      rw [hs] at hstep
      have hrest := ih hstep fun t ht => hfile t (List.mem_cons_of_mem _ ht)
      rw [Function.update_self, Function.update_idem, List.append_assoc] at hrest
      exact hrest

/-! ## Forgetting a file -/

/-- The sites listed for a key in the forward map. -/
private def listed (byKey : Dictionary (List Site)) (key : String) : List Site :=
  (byKey.get? key).getD []

private theorem listed_dropFile (file : String) (byKey : Dictionary (List Site))
    (dropped key : String) :
    listed (dropFile file byKey dropped) key
      = if dropped = key then (listed byKey key).filter (·.file ≠ file) else listed byKey key := by
  rw [dropFile]
  split
  · next hnone =>
    split
    · next he => subst he; rw [listed, hnone]; rfl
    · rfl
  · next sites hsome =>
    dsimp only
    split
    · next hempty =>
      rw [listed, Dictionary.get?_erase]
      split
      · next he =>
        subst he
        rw [listed, hsome]
        exact (List.isEmpty_iff.mp hempty).symm
      · rfl
    · rw [listed, Dictionary.get?_insert]
      split
      · next he => subst he; rw [listed, hsome]; rfl
      · rfl

private theorem pruned_dropFile (file : String) {byKey : Dictionary (List Site)}
    (h : ∀ key, byKey.get? key ≠ some []) (dropped key : String) :
    (dropFile file byKey dropped).get? key ≠ some [] := by
  rw [dropFile]
  split
  · exact h key
  · dsimp only
    split
    · rw [Dictionary.get?_erase]
      split
      · rintro ⟨⟩
      · exact h key
    · next hleft =>
      rw [Dictionary.get?_insert]
      split
      · intro he
        exact hleft (List.isEmpty_iff.mpr (Option.some.inj he))
      · exact h key

private theorem listed_dropFiles (file : String) (keys : List String)
    (byKey : Dictionary (List Site)) (key : String) :
    listed (keys.foldl (dropFile file) byKey) key
      = if key ∈ keys then (listed byKey key).filter (·.file ≠ file) else listed byKey key := by
  -- filtering the same sites out again changes nothing
  have htwice : ∀ sites : List Site,
      (sites.filter (·.file ≠ file)).filter (·.file ≠ file) = sites.filter (·.file ≠ file) := by
    intro sites
    rw [List.filter_filter]
    congr 1
    ext s
    rw [Bool.and_self]
  exact seen_foldl (fun byKey => listed byKey key) (·.filter (·.file ≠ file))
    (fun byKey k => listed_dropFile file byKey k key) htwice keys byKey

private theorem pruned_dropFiles (file : String) (keys : List String)
    {byKey : Dictionary (List Site)} (h : ∀ key, byKey.get? key ≠ some []) (key : String) :
    (keys.foldl (dropFile file) byKey).get? key ≠ some [] := by
  induction keys generalizing byKey with
  | nil => exact h key
  | cons k rest ih => exact ih (pruned_dropFile file h k)

/-- A file without a site of a key takes nothing from the list of the key. -/
theorem Records.filter_of_not_found (h : Records ix found) {file key : String}
    (hkey : key ∉ (found file).map (·.key)) :
    (ix.usages key).filter (·.file ≠ file) = ix.usages key := by
  have hnone : (found file).filter (·.key = key) = [] := by
    refine List.filter_eq_nil_iff.mpr fun s hs he => hkey ?_
    exact List.mem_map.mpr ⟨s, hs, of_decide_eq_true he⟩
  have hmine := h.sites key file
  rw [hnone] at hmine
  refine List.filter_eq_self.mpr fun s hs => decide_eq_true fun he => ?_
  exact List.filter_eq_nil_iff.mp hmine s hs (decide_eq_true he)

/-- Only the sites of the file go. -/
theorem Records.usages_remove (h : Records ix found) (file key : String) :
    (ix.remove file).usages key = (ix.usages key).filter (·.file ≠ file) := by
  have hfiles := h.files file
  rw [remove]
  split
  · next hnone =>
    -- the file is not known, so it has no sites that could go
    rw [hnone] at hfiles
    split at hfiles
    · next hfound => exact (h.filter_of_not_found (by rw [hfound]; exact List.not_mem_nil)).symm
    · cases hfiles
  · next keys hsome =>
    show listed (keys.names.foldl (dropFile file) ix.byKey) key = _
    rw [listed_dropFiles]
    split
    · rfl
    · next hkey =>
      -- keys that are not recorded for the file have no site in it
      rw [hsome] at hfiles
      split at hfiles
      · cases hfiles
      · cases hfiles
        rw [NameSet.mem_ofNames_iff] at hkey
        exact (h.filter_of_not_found hkey).symm

/-- A file is forgotten. -/
theorem Records.remove (h : Records ix found) (file : String) :
    Records (ix.remove file) (Function.update found file []) where
  ordered key := by
    rw [h.usages_remove]
    exact (h.ordered key).filter _
  sites key other := by
    rw [h.usages_remove, List.filter_filter]
    by_cases ho : other = file
    · subst ho
      rw [Function.update_self]
      refine List.filter_eq_nil_iff.mpr fun s _ hs => ?_
      simp at hs
    · rw [Function.update_of_ne ho, ← h.sites]
      refine List.filter_congr fun s _ => ?_
      by_cases hs : s.file = other
      · simp [hs, ho]
      · simp [hs]
  pruned key := by
    rw [Index.remove]
    split
    · exact h.pruned key
    · exact pruned_dropFiles file _ h.pruned key
  files other := by
    have hfiles := h.files other
    rw [Index.remove]
    split
    · next hnone =>
      by_cases ho : other = file
      · subst ho
        rw [Function.update_self, if_pos rfl, hnone]
      · rw [Function.update_of_ne ho, hfiles]
    · show Dictionary.get? (Dictionary.erase _ _) other = _
      rw [Dictionary.get?_erase]
      by_cases ho : other = file
      · rw [if_pos ho.symm, ho, Function.update_self, if_pos rfl]
      · rw [if_neg (Ne.symm ho), Function.update_of_ne ho, hfiles]

/-! ## The files of an index -/

variable {read : String → List Site} {files : Dictionary String}

theorem file_of_mem_sites {source : Source} {s : Site} (hs : s ∈ source.sites read) :
    s.file = source.path := by
  obtain ⟨t, -, rfl⟩ := List.mem_map.mp hs
  rfl

/-- The sites that are found in the files, by path. -/
def foundIn (read : String → List Site) (files : Dictionary String) (path : String) :
    List Site :=
  ((files.get? path).map fun text => Source.sites read ⟨path, text⟩).getD []

/-- The index is the one of these files. -/
def Represents (read : String → List Site) (ix : Index) (files : Dictionary String) : Prop :=
  Records ix (foundIn read files)

/-- The files as a list of sources, in order of path. -/
def sourcesOf (files : Dictionary String) : List Source :=
  files.toList.map fun e => ⟨e.1, e.2⟩

/-- The paths with their texts. -/
def pairs (sources : List Source) : List (String × String) :=
  sources.map fun s => (s.path, s.text)

/-- Files that differ in the text of one path. -/
private theorem foundIn_update {files' : Dictionary String} {path : String} {text? : Option String}
    (h : ∀ other, files'.get? other = if path = other then text? else files.get? other) :
    foundIn read files' = Function.update (foundIn read files) path
      ((text?.map fun text => Source.sites read ⟨path, text⟩).getD []) := by
  ext1 other
  rw [foundIn, h]
  by_cases hother : other = path
  · subst hother
    rw [if_pos rfl, Function.update_self]
  · rw [if_neg (Ne.symm hother), Function.update_of_ne hother]
    rfl

theorem foundIn_insert (path text : String) :
    foundIn read (files.insert path text)
      = Function.update (foundIn read files) path (Source.sites read ⟨path, text⟩) :=
  foundIn_update fun other => Dictionary.get?_insert files path other text

theorem foundIn_erase (path : String) :
    foundIn read (files.erase path) = Function.update (foundIn read files) path [] :=
  foundIn_update fun other => Dictionary.get?_erase files path other

theorem represents_empty : Represents read empty ∅ := records_empty

theorem Represents.remove (h : Represents read ix files) (path : String) :
    Represents read (ix.remove path) (files.erase path) := by
  rw [Represents, foundIn_erase]
  exact Records.remove h path

theorem Represents.removeMany (h : Represents read ix files) (paths : List String) :
    Represents read (paths.foldl Index.remove ix) (paths.foldl Dictionary.erase files) := by
  induction paths generalizing ix files with
  | nil => exact h
  | cons p rest ih => exact ih (h.remove p)

/-- A file is taken in that was not there. -/
theorem Represents.addFile (h : Represents read ix files) (source : Source)
    (hnew : files.get? source.path = none) :
    Represents read (ix.addFile source.path (source.sites read))
      (files.insert source.path source.text) := by
  have hadded := Records.addFile h source.path (source.sites read) fun _ => file_of_mem_sites
  have hnone : foundIn read files source.path = [] := by rw [foundIn, hnew]; rfl
  rw [hnone, List.nil_append] at hadded
  rw [Represents, foundIn_insert]
  exact hadded

/-- Different files are taken in none of which was there. -/
theorem Represents.addRead (h : Represents read ix files) (sources : List Source)
    (hdistinct : (sources.map (·.path)).Nodup)
    (hnew : ∀ s ∈ sources, files.get? s.path = none) :
    Represents read (Index.addRead read ix sources) (files.insertMany (pairs sources)) := by
  induction sources generalizing ix files with
  | nil => exact h
  | cons s rest ih =>
      obtain ⟨hs, hrest⟩ := List.nodup_cons.mp hdistinct
      refine ih (h.addFile s (hnew s List.mem_cons_self)) hrest fun t ht => ?_
      rw [Dictionary.get?_insert, if_neg]
      · exact hnew t (List.mem_cons_of_mem _ ht)
      · exact fun he => hs (List.mem_map.mpr ⟨t, ht, he.symm⟩)

/-- Different files read anew. -/
theorem represents_ofRead (sources : List Source) (hdistinct : (sources.map (·.path)).Nodup) :
    Represents read (ofRead read sources) (Dictionary.ofList (pairs sources)) :=
  represents_empty.addRead sources hdistinct fun _ _ => rfl

/-- **READING ANEW**: the index of some files is what any listing of them gives. -/
theorem Represents.eq_ofRead (h : Represents read ix files) {listing : List Source}
    (hlisting : listing.Perm (sourcesOf files)) : ix = ofRead read listing := by
  have hpairs : (pairs listing).Perm files.toList := by
    have := hlisting.map fun s => (s.path, s.text)
    rwa [sourcesOf, List.map_map, List.map_id''] at this
    exact fun _ => rfl
  have hdistinct : (listing.map (·.path)).Nodup := by
    have := (hpairs.map (·.1)).nodup_iff.mpr files.nodup_names
    rwa [pairs, List.map_map] at this
  have hanew : Represents read (ofRead read listing) (Dictionary.ofList (pairs listing)) :=
    represents_ofRead listing hdistinct
  rw [Dictionary.ofList_eq_of_perm hpairs] at hanew
  exact h.unique hanew

/-- The sites that are listed for a key are sites of it that were found in the files. -/
theorem Represents.found_of_mem_usages (h : Represents read ix files) {key : String} {s : Site}
    (hs : s ∈ ix.usages key) :
    s.key = key ∧ ∃ text, files.get? s.file = some text ∧ s ∈ Source.sites read ⟨s.file, text⟩ := by
  have hmem : s ∈ (ix.usages key).filter (·.file = s.file) :=
    List.mem_filter.mpr ⟨hs, decide_eq_true rfl⟩
  rw [Records.sites h] at hmem
  obtain ⟨hfound, hkey⟩ := List.mem_filter.mp (mem_inOrder.mp hmem)
  refine ⟨of_decide_eq_true hkey, ?_⟩
  rw [foundIn] at hfound
  cases htext : files.get? s.file with
  | none => rw [htext] at hfound; cases hfound
  | some text => rw [htext] at hfound; exact ⟨text, rfl, hfound⟩

/-- A key of the index was found in some text. -/
theorem Represents.exists_found (h : Represents read ix files) {key : String} {sites : List Site}
    (hmem : (key, sites) ∈ ix.toList) : ∃ text, ∃ s ∈ read text, s.key = key := by
  have hget : ix.byKey.get? key = some sites := (Dictionary.mem_toList_iff _ _ _).mp hmem
  have husages : ix.usages key = sites := by rw [usages, hget]; rfl
  cases sites with
  | nil => exact absurd hget (h.pruned key)
  | cons s rest =>
      have hs : s ∈ ix.usages key := husages ▸ List.mem_cons_self
      obtain ⟨hkey, text, -, hfound⟩ := h.found_of_mem_usages hs
      obtain ⟨t, ht, he⟩ := List.mem_map.mp hfound
      have hsame := congrArg Site.key he
      exact ⟨text, t, ht, hsame.trans hkey⟩

/-! ## Replacing changed files -/

/-- The last entry of each path. -/
private def lastEntries (changed : List Source) : Dictionary Source :=
  Dictionary.ofList (changed.map fun s => (s.path, s))

private theorem path_of_lastEntries {changed : List Source} {e : String × Source}
    (h : e ∈ (lastEntries changed).toList) : e.2.path = e.1 := by
  obtain ⟨name, s⟩ := e
  rw [Dictionary.mem_toList_iff] at h
  obtain ⟨t, -, ht⟩ := List.mem_map.mp (Dictionary.mem_of_get?_ofList h)
  cases ht
  rfl

/-- No path has two last entries. -/
theorem distinct_latest (changed : List Source) : ((latest changed).map (·.path)).Nodup := by
  have hpaths : (latest changed).map (·.path) = (lastEntries changed).toList.map (·.1) := by
    rw [latest, List.map_map]
    exact List.map_congr_left fun e he => path_of_lastEntries he
  rw [hpaths]
  exact Dictionary.nodup_names _

/-- The last entries are all that counts when files are stored. -/
theorem insertMany_latest (files : Dictionary String) (changed : List Source) :
    files.insertMany (pairs (latest changed)) = files.insertMany (pairs changed) := by
  have hlatest : pairs (latest changed)
      = (lastEntries changed).toList.map fun e => (e.1, e.2.text) := by
    rw [pairs, latest, List.map_map]
    refine List.map_congr_left fun e he => ?_
    show (e.2.path, e.2.text) = (e.1, e.2.text)
    rw [path_of_lastEntries he]
  have hchanged : pairs changed
      = (changed.map fun s => (s.path, s)).map fun e => (e.1, e.2.text) := by
    rw [pairs, List.map_map]
    rfl
  refine Dictionary.ext_get? fun path => ?_
  rw [Dictionary.get?_insertMany, Dictionary.get?_insertMany, hlatest, hchanged,
    Dictionary.get?_ofList_map Source.text, Dictionary.get?_ofList_map Source.text,
    Dictionary.ofList_toList]
  rfl

/-- Files that are stored anyway need not be erased before. -/
theorem insertMany_eraseMany (files : Dictionary String) (sources : List Source) :
    ((sources.map (·.path)).foldl Dictionary.erase files).insertMany (pairs sources)
      = files.insertMany (pairs sources) := by
  refine Dictionary.ext_get? fun path => ?_
  rw [Dictionary.get?_insertMany, Dictionary.get?_insertMany, Dictionary.get?_eraseMany]
  split
  · next hmem =>
    -- the path is stored, so what was there before does not show
    cases hget : (Dictionary.ofList (pairs sources)).get? path with
    | some text => rfl
    | none =>
        rw [Dictionary.get?_ofList_eq_none_iff, pairs, List.map_map] at hget
        exact absurd hmem hget
  · rfl

theorem Represents.reread (h : Represents read ix files) (changed : List Source) :
    Represents read (Index.reread read ix changed) (files.insertMany (pairs changed)) := by
  -- all changed files go first, so that each comes as a new one
  have hremoved := h.removeMany ((latest changed).map (·.path))
  rw [List.foldl_map] at hremoved
  have hadded := hremoved.addRead (latest changed) (distinct_latest changed) fun s hs => by
    rw [Dictionary.get?_eraseMany, if_pos (List.mem_map_of_mem hs)]
  rw [insertMany_eraseMany, insertMany_latest] at hadded
  exact hadded

theorem Represents.followRead (h : Represents read ix files) (changed : List Source)
    (removed : List String) :
    Represents read (Index.followRead read ix changed removed)
      ((removed.foldl Dictionary.erase files).insertMany (pairs changed)) :=
  (h.removeMany removed).reread changed

/-- The sites of a changed file are those of its last text. -/
theorem Represents.usages_reread (h : Represents read ix files) {changed : List Source}
    {s : Source} (hs : s ∈ latest changed) (key : String) :
    ((Index.reread read ix changed).usages key).filter (·.file = s.path)
      = inOrder ((s.sites read).filter (·.key = key)) := by
  have hpairs : ((pairs (latest changed)).map (·.1)).Nodup := by
    rw [pairs, List.map_map]
    exact distinct_latest changed
  have htext : (Dictionary.ofList (pairs (latest changed))).get? s.path = some s.text :=
    (Dictionary.get?_ofList_iff hpairs s.path s.text).mpr (List.mem_map_of_mem hs)
  rw [Records.sites (h.reread changed), ← insertMany_latest, foundIn, Dictionary.get?_insertMany,
    htext]
  rfl

/-- Files of different paths can be stored in either order. -/
theorem insertMany_comm (files : Dictionary String) {these those : List Source}
    (h : ∀ s ∈ these, ∀ t ∈ those, s.path ≠ t.path) :
    (files.insertMany (pairs these)).insertMany (pairs those)
      = (files.insertMany (pairs those)).insertMany (pairs these) := by
  refine Dictionary.ext_get? fun path => ?_
  simp only [Dictionary.get?_insertMany]
  cases hthese : (Dictionary.ofList (pairs these)).get? path with
  | none => cases (Dictionary.ofList (pairs those)).get? path <;> rfl
  | some text =>
      cases hthose : (Dictionary.ofList (pairs those)).get? path with
      | none => rfl
      | some text' =>
          obtain ⟨s, hs, hse⟩ := List.mem_map.mp (Dictionary.mem_of_get?_ofList hthese)
          obtain ⟨t, ht, hte⟩ := List.mem_map.mp (Dictionary.mem_of_get?_ofList hthose)
          have hpath : s.path = t.path := (congrArg Prod.fst hse).trans (congrArg Prod.fst hte).symm
          exact absurd hpath (h s hs t ht)

/-! ## Runs of changes -/

/-- A change of an index.  What is read anew lists no path twice; changed files may. -/
inductive Change where
  | rebuild (sources : List Source) (distinct : (sources.map (·.path)).Nodup)
  | update (changed : List Source)
  | remove (path : String)
  | follow (changed : List Source) (removed : List String)

namespace Change

/-- The index after a change. -/
def apply (read : String → List Site) (ix : Index) : Change → Index
  | rebuild sources _ => ofRead read sources
  | update changed => Index.reread read ix changed
  | remove path => ix.remove path
  | follow changed removed => Index.followRead read ix changed removed

/-- The files after a change: the last text of a path counts, and what is removed goes
    before what is changed comes. -/
def applyFiles (files : Dictionary String) : Change → Dictionary String
  | rebuild sources _ => Dictionary.ofList (pairs sources)
  | update changed => files.insertMany (pairs changed)
  | remove path => files.erase path
  | follow changed removed => (removed.foldl Dictionary.erase files).insertMany (pairs changed)

/-- The index after a run of changes from the empty one. -/
def indexAfter (read : String → List Site) (changes : List Change) : Index :=
  changes.foldl (apply read) empty

/-- The files after a run of changes from none. -/
def filesAfter (changes : List Change) : Dictionary String :=
  changes.foldl applyFiles ∅

end Change

/-- One change keeps index and files together. -/
theorem Represents.apply (h : Represents read ix files) (change : Change) :
    Represents read (change.apply read ix) (change.applyFiles files) := by
  cases change with
  | rebuild sources distinct => exact represents_ofRead sources distinct
  | update changed => exact h.reread changed
  | remove path => exact h.remove path
  | follow changed removed => exact h.followRead changed removed

/-- So does a run. -/
theorem represents_run (read : String → List Site) (changes : List Change) :
    Represents read (Change.indexAfter read changes) (Change.filesAfter changes) := by
  suffices hrun : ∀ (ix : Index) (files : Dictionary String), Represents read ix files →
      Represents read (changes.foldl (Change.apply read) ix) (changes.foldl Change.applyFiles files)
    from hrun empty ∅ represents_empty
  induction changes with
  | nil => exact fun _ _ h => h
  | cons change rest ih => exact fun _ _ h => ih _ _ (h.apply change)

/-- **CHANGING IS READING ANEW**: whatever finds the references of a text, an index that any
    run of changes led to is the one that reading the files as they are then gives, in
    whatever order they are listed.  So taking changed files in twice does no more than
    taking them in once, files of different paths can be taken in in either order, and what
    the last text of a changed file has is in the index. -/
theorem changes_eq_ofRead (read : String → List Site) (changes : List Change)
    (listing : List Source) (hlisting : listing.Perm (sourcesOf (Change.filesAfter changes))) :
    Change.indexAfter read changes = ofRead read listing ∧
    (∀ changed, reread read (reread read (Change.indexAfter read changes) changed) changed
      = reread read (Change.indexAfter read changes) changed) ∧
    (∀ these those : List Source, (∀ s ∈ these, ∀ t ∈ those, s.path ≠ t.path) →
      reread read (reread read (Change.indexAfter read changes) these) those
        = reread read (reread read (Change.indexAfter read changes) those) these) ∧
    (∀ changed, ∀ s ∈ latest changed, ∀ key,
      ((reread read (Change.indexAfter read changes) changed).usages key).filter (·.file = s.path)
        = inOrder ((s.sites read).filter (·.key = key))) := by
  have h := represents_run read changes
  refine ⟨h.eq_ofRead hlisting, ?_, ?_, ?_⟩
  · intro changed
    have htwice := (h.reread changed).reread changed
    rw [Dictionary.insertMany_twice] at htwice
    exact htwice.unique (h.reread changed)
  · intro these those hpaths
    have hthese := (h.reread these).reread those
    rw [insertMany_comm _ hpaths] at hthese
    exact hthese.unique ((h.reread those).reread these)
  · intro changed s hs key
    exact h.usages_reread hs key

/-- A run in which a path is listed twice, and one is removed and changed at once. -/
private def sampleChanges : List Change :=
  [.rebuild [⟨"b.ts", "m.hello()"⟩, ⟨"a.ts", "m.hello() m.title()"⟩] (by decide),
   .update [⟨"c.ts", "m.old()"⟩, ⟨"c.ts", "$m.hello"⟩],
   .remove "d.ts",
   .follow [⟨"a.ts", "m.title(1)"⟩] ["a.ts", "b.ts"]]

/-- The files after it, the last one first. -/
private def sampleListing : List Source :=
  [⟨"c.ts", "$m.hello"⟩, ⟨"a.ts", "m.title(1)"⟩]

theorem changes_eq_ofRead_sample :
    sampleListing.Perm (sourcesOf (Change.filesAfter sampleChanges)) ∧
    Change.indexAfter (scan (Pattern.defaults "m")) sampleChanges
      = ofRead (scan (Pattern.defaults "m")) sampleListing := by
  have hlisting : sampleListing.Perm (sourcesOf (Change.filesAfter sampleChanges)) := by
    decide +kernel
  exact ⟨hlisting, (changes_eq_ofRead _ sampleChanges sampleListing hlisting).1⟩

end MessageKeys.Reference.Index
