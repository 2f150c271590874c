import MessageKeys.Proofs.Suggestion.Counting

/-! # Where suggestions come from

    The candidates of an index are those of its keys that do not lie below the threshold
    (`mem_candidates_iff`).  So a suggestion is made for a key of the index that has no point,
    and for a namespace in which some file of the key lies (`mem_forIndex`). -/

namespace MessageKeys.Suggestion

open Reference (Site Index)

variable {namespaceOf : String → Option String} {threshold : Float} {ix : Index}

theorem usages_eq {key : String} {sites : List Site} (h : (key, sites) ∈ ix.toList) :
    ix.usages key = sites := by
  rw [Index.usages, (Dictionary.mem_toList_iff _ _ _).mp h]
  rfl

/-- A key with a site has an entry. -/
theorem mem_toList_of_site {key : String} {s : Site} (h : s ∈ ix.usages key) :
    (key, ix.usages key) ∈ ix.toList := by
  rw [Index.usages] at h ⊢
  cases hget : ix.byKey.get? key with
  | none => rw [hget] at h; exact absurd h List.not_mem_nil
  | some sites => exact (Dictionary.mem_toList_iff _ _ _).mpr hget

/-- A candidate is the one that its key has, unless its confidence lies below the threshold. -/
theorem mem_candidates_iff {c : Candidate} : c ∈ candidates threshold namespaceOf ix ↔
    candidate? namespaceOf c.key (ix.usages c.key) = some c ∧ ¬ c.confidence < threshold := by
  rw [candidates, List.mem_mergeSort, List.mem_filter, List.mem_filterMap]
  refine and_congr ?_ (by simp)
  constructor
  · rintro ⟨⟨key, sites⟩, hentry, hcandidate⟩
    dsimp only at hcandidate
    rw [(candidate?_spec hcandidate).key_eq, usages_eq hentry]
    exact hcandidate
  · intro hcandidate
    obtain ⟨s, hs, -⟩ := countIn_pos_iff.mp (candidate?_spec hcandidate).leads.occurs
    exact ⟨_, mem_toList_of_site hs, hcandidate⟩

/-- What a suggestion says of its key. -/
theorem exists_isFor_of_mem {s : Suggestion} (h : s ∈ forIndex threshold namespaceOf ix) :
    ∃ c : Candidate, c.suggestion = s ∧ c.IsFor namespaceOf s.key (ix.usages s.key) ∧
      ¬ c.confidence < threshold := by
  obtain ⟨c, hc, rfl⟩ := List.mem_map.mp h
  obtain ⟨hcandidate, hreached⟩ := mem_candidates_iff.mp hc
  exact ⟨c, rfl, candidate?_spec hcandidate, hreached⟩

/-- The files of a suggestion are those of sites of its key. -/
theorem exists_site_of_mem_files {s : Suggestion} {file : String}
    (h : s ∈ forIndex threshold namespaceOf ix) (hfile : file ∈ s.files) :
    ∃ site ∈ ix.usages s.key, site.file = file := by
  obtain ⟨c, rfl, hfor, -⟩ := exists_isFor_of_mem h
  have hmem : file ∈ c.files := hfile
  rw [hfor.files_eq] at hmem
  exact (mem_filesIn.mp hmem).1

/-- **SUGGESTIONS**: what is suggested for an index moves one of its keys that has no point to
    the namespace of the files that are named. -/
theorem mem_forIndex {s : Suggestion} (h : s ∈ forIndex threshold namespaceOf ix) :
    (∃ sites, (s.key, sites) ∈ ix.toList) ∧ '.' ∉ s.key.toList ∧
      s.newKey = s.inNamespace ++ "." ++ s.key ∧ s.files ≠ [] ∧
      ∀ file ∈ s.files, namespaceOf file = some s.inNamespace := by
  obtain ⟨c, rfl, hfor, -⟩ := exists_isFor_of_mem h
  obtain ⟨site, hsite, hns⟩ := countIn_pos_iff.mp hfor.leads.occurs
  have hfiles : ∀ file, file ∈ c.files ↔
      (∃ s ∈ ix.usages c.key, s.file = file) ∧ namespaceOf file = some c.inNamespace := by
    intro file
    rw [hfor.files_eq]
    exact mem_filesIn
  refine ⟨⟨_, mem_toList_of_site hsite⟩, hfor.flat, rfl, ?_, fun file hfile => ?_⟩
  · exact List.ne_nil_of_mem ((hfiles site.file).mpr ⟨⟨site, hsite, rfl⟩, hns⟩)
  · exact ((hfiles file).mp hfile).2

end MessageKeys.Suggestion
