import Mathlib.Data.List.Induction
import MessageKeys.Proofs.Dictionary
import MessageKeys.Suggestion

/-! # Counting sites — the candidate for a key, said in terms of its sites

    A site belongs to the namespace of its file (`sitesIn`).  Tallies are kept site by site;
    after all sites each one says how many there are in its namespace and in which files
    (`get?_tally`), and of the tallies with the largest number the first by name is taken
    (`best?_spec`).

    So the candidate for a key names the first of the namespaces with most of its sites
    (`Leads`, `candidate?_spec`), and there is one whenever a site of a key without points lies
    in a namespace (`exists_candidate`). -/

namespace MessageKeys.Suggestion

open Reference (Site Index)

variable {namespaceOf : String → Option String} {sites : List Site} {key ns : String}

/-! ## Sites in a namespace -/

/-- The sites in files of a namespace. -/
def sitesIn (namespaceOf : String → Option String) (sites : List Site) (ns : String) : List Site :=
  sites.filter fun s => namespaceOf s.file = some ns

/-- The number of sites in files of a namespace. -/
def countIn (namespaceOf : String → Option String) (sites : List Site) (ns : String) : Nat :=
  (sitesIn namespaceOf sites ns).length

/-- The files of a namespace that have sites. -/
def filesIn (namespaceOf : String → Option String) (sites : List Site) (ns : String) : NameSet :=
  NameSet.ofNames ((sitesIn namespaceOf sites ns).map (·.file))

theorem mem_sitesIn {s : Site} :
    s ∈ sitesIn namespaceOf sites ns ↔ s ∈ sites ∧ namespaceOf s.file = some ns := by
  rw [sitesIn, List.mem_filter, decide_eq_true_eq]

/-- The files of a namespace are those that a site of the key lies in. -/
theorem mem_filesIn {file : String} : file ∈ (filesIn namespaceOf sites ns).names ↔
    (∃ s ∈ sites, s.file = file) ∧ namespaceOf file = some ns := by
  rw [filesIn, NameSet.mem_ofNames_iff, List.mem_map]
  constructor
  · rintro ⟨s, hs, rfl⟩
    obtain ⟨hmem, hns⟩ := mem_sitesIn.mp hs
    exact ⟨⟨s, hmem, rfl⟩, hns⟩
  · rintro ⟨⟨s, hmem, rfl⟩, hns⟩
    exact ⟨s, mem_sitesIn.mpr ⟨hmem, hns⟩, rfl⟩

theorem countIn_le (namespaceOf : String → Option String) (sites : List Site) (ns : String) :
    countIn namespaceOf sites ns ≤ sites.length :=
  List.length_filter_le _ _

/-- A namespace is counted if a site lies in it. -/
theorem countIn_pos_iff : 0 < countIn namespaceOf sites ns ↔
    ∃ s ∈ sites, namespaceOf s.file = some ns := by
  rw [countIn, List.length_pos_iff_exists_mem]
  simp only [mem_sitesIn]

/-! ## Tallies -/

/-- A site counts for its own namespace, unless that is without a name. -/
theorem get?_countSite (tallies : Dictionary Tally) (s : Site) (ns : String) :
    (countSite namespaceOf tallies s).get? ns
      = if ns ≠ "" ∧ namespaceOf s.file = some ns then
          some ⟨((tallies.get? ns).getD ⟨0, ∅⟩).count + 1,
            ((tallies.get? ns).getD ⟨0, ∅⟩).files.add s.file⟩
        else tallies.get? ns := by
  rw [countSite]
  split
  · next hnone => rw [hnone, if_neg (by rintro ⟨-, ⟨⟩⟩)]
  · next found hfound =>
    rw [hfound]
    by_cases hempty : found = ""
    · rw [if_pos hempty, if_neg]
      rintro ⟨hns, he⟩
      exact hns (Option.some.inj he ▸ hempty)
    · rw [if_neg hempty]
      dsimp only
      rw [Dictionary.get?_insert]
      by_cases hns : found = ns
      · subst hns
        rw [if_pos rfl, if_pos ⟨hempty, rfl⟩]
      · rw [if_neg hns, if_neg]
        rintro ⟨-, he⟩
        exact hns (Option.some.inj he)

/-- **TALLIES**: the tally of a namespace has the number and the files of the sites in it, and
    there is one for each namespace with a name that has sites. -/
theorem get?_tally (namespaceOf : String → Option String) (sites : List Site) (ns : String) :
    (tally namespaceOf sites).get? ns
      = if ns ≠ "" ∧ 0 < countIn namespaceOf sites ns then
          some ⟨countIn namespaceOf sites ns, filesIn namespaceOf sites ns⟩
        else none := by
  induction sites using List.reverseRecOn with
  | nil => exact (if_neg (by rintro ⟨-, ⟨⟩⟩)).symm
  | append_singleton sites s ih =>
      have hstep : tally namespaceOf (sites ++ [s])
          = countSite namespaceOf (tally namespaceOf sites) s := List.foldl_append
      rw [hstep, get?_countSite, ih]
      by_cases hs : namespaceOf s.file = some ns
      · have hsites : sitesIn namespaceOf (sites ++ [s]) ns
            = sitesIn namespaceOf sites ns ++ [s] := by
          simp [sitesIn, hs]
        have hcount : countIn namespaceOf (sites ++ [s]) ns
            = countIn namespaceOf sites ns + 1 := by
          rw [countIn, hsites, List.length_append]
          rfl
        have hfiles : filesIn namespaceOf (sites ++ [s]) ns
            = (filesIn namespaceOf sites ns).add s.file := by
          rw [filesIn, hsites, List.map_append]
          exact NameSet.ofNames_append _ _
        by_cases hns : ns = ""
        · rw [if_neg fun h => h.1 hns, if_neg fun h => h.1 hns, if_neg fun h => h.1 hns]
        · have hpos : ns ≠ "" ∧ 0 < countIn namespaceOf sites ns + 1 := ⟨hns, Nat.succ_pos _⟩
          rw [if_pos ⟨hns, hs⟩, hcount, hfiles, if_pos hpos]
          by_cases hzero : 0 < countIn namespaceOf sites ns
          · rw [if_pos ⟨hns, hzero⟩]
            rfl
          · -- the first site of a namespace starts its tally
            have hnone : sitesIn namespaceOf sites ns = [] :=
              List.length_eq_zero_iff.mp (Nat.eq_zero_of_not_pos hzero)
            rw [if_neg fun h => hzero h.2, countIn, filesIn, hnone]
            rfl
      · have hsites : sitesIn namespaceOf (sites ++ [s]) ns = sitesIn namespaceOf sites ns := by
          simp [sitesIn, hs]
        rw [if_neg fun h => hs h.2, countIn, countIn, filesIn, filesIn, hsites]

/-! ## The largest tally -/

/-- Only an empty tally has no best entry. -/
theorem best?_eq_none_iff {es : List (String × Tally)} : best? es = none ↔ es = [] := by
  cases es with
  | nil => exact iff_of_true rfl rfl
  | cons e rest =>
      rw [best?]
      refine iff_of_false ?_ (List.cons_ne_nil e rest)
      split
      · rintro ⟨⟩
      · split
        · rintro ⟨⟩
        · rintro ⟨⟩

/-- No tally is larger than the one that is taken, and of those that are as large none comes before
    it. -/
theorem best?_spec {es : List (String × Tally)} (h : Entries.Increasing es) {e : String × Tally}
    (hbest : best? es = some e) :
    e ∈ es ∧ ∀ f ∈ es, f.2.count ≤ e.2.count ∧ (f.2.count = e.2.count → e.1 ≤ f.1) := by
  induction es generalizing e with
  | nil => cases hbest
  | cons first rest ih =>
      obtain ⟨hfirst, hrest⟩ := List.pairwise_cons.mp h
      rw [best?] at hbest
      split at hbest
      · next hnone =>
        cases hbest
        rw [best?_eq_none_iff.mp hnone]
        refine ⟨List.mem_singleton_self _, fun f hf => ?_⟩
        rw [List.mem_singleton.mp hf]
        exact ⟨Nat.le_refl _, fun _ => String.le_refl _⟩
      · next g hg =>
        obtain ⟨hmem, hmost⟩ := ih hrest hg
        split at hbest
        · next hlt =>
          cases hbest
          refine ⟨List.mem_cons_of_mem _ hmem, fun f hf => ?_⟩
          rcases List.mem_cons.mp hf with rfl | hf
          · exact ⟨Nat.le_of_lt hlt, fun he => absurd hlt (by omega)⟩
          · exact hmost f hf
        · next hge =>
          cases hbest
          refine ⟨List.mem_cons_self, fun f hf => ?_⟩
          rcases List.mem_cons.mp hf with rfl | hf
          · exact ⟨Nat.le_refl _, fun _ => String.le_refl _⟩
          · have hle := (hmost f hf).1
            refine ⟨by omega, fun _ => ?_⟩
            exact String.not_lt.mp fun hlt => String.lt_irrefl _ (String.lt_trans hlt (hfirst f hf))

/-! ## Candidates -/

/-- A namespace with a name, with sites and with as many as any other one, the first of those with
    as many. -/
structure Leads (namespaceOf : String → Option String) (sites : List Site) (ns : String) :
    Prop where
  named : ns ≠ ""
  occurs : 0 < countIn namespaceOf sites ns
  most : ∀ other, other ≠ "" → countIn namespaceOf sites other ≤ countIn namespaceOf sites ns
  first : ∀ other, other ≠ "" →
    countIn namespaceOf sites other = countIn namespaceOf sites ns → ns ≤ other

/-- What the candidate for a key with some sites is. -/
structure Candidate.IsFor (namespaceOf : String → Option String) (key : String)
    (sites : List Site) (c : Candidate) : Prop where
  key_eq : c.key = key
  flat : '.' ∉ key.toList
  leads : Leads namespaceOf sites c.inNamespace
  files_eq : c.files = (filesIn namespaceOf sites c.inNamespace).names
  count_eq : c.count = countIn namespaceOf sites c.inNamespace
  total_eq : c.total = sites.length

theorem isNamespaced_iff : Key.isNamespaced key = true ↔ '.' ∈ key.toList := by
  rw [Key.isNamespaced, List.contains_iff_mem]

/-- **CANDIDATES**: a candidate is for a key without points and for its leading namespace. -/
theorem candidate?_spec {c : Candidate} (h : candidate? namespaceOf key sites = some c) :
    c.IsFor namespaceOf key sites := by
  rw [candidate?] at h
  split at h
  · cases h
  · next hflat =>
    obtain ⟨⟨ns, t⟩, hbest, rfl⟩ := Option.map_eq_some_iff.mp h
    obtain ⟨hmem, hmost⟩ := best?_spec (tally namespaceOf sites).increasing hbest
    have hget := (Dictionary.mem_toList_iff _ ns t).mp hmem
    rw [get?_tally] at hget
    split at hget
    · next hns =>
      cases hget
      -- the other namespaces have a tally too, or no sites
      have hother : ∀ other, other ≠ "" → 0 < countIn namespaceOf sites other →
          countIn namespaceOf sites other ≤ countIn namespaceOf sites ns ∧
            (countIn namespaceOf sites other = countIn namespaceOf sites ns → ns ≤ other) := by
        intro other hne hpos
        refine hmost (other, ⟨countIn namespaceOf sites other, filesIn namespaceOf sites other⟩) ?_
        refine (Dictionary.mem_toList_iff _ other _).mpr ?_
        rw [get?_tally, if_pos ⟨hne, hpos⟩]
      refine ⟨rfl, fun hpoint => hflat (isNamespaced_iff.mpr hpoint), ⟨hns.1, hns.2, ?_, ?_⟩,
        rfl, rfl, rfl⟩
      · intro other hne
        rcases Nat.eq_zero_or_pos (countIn namespaceOf sites other) with hzero | hpos
        · exact hzero ▸ Nat.zero_le _
        · exact (hother other hne hpos).1
      · intro other hne hsame
        exact (hother other hne (hsame ▸ hns.2)).2 hsame
    · cases hget

/-- There is a candidate for a key without points that has a site in a namespace. -/
theorem exists_candidate (hflat : '.' ∉ key.toList) {s : Site} (hs : s ∈ sites)
    (hns : namespaceOf s.file = some ns) (hne : ns ≠ "") :
    ∃ c, candidate? namespaceOf key sites = some c := by
  have hget : (tally namespaceOf sites).get? ns
      = some ⟨countIn namespaceOf sites ns, filesIn namespaceOf sites ns⟩ := by
    rw [get?_tally, if_pos ⟨hne, countIn_pos_iff.mpr ⟨s, hs, hns⟩⟩]
  have hnonempty := List.ne_nil_of_mem ((Dictionary.mem_toList_iff _ ns _).mpr hget)
  rw [candidate?, if_neg fun hpoint => hflat (isNamespaced_iff.mp hpoint)]
  obtain ⟨e, he⟩ := Option.ne_none_iff_exists'.mp (mt best?_eq_none_iff.mp hnonempty)
  exact ⟨_, Option.map_eq_some_iff.mpr ⟨e, he, rfl⟩⟩

end MessageKeys.Suggestion
