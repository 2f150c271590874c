import MessageKeys.Reference.Index

/-! # The order of sites — what sorted insertion keeps

    Sites are listed by file, line and column.  Putting a site in keeps a list in order
    (`ordered_insertSite`) and does not disturb the files it does not belong to
    (`filter_insertSite`), so a list in order is determined by its part for each file
    (`Ordered.ext_files`).  Sites at one place keep the order in which they were put in, and
    that order is one of a single file: `inOrder` puts the sites of one file in. -/

namespace MessageKeys.Reference

open Index (insertSite)

namespace Site

variable {a b c : Site}

/-- The order of sites, part by part. -/
theorem notAfter_iff :
    a.notAfter b = true ↔ a.file < b.file ∨
      a.file = b.file ∧ (a.line < b.line ∨ a.line = b.line ∧ a.column ≤ b.column) := by
  simp [notAfter]

theorem notAfter_trans (hab : a.notAfter b = true) (hbc : b.notAfter c = true) :
    a.notAfter c = true := by
  rw [notAfter_iff] at hab hbc ⊢
  rcases hab with hab | ⟨hab, hplace⟩
  · rcases hbc with hbc | ⟨hbc, -⟩
    · exact .inl (String.lt_trans hab hbc)
    · exact .inl (hbc ▸ hab)
  · rcases hbc with hbc | ⟨hbc, hplace'⟩
    · exact .inl (hab ▸ hbc)
    · refine .inr ⟨hab.trans hbc, ?_⟩
      omega

/-- Of two sites one is not after the other. -/
theorem notAfter_of_not (h : ¬ a.notAfter b = true) : b.notAfter a = true := by
  rw [notAfter_iff] at h ⊢
  by_cases hlt : b.file < a.file
  · exact .inl hlt
  · have hfile : b.file = a.file :=
      Classical.byContradiction fun hne => h (.inl (Entries.name_lt_of_not_lt hlt hne))
    refine .inr ⟨hfile, ?_⟩
    have hplace : ¬ (a.line < b.line ∨ a.line = b.line ∧ a.column ≤ b.column) :=
      fun hp => h (.inr ⟨hfile.symm, hp⟩)
    omega

theorem file_not_lt (h : a.notAfter b = true) : ¬ b.file < a.file := by
  rw [notAfter_iff] at h
  intro hlt
  rcases h with h | ⟨h, -⟩
  · exact String.lt_irrefl _ (String.lt_trans hlt h)
  · exact String.lt_irrefl _ (h ▸ hlt)

end Site

/-- No site stands before one that it comes after. -/
def Ordered (sites : List Site) : Prop :=
  sites.Pairwise fun a b => a.notAfter b = true

/-- The sites put in one after the other. -/
def inOrder (sites : List Site) : List Site :=
  sites.foldl (fun sorted s => insertSite s sorted) []

/-! ## Putting a site in -/

variable {sites others : List Site}

/-- Nothing is lost and nothing comes in but the site. -/
theorem insertSite_perm (s : Site) (sites : List Site) : (insertSite s sites).Perm (s :: sites) := by
  induction sites with
  | nil => exact List.Perm.refl _
  | cons u rest ih =>
      rw [insertSite]
      split
      · exact (ih.cons u).trans (List.Perm.swap s u rest)
      · exact List.Perm.refl _

/-- A site put in its place is one more site. -/
theorem mem_insertSite {s t : Site} : t ∈ insertSite s sites ↔ t = s ∨ t ∈ sites := by
  rw [(insertSite_perm s sites).mem_iff, List.mem_cons]

theorem insertSite_ne_nil (s : Site) (sites : List Site) : insertSite s sites ≠ [] :=
  List.ne_nil_of_mem (mem_insertSite.mpr (.inl rfl))

/-- **INSERTING** a site keeps the list in order. -/
theorem ordered_insertSite (s : Site) (h : Ordered sites) : Ordered (insertSite s sites) := by
  induction sites with
  | nil => exact List.pairwise_singleton _ _
  | cons u rest ih =>
      obtain ⟨hu, hrest⟩ := List.pairwise_cons.mp h
      rw [insertSite]
      -- the site goes further back, or it comes before the first one and so before all
      split
      · next hus =>
        refine List.pairwise_cons.mpr ⟨fun t ht => ?_, ih hrest⟩
        rcases mem_insertSite.mp ht with rfl | ht
        · exact hus
        · exact hu t ht
      · next hus =>
        refine List.pairwise_cons.mpr ⟨fun t ht => ?_, h⟩
        have hsu := Site.notAfter_of_not hus
        rcases List.mem_cons.mp ht with rfl | ht
        · exact hsu
        · exact Site.notAfter_trans hsu (hu t ht)

/-- A site that comes before all others goes to the front. -/
theorem insertSite_front {s : Site} (h : ∀ t ∈ sites, ¬ t.notAfter s = true) :
    insertSite s sites = s :: sites := by
  cases sites with
  | nil => rfl
  | cons u rest => rw [insertSite, if_neg (h u List.mem_cons_self)]

/-- Selecting sites and putting one in can be done in either order. -/
theorem filter_insertSite (p : Site → Bool) (s : Site) (h : Ordered sites) :
    (insertSite s sites).filter p
      = if p s then insertSite s (sites.filter p) else sites.filter p := by
  induction sites with
  | nil => rw [insertSite, List.filter_cons, List.filter_nil, insertSite]
  | cons u rest ih =>
      obtain ⟨hu, hrest⟩ := List.pairwise_cons.mp h
      rw [insertSite]
      by_cases hus : u.notAfter s = true
      · rw [if_pos hus, List.filter_cons, ih hrest, List.filter_cons]
        by_cases hp : p s = true
        · rw [if_pos hp, if_pos hp]
          by_cases hpu : p u = true
          · rw [if_pos hpu, if_pos hpu, insertSite, if_pos hus]
          · rw [if_neg hpu, if_neg hpu]
        · rw [if_neg hp, if_neg hp]
      · rw [if_neg hus, List.filter_cons]
        -- everything selected from here on comes after the site
        have hafter : ∀ t ∈ (u :: rest).filter p, ¬ t.notAfter s = true := by
          intro t ht hts
          rcases List.mem_cons.mp (List.mem_filter.mp ht).1 with rfl | ht
          · exact hus hts
          · exact hus (Site.notAfter_trans (hu t ht) hts)
        rw [insertSite_front hafter]

/-! ## Lists in order -/

theorem Ordered.filter (p : Site → Bool) (h : Ordered sites) : Ordered (sites.filter p) :=
  List.Pairwise.filter p h

/-- The first of a list in order has the least file. -/
theorem Ordered.file_least {s t : Site} (h : Ordered (s :: sites)) (ht : t ∈ s :: sites) :
    ¬ t.file < s.file := by
  rcases List.mem_cons.mp ht with rfl | ht
  · exact String.lt_irrefl _
  · exact Site.file_not_lt ((List.pairwise_cons.mp h).1 t ht)

/-- **FILE BY FILE**: lists in order with the same sites of each file are equal. -/
theorem Ordered.ext_files (h : Ordered sites) (h' : Ordered others)
    (hsame : ∀ file, sites.filter (·.file = file) = others.filter (·.file = file)) :
    sites = others := by
  induction sites generalizing others with
  | nil =>
      cases others with
      | nil => rfl
      | cons t rest => simpa using hsame t.file
  | cons s rest ih =>
      cases others with
      | nil => simpa using hsame s.file
      | cons t others =>
          have hs : s ∈ t :: others := by
            have : s ∈ (s :: rest).filter (·.file = s.file) := by simp
            exact (List.mem_filter.mp (hsame s.file ▸ this)).1
          have ht : t ∈ s :: rest := by
            have : t ∈ (t :: others).filter (·.file = t.file) := by simp
            exact (List.mem_filter.mp (hsame t.file ▸ this)).1
          -- each of the two heads has a file that is not after the other's
          have hfile : s.file = t.file :=
            Classical.byContradiction fun hne =>
              h'.file_least hs (Entries.name_lt_of_not_lt (h.file_least ht) (Ne.symm hne))
          have hheads := hsame s.file
          rw [List.filter_cons_of_pos (by simp), List.filter_cons_of_pos (by simp [hfile])]
            at hheads
          obtain ⟨rfl, -⟩ := List.cons.inj hheads
          congr 1
          refine ih (List.pairwise_cons.mp h).2 (List.pairwise_cons.mp h').2 fun file => ?_
          have hall := hsame file
          rw [List.filter_cons, List.filter_cons] at hall
          split at hall
          · exact (List.cons.inj hall).2
          · exact hall

/-- A site that comes last is put in its place last. -/
theorem inOrder_append (sites : List Site) (s : Site) :
    inOrder (sites ++ [s]) = insertSite s (inOrder sites) :=
  List.foldl_append

/-- The sites put in are those that were given. -/
theorem inOrder_perm (sites : List Site) : (inOrder sites).Perm sites := by
  -- sites that were put in before stay as well
  suffices hall : ∀ sorted : List Site,
      (sites.foldl (fun sorted s => insertSite s sorted) sorted).Perm (sites ++ sorted) by
    have hnone := hall []
    rwa [List.append_nil] at hnone
  induction sites with
  | nil => exact fun sorted => List.Perm.refl _
  | cons s rest ih =>
      intro sorted
      have hrest := (ih (insertSite s sorted)).trans ((insertSite_perm s sorted).append_left rest)
      exact hrest.trans List.perm_middle

/-- Putting sites in order loses none and adds none. -/
theorem mem_inOrder {s : Site} : s ∈ inOrder sites ↔ s ∈ sites := (inOrder_perm sites).mem_iff

theorem inOrder_eq_nil_iff : inOrder sites = [] ↔ sites = [] := by
  rw [List.eq_nil_iff_forall_not_mem, List.eq_nil_iff_forall_not_mem]
  exact forall_congr' fun _ => not_congr mem_inOrder

end MessageKeys.Reference
