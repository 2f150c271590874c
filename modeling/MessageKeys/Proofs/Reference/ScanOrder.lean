import Mathlib.Data.List.Nodup
import MessageKeys.Proofs.Reference.Precedence

/-! # Scanned sites are in order, one at each place

    Different forms can match around one accessor, and they can overlap in other ways, but they
    do not start at one character.  What a match starts with tells where its accessor is
    (`leads_unique`), and of two matches with one accessor only the template stands before it
    (`Occurs.start_unique`).

    The hits of a line are sorted by where they start, so the sites of a text are strictly
    increasing in line and column (`scan_increasing`), and line and column, with the file of a
    source, identify a site. -/

namespace MessageKeys.Reference

open Text

/-- The first site stands in a line before that of the second one, or further left in it. -/
def Site.Before (a b : Site) : Prop := a.line < b.line ∨ a.line = b.line ∧ a.column < b.column

/-- The order of what the scanner reports for an accessor. -/
structure ScansInOrder (accessor : String) : Prop where
  /-- The sites of a text are strictly increasing in line and column, … -/
  increasing : ∀ text, (scan (Pattern.defaults accessor) text).Pairwise Site.Before
  /-- … so no two of them have the same line and column, … -/
  places_distinct : ∀ text,
    ((scan (Pattern.defaults accessor) text).map fun s => (s.line, s.column)).Nodup
  /-- … and file, line, column and key identify a site among those of many sources. -/
  identified : ∀ sources : List Source, (sources.map (·.path)).Nodup →
    ((sources.flatMap fun source => source.sites (scan (Pattern.defaults accessor))).map
      fun s => (s.file, s.line, s.column, s.key)).Nodup

/-! ## Matches that start at one character -/

variable {accessor : String} {line : List Char} {h g : Hit}

/-- **ONE START**: two matches that start at one character are the same match. -/
theorem Occurs.start_unique (ha : isAccessor accessor = true)
    (hh : Occurs accessor.toList line h) (hg : Occurs accessor.toList line g)
    (hstart : h.start = g.start) : h = g := by
  obtain ⟨before, literal, after, hdivides⟩ := id hh
  obtain ⟨before', literal', after', hdivides'⟩ := id hg
  have hlength : before.length = before'.length := by
    rw [← hdivides.start_eq, ← hdivides'.start_eq, hstart]
  have hrest : literal ++ after = literal' ++ after' :=
    (List.append_inj (hdivides.line_eq.symm.trans hdivides'.line_eq) hlength).2
  obtain ⟨lead, rest, hlead, hliteral, -⟩ := hdivides.around
  obtain ⟨lead', rest', hlead', hliteral', -⟩ := hdivides'.around
  -- so both have their accessor at the same column
  have hfronts : lead ++ (accessor.toList ++ h.form.separator :: (rest ++ after))
      = lead' ++ (accessor.toList ++ g.form.separator :: (rest' ++ after')) := by
    rw [hliteral, hliteral'] at hrest
    simpa using hrest
  obtain rfl : lead = lead' := leads_unique (isAccessor_spec ha) hlead hlead' hfronts
  have hat : (h.site line 0).AccessorAt accessor.toList (h.start + 1 + lead.length) :=
    ⟨lead, rest, hlead, (hdivides.site_text 0).trans hliteral, rfl⟩
  have hat' : (g.site line 0).AccessorAt accessor.toList (h.start + 1 + lead.length) := by
    rw [hstart]
    exact ⟨lead, rest', hlead', (hdivides'.site_text 0).trans hliteral', rfl⟩
  -- no template starts with its accessor, as calls do
  have hne : ∀ {form form' : Form}, Leads form lead → Leads form' lead → form.isCall = true →
      ¬ form'.isTemplate = true := by
    intro form form' hcall htemplate hform hform'
    rcases leads_spec hcall with ⟨hno, -⟩ | ⟨-, present, rfl⟩
    · exact (isCall_spec hform).1 hno
    · rcases leads_spec htemplate with ⟨-, bs, -, he⟩ | ⟨hno, -⟩
      · cases present <;> cases he
      · rw [hno] at hform'
        cases hform'
  rcases hh.same_or_spanned ha hg hat hat' with hsame | hspanned | hspanned
  · exact hsame
  · exact absurd hspanned.2.1 (hne hlead hlead' hspanned.1)
  · exact absurd hspanned.2.1 (hne hlead' hlead hspanned.1)

/-- Two forms match around one accessor here, but not at one character. -/
example : lineHits (Pattern.defaults "m") "\x7bm.a()\x7d".toList
    = [⟨.templateCall, ['a'], 0, 7⟩, ⟨.bareCall, ['a'], 1, 6⟩] := by rfl

/-! ## The order of sites -/

/-- Hits that are sorted start one behind the other. -/
theorem starts_sorted (hits : List Hit) :
    (hits.mergeSort fun a b => a.start ≤ b.start).Pairwise fun a b => a.start ≤ b.start := by
  have hsorted : (hits.mergeSort fun a b => a.start ≤ b.start).Pairwise
      fun a b => decide (a.start ≤ b.start) = true := by
    refine List.pairwise_mergeSort ?_ ?_ hits
    · intro a b c hab hbc
      exact decide_eq_true (Nat.le_trans (of_decide_eq_true hab) (of_decide_eq_true hbc))
    · intro a b
      rw [Bool.or_eq_true, decide_eq_true_eq, decide_eq_true_eq]
      exact Nat.le_total a.start b.start
  exact hsorted.imp of_decide_eq_true

/-- The sites of a line are strictly increasing in their columns. -/
theorem lineSites_increasing (ha : isAccessor accessor = true) (number : Nat) (line : List Char) :
    (lineSites (Pattern.defaults accessor) number line).Pairwise Site.Before := by
  have hsorted : (lineSites (Pattern.defaults accessor) number line).Pairwise
      fun a b => a.column ≤ b.column := by
    rw [lineSites, List.pairwise_map]
    exact (starts_sorted _).imp Nat.succ_le_succ
  refine (hsorted.and (lineSites_distinct accessor number line)).imp_of_mem ?_
  rintro a b hmem hmem' ⟨hle, hne⟩
  obtain ⟨h, hh, -, rfl⟩ := mem_lineSites.mp hmem
  obtain ⟨g, hg, -, rfl⟩ := mem_lineSites.mp hmem'
  refine .inr ⟨rfl, Nat.lt_of_le_of_ne hle ?_⟩
  -- at one column it would be one hit, which is listed once
  intro hcolumn
  obtain rfl : h = g := Occurs.start_unique ha ((mem_lineHits_iff ha).mp hh)
    ((mem_lineHits_iff ha).mp hg) (Nat.succ.inj hcolumn)
  exact hne ⟨rfl, rfl, rfl⟩

theorem sitesFrom_increasing (ha : isAccessor accessor = true) (first : Nat)
    (ls : List (List Char)) :
    (sitesFrom (Pattern.defaults accessor) first ls).Pairwise Site.Before := by
  induction ls generalizing first with
  | nil => exact List.Pairwise.nil
  | cons line rest ih =>
      rw [sitesFrom]
      refine List.pairwise_append.mpr ⟨lineSites_increasing ha first line, ih _, ?_⟩
      intro a ha b hb
      -- the lines behind have greater numbers
      obtain ⟨n, other, -, hother⟩ := mem_sitesFrom.mp hb
      refine .inl ?_
      rw [line_of_mem_lineSites ha, line_of_mem_lineSites hother]
      omega

/-- The sites of different sources have different files, those of one source different places. -/
theorem sites_distinct {read : String → List Site} (hread : ∀ text, (read text).Pairwise Site.Before)
    {sources : List Source} (hpaths : (sources.map (·.path)).Nodup) :
    ((sources.flatMap fun source => source.sites read).map
      fun s => (s.file, s.line, s.column, s.key)).Nodup := by
  rw [List.Nodup, List.pairwise_map, List.pairwise_flatMap]
  constructor
  · intro source _
    rw [Source.sites, List.pairwise_map]
    refine (hread source.text).imp fun {a b} hbefore hsame => ?_
    obtain ⟨-, hline, hcolumn, -⟩ : source.path = source.path ∧ a.line = b.line ∧
        a.column = b.column ∧ a.key = b.key := by simpa using hsame
    rcases hbefore with hlt | ⟨-, hlt⟩ <;> omega
  · rw [List.Nodup, List.pairwise_map] at hpaths
    refine hpaths.imp fun {source other} hne a ha b hb hsame => hne ?_
    obtain ⟨s, -, rfl⟩ := List.mem_map.mp ha
    obtain ⟨t, -, rfl⟩ := List.mem_map.mp hb
    exact congrArg Prod.fst hsame

/-- **STRICT ORDER**: for every accessor, whatever forms overlap in a text, its sites are strictly
    increasing in line and column. -/
theorem scan_increasing (ha : isAccessor accessor = true) : ScansInOrder accessor where
  increasing _ := sitesFrom_increasing ha 1 _
  places_distinct text := by
    rw [List.Nodup, List.pairwise_map]
    refine (sitesFrom_increasing ha 1 _).imp fun {a b} hbefore hsame => ?_
    obtain ⟨hline, hcolumn⟩ := Prod.mk.inj hsame
    rcases hbefore with hlt | ⟨-, hlt⟩ <;> omega
  identified _ hpaths := sites_distinct (fun _ => sitesFrom_increasing ha 1 _) hpaths

/-- Also where the accessor is a dollar. -/
theorem scan_increasing_dollar : isAccessor "$" = true ∧ ScansInOrder "$" :=
  ⟨by decide, scan_increasing (by decide)⟩

end MessageKeys.Reference
