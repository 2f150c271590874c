import Mathlib.Algebra.Order.Field.Basic
import Mathlib.Algebra.Order.Field.Rat
import Mathlib.Data.List.Sort
import Mathlib.Data.Prod.Lex
import Mathlib.Data.String.Basic
import Mathlib.Tactic.FieldSimp
import MessageKeys.Proofs.Decimal
import MessageKeys.Proofs.Key
import MessageKeys.Proofs.Suggestion

/-! # The list of suggestions — which keys it has and in which order

    A key is suggested for if it has no point, a site of it lies in a namespace, and the share of
    the namespace with most of its sites does not lie below the threshold (`Qualifies`).  What is
    suggested follows from the sites of the key alone (`Fits`).

    Candidates are sorted by exact shares: comparing products is comparing fractions as long as
    there are sites (`Candidate.notAfter_eq`), and fractions, namespaces and keys are in linear
    order (`Candidate.rank`).  Two suggestions are never for one key, and a key without points
    can be read off its new name, so the new names are different too.

    The quotients that are reported and compared with the threshold are these shares, rounded
    (`exists_rounds_quotient`).  They keep their order (`quotient_not_lt`): what is reported does
    not grow down the list (`pairwise_confidence`), and a share that reaches a threshold is
    larger than any that does not (`Qualifies.of_share_le`). -/

namespace MessageKeys.Suggestion

open Reference (Site Index)

variable {namespaceOf : String → Option String} {threshold : Float} {ix : Index}
  {sites : List Site} {key ns : String}

/-! ## Shares -/

/-- The share of a namespace in the sites of a key, as an exact fraction. -/
def share (namespaceOf : String → Option String) (sites : List Site) (ns : String) : ℚ :=
  countIn namespaceOf sites ns / sites.length

/-- A share as a double: the quotient that is reported and compared with the threshold. -/
def quotient (count total : Nat) : Float := count.toFloat / total.toFloat

/-- The largest number of sites in one namespace. -/
def IsLargest (namespaceOf : String → Option String) (sites : List Site) (count : Nat) : Prop :=
  (∃ ns, ns ≠ "" ∧ countIn namespaceOf sites ns = count) ∧
    ∀ ns, ns ≠ "" → countIn namespaceOf sites ns ≤ count

/-- There is one largest number, however many namespaces reach it. -/
theorem IsLargest.unique {m n : Nat} (hm : IsLargest namespaceOf sites m)
    (hn : IsLargest namespaceOf sites n) : m = n := by
  obtain ⟨⟨ns, hns, hcount⟩, hmost⟩ := hm
  obtain ⟨⟨ns', hns', hcount'⟩, hmost'⟩ := hn
  exact Nat.le_antisymm (hcount ▸ hmost' ns hns) (hcount' ▸ hmost ns' hns')

/-- The namespace that leads has the largest number of sites. -/
theorem Leads.isLargest (h : Leads namespaceOf sites ns) :
    IsLargest namespaceOf sites (countIn namespaceOf sites ns) :=
  ⟨⟨ns, h.named, rfl⟩, h.most⟩

/-- Its share is a positive one and at most the whole. -/
theorem Leads.share_bounds (h : Leads namespaceOf sites ns) :
    0 < share namespaceOf sites ns ∧ share namespaceOf sites ns ≤ 1 := by
  have hle := countIn_le namespaceOf sites ns
  have hpos : 0 < sites.length := Nat.lt_of_lt_of_le h.occurs hle
  have htotal : (0 : ℚ) < sites.length := Nat.cast_pos.mpr hpos
  refine ⟨div_pos (Nat.cast_pos.mpr h.occurs) htotal, ?_⟩
  rw [share, div_le_one htotal]
  exact Nat.cast_le.mpr hle

/-! ## The keys that are suggested for -/

/-- The key has no point and a site in a namespace, and the share of the largest namespace does not
    lie below the threshold. -/
structure Qualifies (threshold : Float) (namespaceOf : String → Option String) (key : String)
    (sites : List Site) : Prop where
  flat : '.' ∉ key.toList
  classified : ∃ s ∈ sites, ∃ ns, ns ≠ "" ∧ namespaceOf s.file = some ns
  reached : ∃ count, IsLargest namespaceOf sites count ∧ ¬ quotient count sites.length < threshold

/-- A candidate is confident by the rounded share of its namespace. -/
theorem Candidate.IsFor.confidence_eq {c : Candidate} (h : c.IsFor namespaceOf key sites) :
    c.confidence = quotient (countIn namespaceOf sites c.inNamespace) sites.length := by
  rw [Candidate.confidence, h.count_eq, h.total_eq, quotient]

/-- The list has exactly the keys that qualify. -/
theorem mem_keys_iff : key ∈ (forIndex threshold namespaceOf ix).map (·.key) ↔
    Qualifies threshold namespaceOf key (ix.usages key) := by
  constructor
  · intro hmem
    obtain ⟨s, hs, rfl⟩ := List.mem_map.mp hmem
    obtain ⟨c, rfl, hfor, hreached⟩ := exists_isFor_of_mem hs
    obtain ⟨site, hsite, hns⟩ := countIn_pos_iff.mp hfor.leads.occurs
    rw [hfor.confidence_eq] at hreached
    exact ⟨hfor.flat, ⟨site, hsite, _, hfor.leads.named, hns⟩, _, hfor.leads.isLargest, hreached⟩
  · rintro ⟨hflat, ⟨site, hsite, ns, hne, hns⟩, count, hlargest, hreached⟩
    obtain ⟨c, hc⟩ := exists_candidate hflat hsite hns hne
    have hfor := candidate?_spec hc
    have hkey := hfor.key_eq
    rw [hlargest.unique hfor.leads.isLargest, ← hfor.confidence_eq] at hreached
    subst hkey
    exact List.mem_map.mpr ⟨c.suggestion,
      List.mem_map.mpr ⟨c, mem_candidates_iff.mpr ⟨hc, hreached⟩, rfl⟩, rfl⟩

/-! ## What is suggested -/

/-- The suggestion is the one that the sites of its key make. -/
structure Fits (namespaceOf : String → Option String) (sites : List Site) (s : Suggestion) :
    Prop where
  named : s.inNamespace ≠ ""
  largest : IsLargest namespaceOf sites (countIn namespaceOf sites s.inNamespace)
  /-- Of the namespaces with as many sites it is the first by name. -/
  first : ∀ ns, ns ≠ "" → IsLargest namespaceOf sites (countIn namespaceOf sites ns) →
    s.inNamespace ≤ ns
  newKey_eq : s.newKey = s.inNamespace ++ "." ++ s.key
  files_increasing : s.files.Pairwise (· < ·)
  mem_files : ∀ file, file ∈ s.files ↔
    (∃ site ∈ sites, site.file = file) ∧ namespaceOf file = some s.inNamespace
  confidence_eq : s.confidence = quotient (countIn namespaceOf sites s.inNamespace) sites.length
  share_pos : 0 < share namespaceOf sites s.inNamespace
  share_le_one : share namespaceOf sites s.inNamespace ≤ 1

/-- Whatever is listed follows from the sites of its key. -/
theorem fits_of_mem {s : Suggestion} (h : s ∈ forIndex threshold namespaceOf ix) :
    Fits namespaceOf (ix.usages s.key) s := by
  obtain ⟨c, rfl, hfor, -⟩ := exists_isFor_of_mem h
  have hleads := hfor.leads
  refine ⟨hleads.named, hleads.isLargest, ?_, rfl, ?_, ?_, hfor.confidence_eq,
    hleads.share_bounds.1, hleads.share_bounds.2⟩
  · intro ns hns hlargest
    exact hleads.first ns hns (hlargest.unique hleads.isLargest)
  · show c.files.Pairwise (· < ·)
    rw [hfor.files_eq]
    exact List.pairwise_map.mpr (filesIn namespaceOf _ _).increasing
  · intro file
    show file ∈ c.files ↔ _
    rw [hfor.files_eq]
    exact mem_filesIn

/-! ## Order -/

/-- What candidates are sorted by: the larger share first, then the namespace and the key. -/
def Candidate.rank (c : Candidate) : ℚᵒᵈ ×ₗ String ×ₗ String :=
  toLex (OrderDual.toDual (c.count / c.total : ℚ), toLex (c.inNamespace, c.key))

/-- The order of ranks, part by part. -/
theorem Candidate.rank_le_iff {a b : Candidate} : a.rank ≤ b.rank ↔
    (b.count / b.total : ℚ) < a.count / a.total ∨
      (a.count / a.total : ℚ) = b.count / b.total ∧
        (a.inNamespace < b.inNamespace ∨ a.inNamespace = b.inNamespace ∧ a.key ≤ b.key) := by
  rw [Candidate.rank, Candidate.rank, Prod.Lex.toLex_le_toLex, Prod.Lex.toLex_le_toLex]
  rfl

/-- **EXACT SHARES**: comparing products is comparing fractions. -/
theorem Candidate.notAfter_eq {a b : Candidate} (ha : 0 < a.total) (hb : 0 < b.total) :
    a.notAfter b = decide (a.rank ≤ b.rank) := by
  have ha' : (0 : ℚ) < a.total := Nat.cast_pos.mpr ha
  have hb' : (0 : ℚ) < b.total := Nat.cast_pos.mpr hb
  have hlt : (b.count / b.total : ℚ) < a.count / a.total ↔
      b.count * a.total < a.count * b.total := by
    rw [div_lt_div_iff₀ hb' ha']
    exact_mod_cast Iff.rfl
  have heq : (a.count / a.total : ℚ) = b.count / b.total ↔
      a.count * b.total = b.count * a.total := by
    rw [div_eq_div_iff ha'.ne' hb'.ne']
    exact_mod_cast Iff.rfl
  rw [Bool.eq_iff_iff, decide_eq_true_eq, Candidate.rank_le_iff, hlt, heq]
  simp [Candidate.notAfter]

/-- Sorting candidates is sorting their ranks, and those are in linear order. -/
theorem pairwise_mergeSort_notAfter {cs : List Candidate} (h : ∀ c ∈ cs, 0 < c.total) :
    (cs.mergeSort Candidate.notAfter).Pairwise fun a b => a.rank ≤ b.rank := by
  have hmap : (cs.mergeSort Candidate.notAfter).map Candidate.rank
      = (cs.map Candidate.rank).mergeSort fun x y => decide (x ≤ y) :=
    List.map_mergeSort fun a ha b hb => Candidate.notAfter_eq (h a ha) (h b hb)
  rw [← List.pairwise_map, hmap]
  exact List.pairwise_mergeSort' (· ≤ ·) _

theorem pairwise_rank :
    (candidates threshold namespaceOf ix).Pairwise fun a b => a.rank ≤ b.rank := by
  refine pairwise_mergeSort_notAfter fun c hc => ?_
  have hmem : c ∈ candidates threshold namespaceOf ix := List.mem_mergeSort.mpr hc
  have hfor := candidate?_spec (mem_candidates_iff.mp hmem).1
  rw [hfor.total_eq]
  exact Nat.lt_of_lt_of_le hfor.leads.occurs (countIn_le _ _ _)

theorem pairwise_key :
    (candidates threshold namespaceOf ix).Pairwise fun a b => a.key ≠ b.key := by
  rw [candidates, (List.mergeSort_perm _ _).pairwise_iff Ne.symm]
  refine List.Pairwise.filter _ (ix.byKey.increasing.filterMap _ ?_)
  rintro ⟨key, sites⟩ ⟨key', sites'⟩ hlt a ha b hb
  rw [(candidate?_spec ha).key_eq, (candidate?_spec hb).key_eq]
  exact String.ne_of_lt hlt

/-- The share of the sites of its key that a suggestion is made for. -/
def shareOf (namespaceOf : String → Option String) (ix : Index) (s : Suggestion) : ℚ :=
  share namespaceOf (ix.usages s.key) s.inNamespace

/-- The first suggestion has the larger share, or the same and the smaller namespace, or the same
    again and the smaller key. -/
def ComesBefore (namespaceOf : String → Option String) (ix : Index) (s t : Suggestion) : Prop :=
  shareOf namespaceOf ix t < shareOf namespaceOf ix s ∨
    shareOf namespaceOf ix s = shareOf namespaceOf ix t ∧
      (s.inNamespace < t.inNamespace ∨ s.inNamespace = t.inNamespace ∧ s.key < t.key)

theorem shareOf_suggestion {c : Candidate} (h : c ∈ candidates threshold namespaceOf ix) :
    shareOf namespaceOf ix c.suggestion = c.count / c.total := by
  have hfor := candidate?_spec (mem_candidates_iff.mp h).1
  rw [hfor.count_eq, hfor.total_eq]
  rfl

/-- No two suggestions are for one key, so their order is strict. -/
theorem pairwise_comesBefore :
    (forIndex threshold namespaceOf ix).Pairwise (ComesBefore namespaceOf ix) := by
  refine List.pairwise_map.mpr ((pairwise_rank.and pairwise_key).imp_of_mem ?_)
  rintro a b ha hb ⟨hle, hne⟩
  rw [ComesBefore, shareOf_suggestion ha, shareOf_suggestion hb]
  refine (Candidate.rank_le_iff.mp hle).imp_right (And.imp_right (Or.imp_right (And.imp_right ?_)))
  exact fun hkey => lt_of_le_of_ne hkey hne

/-! ## New names -/

/-- A key without points is the last segment of its new name. -/
theorem key_of_newKey {ns' key' : String} (hflat : '.' ∉ key.toList) (hflat' : '.' ∉ key'.toList)
    (h : ns ++ "." ++ key = ns' ++ "." ++ key') : key = key' := by
  have hsegments : Key.segments ns ++ [key] = Key.segments ns' ++ [key'] := by
    have hkey : Key.segments key = [key] := Text.split_of_not_mem hflat
    have hkey' : Key.segments key' = [key'] := Text.split_of_not_mem hflat'
    rw [← hkey, ← hkey', ← Key.segments_extension, ← Key.segments_extension, h]
  exact (List.append_singleton_inj.mp hsegments).2

/-- No two suggestions have one new name. -/
theorem pairwise_newKey :
    (forIndex threshold namespaceOf ix).Pairwise fun s t => s.newKey ≠ t.newKey := by
  refine List.pairwise_map.mpr (pairwise_key.imp_of_mem ?_)
  intro a b ha hb hne he
  have hflat := (candidate?_spec (mem_candidates_iff.mp ha).1).flat
  have hflat' := (candidate?_spec (mem_candidates_iff.mp hb).1).flat
  exact hne (key_of_newKey hflat hflat' he)

/-- **SUGGESTIONS EXACTLY**: there is one suggestion for each key that qualifies and none for
    another one; each follows from the sites of its key; they come in order of their exact
    shares, namespaces and keys; and no two of them have one new name. -/
theorem suggestions_exact (threshold : Float) (namespaceOf : String → Option String) (ix : Index) :
    (∀ key, key ∈ (forIndex threshold namespaceOf ix).map (·.key) ↔
      Qualifies threshold namespaceOf key (ix.usages key)) ∧
    ((forIndex threshold namespaceOf ix).map (·.key)).Nodup ∧
    (∀ s ∈ forIndex threshold namespaceOf ix, Fits namespaceOf (ix.usages s.key) s) ∧
    (forIndex threshold namespaceOf ix).Pairwise (ComesBefore namespaceOf ix) ∧
    ((forIndex threshold namespaceOf ix).map (·.newKey)).Nodup := by
  refine ⟨fun _ => mem_keys_iff, ?_, fun _ => fits_of_mem, pairwise_comesBefore, ?_⟩
  · exact List.pairwise_map.mpr (List.pairwise_map.mpr pairwise_key)
  · exact List.pairwise_map.mpr pairwise_newKey

/-! ## Rounded shares

    The threshold and the shares that are reported are doubles.  As long as a key has fewer than
    `2 ^ 53` sites its counts are exact, so only the quotient is rounded. -/

variable {sites' : List Site} {key' ns' : String} {count total count' total' : ℕ}

/-- The quotient of a share is its fraction, rounded once: the counts themselves are exact. -/
theorem exists_rounds_quotient (hcount : 0 < count) (hle : count ≤ total)
    (hfew : total < 2 ^ 53) :
    ∃ n d e, Decimal.Rounds (quotient count total) (count / total) n d e := by
  have htotal : 0 < total := hcount.trans_le hle
  have hfew' : count < 2 ^ 53 := hle.trans_lt hfew
  obtain ⟨hm, hm'⟩ := Decimal.leading_bounds hcount hfew'
  obtain ⟨hn, hn'⟩ := Decimal.leading_bounds htotal hfew
  obtain ⟨s, hs, hrange⟩ := Decimal.exists_inRange hm hm' hn hn'
  have hlog := Decimal.log2_le_52 hcount hfew'
  have hlog' := Decimal.log2_le_52 htotal hfew
  have hparts := (Decimal.hasParts_toFloat hcount hfew').div
    (Decimal.hasParts_toFloat htotal hfew) hm hm' hn hn' (by omega) (by omega) hs hrange
  refine ⟨_, _, _, hrange, ?_, hparts⟩
  -- the scales of both counts are taken back
  obtain ⟨a, ha⟩ := Nat.exists_eq_add_of_le hlog
  obtain ⟨b, hb⟩ := Nat.exists_eq_add_of_le hlog'
  have hexponent : (count.log2 - 52 : ℤ) - (total.log2 - 52) - 53 + s
      = (b : ℤ) + s - (a + 53) := by omega
  have ha' : 52 - count.log2 = a := by omega
  have hb' : 52 - total.log2 = b := by omega
  have htotal' : (total : ℚ) ≠ 0 := Nat.cast_ne_zero.mpr htotal.ne'
  rw [hexponent, ha', hb', zpow_sub₀ two_ne_zero, zpow_add₀ two_ne_zero, zpow_add₀ two_ne_zero]
  push_cast
  rw [zpow_natCast, zpow_natCast, zpow_natCast]
  field_simp

/-- **ROUNDED SHARES** keep the order of the exact ones. -/
theorem quotient_not_lt (hcount : 0 < count) (hle : count ≤ total) (hfew : total < 2 ^ 53)
    (hcount' : 0 < count') (hle' : count' ≤ total') (hfew' : total' < 2 ^ 53)
    (h : (count / total : ℚ) ≤ count' / total') :
    ¬ quotient count' total' < quotient count total := by
  obtain ⟨_, _, _, hrounds⟩ := exists_rounds_quotient hcount hle hfew
  obtain ⟨_, _, _, hrounds'⟩ := exists_rounds_quotient hcount' hle' hfew'
  exact hrounds.not_lt hrounds' h

/-- If a share does not lie below a threshold, no larger one does. -/
theorem quotient_not_below (hcount : 0 < count) (hle : count ≤ total) (hfew : total < 2 ^ 53)
    (hcount' : 0 < count') (hle' : count' ≤ total') (hfew' : total' < 2 ^ 53)
    (h : (count / total : ℚ) ≤ count' / total') (hreached : ¬ quotient count total < threshold) :
    ¬ quotient count' total' < threshold := by
  have hnot := quotient_not_lt hcount hle hfew hcount' hle' hfew' h
  obtain ⟨_, _, _, hrounds⟩ := exists_rounds_quotient hcount hle hfew
  obtain ⟨_, _, _, hrounds'⟩ := exists_rounds_quotient hcount' hle' hfew'
  exact fun hbelow => hreached (hrounds.parts.lt_of_not_lt hrounds'.parts hnot hbelow)

/-- Three fifths are enough for the least threshold, although it is not the exact fraction. -/
theorem reaches_leastThreshold (hle : count ≤ total) (hfew : total < 2 ^ 53)
    (h : (3 / 5 : ℚ) ≤ count / total) : ¬ quotient count total < leastThreshold := by
  have hcount : 0 < count := by
    refine Nat.pos_of_ne_zero fun hzero => ?_
    rw [hzero, Nat.cast_zero, zero_div] at h
    norm_num at h
  exact quotient_not_below (by decide : 0 < 3) (by decide : 3 ≤ 5) (by decide) hcount hle hfew
    (by exact_mod_cast h) (by decide +kernel)

/-- Of two keys the one whose largest namespace has the larger share is suggested for if the
    other one is. -/
theorem Qualifies.of_share_le (h : Qualifies threshold namespaceOf key sites)
    (hlargest : IsLargest namespaceOf sites (countIn namespaceOf sites ns))
    (hfew : sites.length < 2 ^ 53) (hflat : '.' ∉ key'.toList)
    (hclassified : ∃ s ∈ sites', ∃ ns, ns ≠ "" ∧ namespaceOf s.file = some ns)
    (hlargest' : IsLargest namespaceOf sites' (countIn namespaceOf sites' ns'))
    (hfew' : sites'.length < 2 ^ 53)
    (hle : share namespaceOf sites ns ≤ share namespaceOf sites' ns') :
    Qualifies threshold namespaceOf key' sites' := by
  have hpos : ∀ {sites : List Site} {count : ℕ}, IsLargest namespaceOf sites count →
      (∃ s ∈ sites, ∃ ns, ns ≠ "" ∧ namespaceOf s.file = some ns) → 0 < count := by
    rintro sites count ⟨-, hmost⟩ ⟨s, hs, ns, hne, hns⟩
    exact (countIn_pos_iff.mpr ⟨s, hs, hns⟩).trans_le (hmost ns hne)
  obtain ⟨-, hclassified₀, count, hcount, hreached⟩ := h
  rw [hcount.unique hlargest] at hreached
  exact ⟨hflat, hclassified, _, hlargest', quotient_not_below (hpos hlargest hclassified₀)
    (countIn_le _ _ _) hfew (hpos hlargest' hclassified) (countIn_le _ _ _) hfew' hle hreached⟩

/-- Down the list of suggestions the shares that are reported do not grow. -/
theorem pairwise_confidence (hfew : ∀ key, (ix.usages key).length < 2 ^ 53) :
    (forIndex threshold namespaceOf ix).Pairwise fun s t => ¬ s.confidence < t.confidence := by
  refine pairwise_comesBefore.imp_of_mem fun {s t} hs ht hbefore => ?_
  have hfits := fits_of_mem hs
  have hfits' := fits_of_mem ht
  have hle : shareOf namespaceOf ix t ≤ shareOf namespaceOf ix s :=
    hbefore.elim le_of_lt fun h => h.1.ge
  have hcount : ∀ {s : Suggestion}, Fits namespaceOf (ix.usages s.key) s →
      0 < countIn namespaceOf (ix.usages s.key) s.inNamespace := by
    intro s hfits
    refine Nat.pos_of_ne_zero fun hzero => ?_
    have hpos := hfits.share_pos
    rw [share, hzero, Nat.cast_zero, zero_div] at hpos
    exact lt_irrefl _ hpos
  rw [hfits.confidence_eq, hfits'.confidence_eq]
  exact quotient_not_lt (hcount hfits') (countIn_le _ _ _) (hfew t.key) (hcount hfits)
    (countIn_le _ _ _) (hfew s.key) hle

end MessageKeys.Suggestion
