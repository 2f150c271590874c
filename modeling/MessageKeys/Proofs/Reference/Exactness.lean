import MessageKeys.Proofs.Reference.Scanner
import Mathlib.Data.List.Pairwise

/-! # The scanner finds exactly what is written

    A reference occurs in a line where its text stands and, unless it is a template, where one
    may start (`Occurs`).  The hits of a line are its occurrences, each of them once, also
    those that overlap or lie inside of one another (`mem_lineHits_iff`,
    `lineHits_distinct`).  The sites of a text are the occurrences in its lines without the
    calls that lie in a template of their key, again each of them once.

    `scan_exact` puts this together for every accessor and every text. -/

namespace MessageKeys.Reference

open Text

/-! ## Occurrences -/

/-- A reference may start behind these characters: there are none, or the last one is no word
    character, no point and no dollar. -/
def MayStart (before : List Char) : Prop :=
  before = [] ∨ ∃ init c, before = init ++ [c] ∧ isWord c = false ∧ c ≠ '.' ∧ c ≠ '$'

/-- The hit is a reference of its form to its key, with `before` on its left and `after` on
    its right. -/
structure Divides (accessor line : List Char) (h : Hit) (before literal after : List Char) :
    Prop where
  line_eq : line = before ++ (literal ++ after)
  start_eq : h.start = before.length
  stop_eq : h.stop = before.length + literal.length
  writes : Writes accessor h.form h.key literal
  longest : h.form = .reactive → IsLongest h.key after
  mayStart : h.form.isTemplate = true ∨ MayStart before

/-- A reference occurs in the line where the hit says. -/
def Occurs (accessor line : List Char) (h : Hit) : Prop :=
  ∃ before literal after, Divides accessor line h before literal after

/-- The hit is a call that lies in a template of the same key. -/
def InTemplate (accessor line : List Char) (h : Hit) : Prop :=
  h.form.isCall = true ∧ ∃ outer, Occurs accessor line outer ∧ outer.form.isTemplate = true ∧
    outer.key = h.key ∧ outer.start ≤ h.start ∧ h.stop ≤ outer.stop

theorem freeAfter_iff_mayStart (before : List Char) :
    freeAfter true before = true ↔ MayStart before := by
  rw [freeAfter_iff, MayStart]
  simp [isBoundary, and_assoc]

variable {accessor : String} {line : List Char} {h : Hit}

/-- **HITS ARE OCCURRENCES**: a line is hit exactly where a reference occurs. -/
theorem mem_lineHits_iff (ha : isAccessor accessor = true) :
    h ∈ lineHits (Pattern.defaults accessor) line ↔ Occurs accessor.toList line h := by
  have hacc := isAccessor_spec ha
  rw [mem_lineHits_defaults ha]
  constructor
  · rintro ⟨before, post, key, after, rfl, hfree, hfront, he⟩
    obtain ⟨literal, rfl, hwrites, hlongest⟩ := (front?_eq_some hacc).mp hfront
    have hkey : h.key = key := congrArg Hit.key he
    have hstart : h.start = 0 + before.length := congrArg Hit.start he
    have hstop : h.stop = 0 + before.length + ((literal ++ after).length - after.length) :=
      congrArg Hit.stop he
    rw [List.length_append] at hstop
    subst hkey
    refine ⟨before, literal, after, rfl, by omega, by omega, hwrites, hlongest, ?_⟩
    rw [Bool.or_eq_true, freeAfter_iff_mayStart] at hfree
    exact hfree
  · rintro ⟨before, literal, after, hoccurs⟩
    refine ⟨before, literal ++ after, h.key, after, hoccurs.line_eq, ?_,
      (front?_eq_some hacc).mpr ⟨literal, rfl, hoccurs.writes, hoccurs.longest⟩, ?_⟩
    · rw [Bool.or_eq_true, freeAfter_iff_mayStart]
      exact hoccurs.mayStart
    · have hstart := hoccurs.start_eq
      have hstop := hoccurs.stop_eq
      obtain ⟨form, key, start, stop⟩ := h
      simp only [List.length_append, Hit.mk.injEq, true_and]
      dsimp only at hstart hstop
      omega

/-- A hit is left out exactly if it lies in a template of its key. -/
theorem isWrapped_iff (ha : isAccessor accessor = true) :
    h.isWrapped (lineHits (Pattern.defaults accessor) line) = true ↔
      InTemplate accessor.toList line h := by
  rw [Hit.isWrapped, Bool.and_eq_true, List.any_eq_true, InTemplate]
  simp only [mem_lineHits_iff ha, Bool.and_eq_true, decide_eq_true_eq, and_assoc]

/-! ## Each occurrence once -/

namespace Pattern

variable {p : Pattern}

/-- Hits are found further on, and they have the form of the pattern. -/
theorem start_of_mem_hitsFrom {i : Nat} {free : Bool} (hmem : h ∈ p.hitsFrom i free line) :
    i ≤ h.start ∧ h.form = p.form := by
  induction line generalizing i free with
  | nil => cases hmem
  | cons c cs ih =>
      rw [hitsFrom] at hmem
      split at hmem
      · rcases List.mem_cons.mp hmem with rfl | hmem
        · exact ⟨Nat.le_refl i, rfl⟩
        · obtain ⟨hstart, hform⟩ := ih hmem
          exact ⟨by omega, hform⟩
      · obtain ⟨hstart, hform⟩ := ih hmem
        exact ⟨by omega, hform⟩

/-- A pattern is hit once at most at each character. -/
theorem hitsFrom_increasing (i : Nat) (free : Bool) (line : List Char) :
    (p.hitsFrom i free line).Pairwise fun a b => a.start < b.start := by
  induction line generalizing i free with
  | nil => exact List.Pairwise.nil
  | cons c cs ih =>
      rw [hitsFrom]
      split
      · refine List.pairwise_cons.mpr ⟨fun b hb => ?_, ih _ _⟩
        show i < b.start
        have := (start_of_mem_hitsFrom hb).1
        omega
      · exact ih _ _

end Pattern

/-- No two hits of a line have the same form and start at the same character. -/
theorem lineHits_distinct (accessor : String) (line : List Char) :
    (lineHits (Pattern.defaults accessor) line).Pairwise
      fun a b => ¬ (a.form = b.form ∧ a.start = b.start) := by
  rw [lineHits, List.pairwise_flatMap]
  constructor
  · intro p _
    exact (p.hitsFrom_increasing 0 true line).imp fun hlt hsame => by omega
  · -- different patterns have different forms
    rw [Pattern.defaults, List.pairwise_map]
    have hforms : Definition.tableOrder.Pairwise (· ≠ ·) := by decide
    refine hforms.imp fun hne a ha b hb hsame => hne ?_
    have hforma := (Pattern.start_of_mem_hitsFrom ha).2
    have hformb := (Pattern.start_of_mem_hitsFrom hb).2
    exact hforma.symm.trans (hsame.1.trans hformb)

/-- A line is hit once at most at a character by a form. -/
theorem Occurs.unique (ha : isAccessor accessor = true) (hh : Occurs accessor.toList line h)
    {g : Hit} (hg : Occurs accessor.toList line g) (hform : h.form = g.form)
    (hstart : h.start = g.start) : h = g := by
  by_contra hne
  have hsymm : Std.Symm fun a b : Hit => ¬ (a.form = b.form ∧ a.start = b.start) :=
    ⟨fun a b hab hba => hab ⟨hba.1.symm, hba.2.symm⟩⟩
  exact (lineHits_distinct accessor line).forall ((mem_lineHits_iff ha).mpr hh)
    ((mem_lineHits_iff ha).mpr hg) hne ⟨hform, hstart⟩

/-- A call in the arguments of another one is hit as well. -/
example : lineHits (Pattern.defaults "m") "m.a(m.b())".toList
    = [⟨.bareCall, ['b'], 4, 9⟩, ⟨.callWithArgs, ['a'], 0, 9⟩] := by rfl

/-- Two sites at one place of a text, of one form. -/
def Site.Coincides (a b : Site) : Prop :=
  a.line = b.line ∧ a.column = b.column ∧ a.form = b.form

theorem line_of_mem_lineSites {table : List Pattern} {number : Nat} {s : Site}
    (hs : s ∈ lineSites table number line) : s.line = number := by
  obtain ⟨h, -, -, rfl⟩ := mem_lineSites.mp hs
  rfl

/-- So no two sites of a line coincide; sorting them changes nothing about it. -/
theorem lineSites_distinct (accessor : String) (number : Nat) (line : List Char) :
    (lineSites (Pattern.defaults accessor) number line).Pairwise fun a b => ¬ a.Coincides b := by
  rw [lineSites, List.pairwise_map]
  have hhits : ((lineHits (Pattern.defaults accessor) line).filter fun h =>
      !h.isWrapped (lineHits (Pattern.defaults accessor) line)).Pairwise
        fun a b => ¬ (a.form = b.form ∧ a.start = b.start) :=
    (lineHits_distinct accessor line).filter _
  have hsorted := (List.mergeSort_perm _ fun a b : Hit => decide (a.start ≤ b.start)).symm.pairwise
    hhits fun hne hsame => hne ⟨hsame.1.symm, hsame.2.symm⟩
  refine hsorted.imp fun hne hsame => hne ⟨hsame.2.2, ?_⟩
  have hcolumns : _ + 1 = _ + 1 := hsame.2.1
  omega

theorem sitesFrom_distinct (accessor : String) (first : Nat) (ls : List (List Char)) :
    (sitesFrom (Pattern.defaults accessor) first ls).Pairwise fun a b => ¬ a.Coincides b := by
  induction ls generalizing first with
  | nil => exact List.Pairwise.nil
  | cons line rest ih =>
      rw [sitesFrom]
      refine List.pairwise_append.mpr ⟨lineSites_distinct accessor first line, ih _, ?_⟩
      intro a ha b hb hsame
      -- the lines behind have greater numbers
      obtain ⟨n, other, -, hother⟩ := mem_sitesFrom.mp hb
      have hlines := hsame.1
      rw [line_of_mem_lineSites ha, line_of_mem_lineSites hother] at hlines
      omega

/-! ## The scanner -/

/-- What the scanner finds in a text. -/
structure ScansExactly (accessor text : String) : Prop where
  /-- The matches of a line are the references that occur in it, … -/
  hits : ∀ line ∈ lines text.toList, ∀ h,
    h ∈ lineHits (Pattern.defaults accessor) line ↔ Occurs accessor.toList line h
  /-- … one at each character and of each form. -/
  hits_distinct : ∀ line ∈ lines text.toList,
    (lineHits (Pattern.defaults accessor) line).Pairwise
      fun a b => ¬ (a.form = b.form ∧ a.start = b.start)
  /-- The sites are these without the calls in templates, … -/
  sites : ∀ s, s ∈ scan (Pattern.defaults accessor) text ↔
    ∃ n line h, (lines text.toList)[n]? = some line ∧ Occurs accessor.toList line h ∧
      ¬ InTemplate accessor.toList line h ∧ s = h.site line (n + 1)
  /-- … each of them once. -/
  sites_distinct : (scan (Pattern.defaults accessor) text).Pairwise fun a b => ¬ a.Coincides b
  /-- The text of a site stands in its line at its column and is a reference to its key. -/
  verbatim : ∀ s ∈ scan (Pattern.defaults accessor) text, ∃ line before after,
    (lines text.toList)[s.line - 1]? = some line ∧
      line = before ++ (s.text.toList ++ after) ∧ s.column = before.length + 1 ∧
      Writes accessor.toList s.form s.key.toList s.text.toList ∧ s.key.toList <:+: s.text.toList

theorem mem_scan_iff (ha : isAccessor accessor = true) {text : String} {s : Site} :
    s ∈ scan (Pattern.defaults accessor) text ↔
      ∃ n line h, (lines text.toList)[n]? = some line ∧ Occurs accessor.toList line h ∧
        ¬ InTemplate accessor.toList line h ∧ s = h.site line (n + 1) := by
  rw [mem_scan]
  constructor
  · rintro ⟨n, line, hn, h, hmem, hwrapped, rfl⟩
    rw [← Bool.not_eq_true, isWrapped_iff ha] at hwrapped
    exact ⟨n, line, h, hn, (mem_lineHits_iff ha).mp hmem, hwrapped, by rw [Nat.add_comm]⟩
  · rintro ⟨n, line, h, hn, hoccurs, hwrapped, rfl⟩
    rw [← isWrapped_iff ha, Bool.not_eq_true] at hwrapped
    exact ⟨n, line, hn, h, (mem_lineHits_iff ha).mpr hoccurs, hwrapped, by rw [Nat.add_comm]⟩

/-- The sites of a numbered line. -/
theorem exists_hit_of_mem_scan (ha : isAccessor accessor = true) {text : String} {n : Nat} {s : Site}
    (hn : (lines text.toList)[n]? = some line) (hs : s ∈ scan (Pattern.defaults accessor) text)
    (hline : s.line = n + 1) :
    ∃ g, Occurs accessor.toList line g ∧ ¬ InTemplate accessor.toList line g ∧
      s = g.site line (n + 1) := by
  obtain ⟨m, line', g, hm, hg, hfree, rfl⟩ := (mem_scan_iff ha).mp hs
  have hnumber : m + 1 = n + 1 := hline
  obtain rfl : m = n := Nat.succ.inj hnumber
  obtain rfl : line' = line := Option.some.inj (hm.symm.trans hn)
  exact ⟨g, hg, hfree, rfl⟩

/-- An occurrence is reported exactly if no template of its key spans it. -/
theorem site_mem_scan_iff (ha : isAccessor accessor = true) {text : String} {n : Nat}
    (hn : (lines text.toList)[n]? = some line) (hh : Occurs accessor.toList line h) :
    h.site line (n + 1) ∈ scan (Pattern.defaults accessor) text ↔
      ¬ InTemplate accessor.toList line h := by
  constructor
  · intro hmem
    obtain ⟨g, hg, hfree, hsite⟩ := exists_hit_of_mem_scan ha hn hmem rfl
    have hform : h.form = g.form := congrArg Site.form hsite
    have hcolumn : h.start + 1 = g.start + 1 := congrArg Site.column hsite
    rw [hh.unique ha hg hform (Nat.succ.inj hcolumn)]
    exact hfree
  · intro hfree
    exact (mem_scan_iff ha).mpr ⟨n, line, h, hn, hh, hfree, rfl⟩

/-- What a site shows is the reference that occurs. -/
theorem Divides.site_text {accessor before literal after : List Char}
    (hoccurs : Divides accessor line h before literal after) (number : Nat) :
    (h.site line number).text.toList = literal := by
  have hlength : h.stop - h.start = literal.length := by
    rw [hoccurs.start_eq, hoccurs.stop_eq]
    omega
  show (String.ofList ((line.drop h.start).take (h.stop - h.start))).toList = literal
  rw [String.toList_ofList, hlength, hoccurs.start_eq, hoccurs.line_eq, List.drop_left,
    List.take_left]

/-- **EXACTNESS**: for every accessor and every text, the scanner finds the references that are
    written there, where one may start, and no others. -/
theorem scan_exact {accessor : String} (ha : isAccessor accessor = true) (text : String) :
    ScansExactly accessor text where
  hits _ _ _ := mem_lineHits_iff ha
  hits_distinct line _ := lineHits_distinct accessor line
  sites _ := mem_scan_iff ha
  sites_distinct := sitesFrom_distinct accessor 1 _
  verbatim := by
    intro s hs
    obtain ⟨n, line, h, hn, ⟨before, literal, after, hoccurs⟩, -, rfl⟩ := (mem_scan_iff ha).mp hs
    have hkey : (h.site line (n + 1)).key.toList = h.key := String.toList_ofList
    have hcolumn : (h.site line (n + 1)).column = h.start + 1 := rfl
    refine ⟨line, before, after, hn, ?_, ?_, ?_, ?_⟩
    · rw [hoccurs.site_text]
      exact hoccurs.line_eq
    · rw [hcolumn, hoccurs.start_eq]
    · rw [hoccurs.site_text, hkey]
      exact hoccurs.writes
    · rw [hoccurs.site_text, hkey]
      exact hoccurs.writes.holds_key

/-- The call in the arguments is no call in a template, the one in braces is. -/
theorem scan_exact_sample :
    isAccessor "m" = true ∧ ScansExactly "m" "m.a(m.b())\n\x7bm.hi()\x7d" :=
  ⟨by decide, scan_exact (by decide) _⟩

end MessageKeys.Reference
