import MessageKeys.Proofs.Reference.Syntax
import MessageKeys.Reference.Scanner

/-! # What the scanner reports — hits are places where a form stands

    A hit of a pattern is a place of the line at which the form of the pattern can be read
    and, unless it is a template, a reference may start (`mem_hitsFrom`).  A reported site is
    a hit that is not the call of a template (`mem_scan`), and since the template has the
    key of its call, some site of a key is reported wherever there is a hit of it
    (`exists_site_iff`).  `exists_place_iff` says the same of places in the whole text. -/

namespace MessageKeys.Reference

open Text

/-! ## Where references may start -/

/-- A reference may start behind these characters; `free` says so of where they start. -/
def freeAfter (free : Bool) : List Char → Bool
  | [] => free
  | c :: cs => freeAfter (isBoundary c) cs

theorem freeAfter_append (free : Bool) (xs ys : List Char) :
    freeAfter free (xs ++ ys) = freeAfter (freeAfter free xs) ys := by
  induction xs generalizing free with
  | nil => rfl
  | cons c cs ih => exact ih (isBoundary c)

/-- Behind characters that are no boundary no reference may start. -/
theorem freeAfter_run {free : Bool} {xs : List Char} (hne : xs ≠ [])
    (hxs : ∀ x ∈ xs, isBoundary x = false) : freeAfter free xs = false := by
  rcases List.eq_nil_or_concat xs with rfl | ⟨init, c, he⟩
  · exact absurd rfl hne
  · rw [List.concat_eq_append] at he
    subst he
    rw [freeAfter_append]
    exact hxs c (List.mem_append_right _ (List.mem_singleton_self _))

/-- Lines start free. -/
theorem freeAfter_endsLine {before : List Char} (h : EndsLine before) (within : List Char) :
    freeAfter true (before ++ within) = freeAfter true within := by
  have hfree : freeAfter true before = true := by
    rcases h with rfl | h
    · rfl
    · obtain ⟨init, rfl⟩ := List.getLast?_eq_some_iff.mp h
      rw [freeAfter_append]
      rfl
  rw [freeAfter_append, hfree]

/-- They may start where nothing stands before, or behind a boundary. -/
theorem freeAfter_iff {before : List Char} :
    freeAfter true before = true ↔
      before = [] ∨ ∃ init c, before = init ++ [c] ∧ isBoundary c = true := by
  constructor
  · intro h
    rcases List.eq_nil_or_concat before with rfl | ⟨init, c, hbefore⟩
    · exact .inl rfl
    · rw [List.concat_eq_append] at hbefore
      subst hbefore
      rw [freeAfter_append] at h
      exact .inr ⟨init, c, rfl, h⟩
  · rintro (rfl | ⟨init, c, rfl, hc⟩)
    · rfl
    · rw [freeAfter_append]
      exact hc

/-! ## Fronts of references -/

variable {accessor : List Char}

/-- Only the templates start with a character that ends something. -/
theorem not_isBoundary_of_front? (ha : IsAccessor accessor) {form : Form}
    (hform : form.isTemplate = false) {c : Char} {cs : List Char} {r : List Char × List Char}
    (h : Literal.front? form accessor (c :: cs) = some r) : isBoundary c = false := by
  obtain ⟨k, rest⟩ := r
  cases form with
  | bareCall => exact not_isBoundary_of_isAccessorTail (ha.front (Literal.bareCall?_eq_some.mp h).2)
  | callWithArgs =>
      obtain ⟨-, args, -, -, hcs⟩ := Literal.callWithArgs?_eq_some.mp h
      exact not_isBoundary_of_isAccessorTail (ha.front hcs)
  | reactive =>
      obtain ⟨-, -, hcs⟩ := Literal.reactive?_eq_some.mp h
      obtain ⟨rfl, -⟩ := List.cons.inj hcs
      decide
  | templateCall => cases hform
  | templateRef => cases hform
  | dynamicLookup =>
      obtain ⟨-, present, b, hcs⟩ := (Literal.dynamicLookup?_eq_some ha).mp h
      cases present with
      | true =>
          obtain ⟨rfl, -⟩ := List.cons.inj hcs
          decide
      | false => exact not_isBoundary_of_isAccessorTail (ha.front hcs)

theorem front?_nil (ha : IsAccessor accessor) (form : Form) :
    Literal.front? form accessor [] = none := by
  refine Option.eq_none_iff_forall_ne_some.mpr fun r h => ?_
  obtain ⟨literal, hnil, hwrites, -⟩ := (front?_eq_some ha).mp h
  exact hwrites.ne_nil (List.append_eq_nil_iff.mp hnil.symm).1

/-- The key of a reference is one. -/
theorem isKey_of_front? (ha : IsAccessor accessor) {form : Form} {cs k rest : List Char}
    (h : Literal.front? form accessor cs = some (k, rest)) : IsKey k := by
  obtain ⟨literal, -, hwrites, -⟩ := (front?_eq_some ha).mp h
  exact hwrites.isKey

/-! ## Hits -/

namespace Pattern

/-- The hit stands in the rest of a line that starts at character `i`: the form can be read
    there and, unless it is a template, a reference may start. -/
def StandsIn (p : Pattern) (i : Nat) (free : Bool) (line : List Char) (h : Hit) : Prop :=
  ∃ pre post key rest, line = pre ++ post ∧
    (p.form.isTemplate || freeAfter free pre) = true ∧
    Literal.front? p.form p.accessor post = some (key, rest) ∧
    h = ⟨p.form, key, i + pre.length, i + pre.length + (post.length - rest.length)⟩

variable {p : Pattern} {i : Nat} {free : Bool} {c : Char} {cs line : List Char} {h : Hit}

/-- A hit stands at the first character or further on. -/
theorem standsIn_cons :
    p.StandsIn i free (c :: cs) h ↔
      (∃ key rest, p.reference? free (c :: cs) = some (key, rest) ∧
        h = ⟨p.form, key, i, i + ((c :: cs).length - rest.length)⟩) ∨
      p.StandsIn (i + 1) (isBoundary c) cs h := by
  constructor
  · rintro ⟨pre, post, key, rest, hline, hfree, hfront, rfl⟩
    cases pre with
    | nil =>
        rw [List.nil_append] at hline
        subst hline
        refine .inl ⟨key, rest, ?_, by simp⟩
        rw [freeAfter, Bool.or_comm] at hfree
        rw [reference?, if_pos hfree]
        exact hfront
    | cons d pre =>
        obtain ⟨rfl, rfl⟩ := List.cons.inj hline
        refine .inr ⟨pre, post, key, rest, rfl, hfree, hfront, ?_⟩
        simp only [List.length_cons, Hit.mk.injEq, true_and]
        omega
  · rintro (⟨key, rest, href, rfl⟩ | ⟨pre, post, key, rest, rfl, hfree, hfront, rfl⟩)
    · rw [reference?] at href
      split at href
      · next hfree =>
        rw [Bool.or_comm] at hfree
        exact ⟨[], c :: cs, key, rest, rfl, hfree, href, by simp⟩
      · cases href
    · refine ⟨c :: pre, post, key, rest, rfl, hfree, hfront, ?_⟩
      simp only [List.length_cons, Hit.mk.injEq, true_and]
      omega

/-- Behind a reference none starts, as behind any other character that ends nothing. -/
theorem standsIn_behind (ha : IsAccessor p.accessor) {r : List Char × List Char}
    (href : p.reference? free (c :: cs) = some r) :
    p.StandsIn (i + 1) false cs h ↔ p.StandsIn (i + 1) (isBoundary c) cs h := by
  cases htemplate : p.form.isTemplate with
  | true => simp [StandsIn, htemplate]
  | false =>
      rw [reference?] at href
      split at href
      · rw [not_isBoundary_of_front? ha htemplate href]
      · cases href

/-- **HITS**: a pattern is hit exactly where it stands. -/
theorem mem_hitsFrom (ha : IsAccessor p.accessor) :
    h ∈ p.hitsFrom i free line ↔ p.StandsIn i free line h := by
  induction line generalizing i free with
  | nil =>
      refine iff_of_false List.not_mem_nil ?_
      rintro ⟨pre, post, key, rest, hline, -, hfront, -⟩
      rw [(List.append_eq_nil_iff.mp hline.symm).2, front?_nil ha] at hfront
      cases hfront
  | cons c cs ih =>
      rw [hitsFrom, standsIn_cons]
      -- the search goes on at the next character, behind a reference as behind any other
      split
      · next key rest href =>
        rw [List.mem_cons, ih, standsIn_behind ha href, href]
        refine or_congr_left ?_
        constructor
        · rintro rfl
          exact ⟨key, rest, rfl, rfl⟩
        · rintro ⟨key', rest', he, rfl⟩
          cases he
          rfl
      · next href =>
        rw [ih, href]
        refine (or_iff_right ?_).symm
        rintro ⟨_, _, he, -⟩
        cases he

end Pattern

theorem mem_lineHits {table : List Pattern} {line : List Char} {h : Hit} :
    h ∈ lineHits table line ↔ ∃ p ∈ table, h ∈ p.hits line :=
  List.mem_flatMap

theorem mem_defaults {accessor : String} {p : Pattern} :
    p ∈ Pattern.defaults accessor ↔ p.accessor = accessor.toList := by
  rw [Pattern.defaults, List.mem_map]
  constructor
  · rintro ⟨form, -, rfl⟩
    rfl
  · rintro hp
    refine ⟨p.form, ?_, by rw [← hp]⟩
    cases p.form <;> decide

/-- The hits of an accessor in a line. -/
theorem mem_lineHits_defaults {accessor : String} (ha : isAccessor accessor = true)
    {line : List Char} {h : Hit} :
    h ∈ lineHits (Pattern.defaults accessor) line ↔
      Pattern.StandsIn ⟨h.form, accessor.toList⟩ 0 true line h := by
  rw [mem_lineHits]
  constructor
  · rintro ⟨⟨form, acc⟩, hp, hmem⟩
    have hacc : acc = accessor.toList := mem_defaults.mp hp
    subst hacc
    have hstands := (Pattern.mem_hitsFrom (isAccessor_spec ha)).mp hmem
    have hform : h.form = form := by
      obtain ⟨pre, post, key, rest, -, -, -, rfl⟩ := hstands
      rfl
    rw [hform]
    exact hstands
  · intro hstands
    exact ⟨_, mem_defaults.mpr rfl, (Pattern.mem_hitsFrom (isAccessor_spec ha)).mpr hstands⟩

/-! ## Sites -/

variable {table : List Pattern}

theorem mem_lineSites {number : Nat} {line : List Char} {s : Site} :
    s ∈ lineSites table number line ↔
      ∃ h ∈ lineHits table line, h.isWrapped (lineHits table line) = false ∧
        s = h.site line number := by
  rw [lineSites]
  simp only [List.mem_map, List.mem_mergeSort, List.mem_filter, Bool.not_eq_true']
  constructor
  · rintro ⟨h, ⟨hmem, hwrapped⟩, rfl⟩
    exact ⟨h, hmem, hwrapped, rfl⟩
  · rintro ⟨h, hmem, hwrapped, rfl⟩
    exact ⟨h, ⟨hmem, hwrapped⟩, rfl⟩

theorem mem_sitesFrom {first : Nat} {ls : List (List Char)} {s : Site} :
    s ∈ sitesFrom table first ls ↔
      ∃ n line, ls[n]? = some line ∧ s ∈ lineSites table (first + n) line := by
  induction ls generalizing first with
  | nil =>
      refine iff_of_false List.not_mem_nil ?_
      rintro ⟨n, line, h, -⟩
      cases h
  | cons l rest ih =>
      rw [sitesFrom, List.mem_append, ih]
      constructor
      · rintro (h | ⟨n, line, hn, h⟩)
        · exact ⟨0, l, rfl, h⟩
        · refine ⟨n + 1, line, hn, ?_⟩
          rw [Nat.add_assoc, Nat.add_comm 1 n] at h
          exact h
      · rintro ⟨n, line, hn, h⟩
        cases n with
        | zero =>
            cases hn
            exact .inl h
        | succ n =>
            refine .inr ⟨n, line, hn, ?_⟩
            rw [Nat.add_assoc, Nat.add_comm 1 n]
            exact h

/-- **SITES**: what is reported of a text are the hits in its lines that no template wraps. -/
theorem mem_scan {text : String} {s : Site} :
    s ∈ scan table text ↔
      ∃ n line, (lines text.toList)[n]? = some line ∧
        ∃ h ∈ lineHits table line, h.isWrapped (lineHits table line) = false ∧
          s = h.site line (1 + n) := by
  rw [scan, mem_sitesFrom]
  simp only [mem_lineSites]

/-- A template that wraps the call of a key has the same key and is wrapped by none. -/
theorem exists_not_isWrapped {all : List Hit} {h : Hit} (hmem : h ∈ all) :
    ∃ g ∈ all, g.isWrapped all = false ∧ g.key = h.key := by
  cases hwrapped : h.isWrapped all with
  | false => exact ⟨h, hmem, hwrapped, rfl⟩
  | true =>
      -- only calls are wrapped, and what wraps them is no call
      rw [Hit.isWrapped, Bool.and_eq_true, List.any_eq_true] at hwrapped
      obtain ⟨-, outer, houter, hwraps⟩ := hwrapped
      simp only [Bool.and_eq_true, decide_eq_true_eq] at hwraps
      refine ⟨outer, houter, ?_, hwraps.1.1.2⟩
      have hcall : outer.form.isCall = false := by
        have htemplate := hwraps.1.1.1
        revert htemplate
        cases outer.form <;> decide
      rw [Hit.isWrapped, hcall]
      rfl

/-- A key is reported exactly if there is a hit of it. -/
theorem exists_site_iff {text : String} {k : List Char} :
    (∃ s ∈ scan table text, s.key = String.ofList k) ↔
      ∃ line ∈ lines text.toList, ∃ h ∈ lineHits table line, h.key = k := by
  constructor
  · rintro ⟨s, hs, hkey⟩
    obtain ⟨n, line, hn, h, hmem, -, rfl⟩ := mem_scan.mp hs
    exact ⟨line, List.mem_of_getElem? hn, h, hmem, String.ofList_inj.mp hkey⟩
  · rintro ⟨line, hline, h, hmem, rfl⟩
    obtain ⟨n, hn⟩ := List.getElem?_of_mem hline
    obtain ⟨g, hg, hwrapped, hkey⟩ := exists_not_isWrapped hmem
    exact ⟨_, mem_scan.mpr ⟨n, line, hn, g, hg, hwrapped, rfl⟩, congrArg String.ofList hkey⟩

/-- Sites of a form that is no call are never left out. -/
theorem exists_site_of_form_iff {text : String} {form : Form} (hform : form.isCall = false)
    {k : List Char} :
    (∃ s ∈ scan table text, s.form = form ∧ s.key = String.ofList k) ↔
      ∃ line ∈ lines text.toList, ∃ h ∈ lineHits table line, h.form = form ∧ h.key = k := by
  constructor
  · rintro ⟨s, hs, hsform, hkey⟩
    obtain ⟨n, line, hn, h, hmem, -, rfl⟩ := mem_scan.mp hs
    exact ⟨line, List.mem_of_getElem? hn, h, hmem, hsform, String.ofList_inj.mp hkey⟩
  · rintro ⟨line, hline, h, hmem, rfl, rfl⟩
    obtain ⟨n, hn⟩ := List.getElem?_of_mem hline
    have hwrapped : h.isWrapped (lineHits table line) = false := by
      rw [Hit.isWrapped, hform]
      rfl
    exact ⟨_, mem_scan.mpr ⟨n, line, hn, h, hmem, hwrapped, rfl⟩, rfl, rfl⟩

/-! ## Places in the text -/

/-- A form of reference to a key stands here, in the rest of the line. -/
def Stands (form : Form) (accessor k cs : List Char) : Prop :=
  ∃ rest, Literal.front? form accessor (firstLine cs) = some (k, rest)

theorem Stands.ne_nil (ha : IsAccessor accessor) {form : Form} {k cs : List Char}
    (h : Stands form accessor k cs) : firstLine cs ≠ [] := by
  obtain ⟨rest, hfront⟩ := h
  intro hnil
  rw [hnil, front?_nil ha] at hfront
  cases hfront

/-- Hits in lines are places of the text. -/
theorem exists_hit_iff {accessor : String} (ha : isAccessor accessor = true) {cs k : List Char}
    {form : Form} :
    (∃ line ∈ lines cs, ∃ h ∈ lineHits (Pattern.defaults accessor) line,
        h.form = form ∧ h.key = k) ↔
      ∃ pre post, cs = pre ++ post ∧ (form.isTemplate || freeAfter true pre) = true ∧
        Stands form accessor.toList k post := by
  have hacc := isAccessor_spec ha
  constructor
  · rintro ⟨line, hline, h, hmem, rfl, rfl⟩
    obtain ⟨pre, post, key, rest, hsplit, hfree, hfront, he⟩ := (mem_lineHits_defaults ha).mp hmem
    have hkey : h.key = key := congrArg Hit.key he
    -- nothing can be read at the end of a line, where the place would not be one of the text
    have hpost : post ≠ [] := by
      rintro rfl
      rw [front?_nil hacc] at hfront
      cases hfront
    obtain ⟨before, after, rfl, hbefore, rfl⟩ := place_of_mem_lines hline hsplit hpost
    refine ⟨before ++ pre, after, (List.append_assoc _ _ _).symm, ?_, rest, ?_⟩
    · rw [freeAfter_endsLine hbefore]
      exact hfree
    · rw [hkey]
      exact hfront
  · rintro ⟨pre, post, hsplit, hfree, hstands⟩
    obtain ⟨line, hline, before, within, rfl, hbefore, rfl⟩ :=
      mem_lines_of_place hsplit (hstands.ne_nil hacc)
    obtain ⟨rest, hfront⟩ := hstands
    rw [freeAfter_endsLine hbefore] at hfree
    have hmem := (mem_lineHits_defaults ha (h := ⟨form, k, _, _⟩)).mpr
      ⟨within, firstLine post, k, rest, rfl, hfree, hfront, rfl⟩
    exact ⟨_, hline, _, hmem, rfl, rfl⟩

/-- **PLACES**: a key is reported exactly if a form of reference to it stands somewhere in the
    text, where a reference may start or in the braces of a template. -/
theorem exists_place_iff {accessor : String} (ha : isAccessor accessor = true) {text : String}
    {k : List Char} :
    (∃ s ∈ scan (Pattern.defaults accessor) text, s.key = String.ofList k) ↔
      ∃ form pre post, text.toList = pre ++ post ∧
        (form.isTemplate || freeAfter true pre) = true ∧ Stands form accessor.toList k post := by
  rw [exists_site_iff]
  constructor
  · rintro ⟨line, hline, h, hmem, rfl⟩
    exact ⟨h.form, (exists_hit_iff ha).mp ⟨line, hline, h, hmem, rfl, rfl⟩⟩
  · rintro ⟨form, hplace⟩
    obtain ⟨line, hline, h, hmem, -, hkey⟩ := (exists_hit_iff ha).mpr hplace
    exact ⟨line, hline, h, hmem, hkey⟩

end MessageKeys.Reference
