import MessageKeys.Proofs.Config.Discovery

/-! # Discovered catalogs — and those that naming the locales would give

    A discovered file is the one that is listed for its locale iff its name has no backslashes
    and the pattern has no other place that the locale fills (`Search.same_listed_iff`).

    The file that is listed for a locale is discovered iff, besides, the pattern is spelled in a
    way that the search keeps, and the name in the place is one (`Shown`). -/

namespace MessageKeys.Config

open Workspace Glob
open MessageKeys.Path (isVoid steps)

variable {c : Config} {w : Workspace} {dir q : Path} {front back l : List Char}
  {init rest : List String} {u v x : String} {f : LocaleFile}

/-! ## Filling in all places -/

theorem isVoid_iff {s : String} : isVoid s = true ↔ s = "" ∨ s = "." := by simp [isVoid]

theorem fillText_of_isVoid {s : String} (hs : isVoid s = true) : fillText l s = s := by
  rcases isVoid_iff.mp hs with rfl | rfl
  · rfl
  · rw [fillText, show ".".toList = ['.'] from rfl,
      fill_char (by decide +kernel), fillPlaceholders]

theorem length_steps_le {ss ts : List String}
    (h : List.Forall₂ (fun s t => isVoid s = true → t = s) ss ts) :
    (steps ts).length ≤ (steps ss).length := by
  induction h with
  | nil => exact Nat.le_refl _
  | @cons s t ss ts hst h ih =>
      rw [Path.steps_cons, Path.steps_cons]
      by_cases hs : isVoid s = true
      · rw [hst hs, if_pos hs, if_pos hs]
        exact ih
      · rw [if_neg hs]
        split
        · exact Nat.le_succ_of_le ih
        · exact Nat.succ_le_succ ih

/-- Where only segments that mean something change, another segment is another component. -/
theorem eq_of_steps_eq {ss ts : List String}
    (h : List.Forall₂ (fun s t => isVoid s = true → t = s) ss ts) (he : steps ss = steps ts) :
    ss = ts := by
  induction h with
  | nil => rfl
  | @cons s t ss ts hst h ih =>
      rw [Path.steps_cons, Path.steps_cons] at he
      by_cases hs : isVoid s = true
      · rw [hst hs, if_pos hs, if_pos hs] at he
        rw [hst hs, ih he]
      · rw [if_neg hs] at he
        split at he
        · have hle := length_steps_le h
          rw [← he, List.length_cons] at hle
          exact absurd hle (Nat.not_succ_le_self _)
        · obtain ⟨hfirst, hrest⟩ := List.cons.inj he
          rw [← Path.text_ofSegment s, hfirst, Path.text_ofSegment, ih hrest]

/-- Filled in throughout, a pattern spells other components than filled in once, unless it has
    the same text. -/
theorem Segments.eq_of_steps_eq (hs : Segments front back init u v rest) (hl : l ≠ [])
    (hslash : '/' ∉ l) (he : steps (init ++ (u ++ String.ofList l ++ v) :: rest)
      = steps (init ++ (u ++ String.ofList l ++ fillText l v) :: rest.map (fillText l))) :
    fillPlaceholders l 0 back = back := by
  rw [Path.steps_append, Path.steps_append] at he
  have hpairs : List.Forall₂ (fun s t => isVoid s = true → t = s)
      ((u ++ String.ofList l ++ v) :: rest)
      ((u ++ String.ofList l ++ fillText l v) :: rest.map (fillText l)) := by
    refine List.Forall₂.cons ?_ ?_
    · -- the locale leaves no room for anything else in a segment that means nothing
      intro hvoid
      have hshort : (u ++ String.ofList l ++ v).length ≤ 1 := by
        rcases isVoid_iff.mp hvoid with h | h
        · rw [h]
          exact Nat.zero_le 1
        · rw [h]
          exact Nat.le_refl 1
      rw [String.length_append, String.length_append, String.length_ofList] at hshort
      have hpos := List.length_pos_of_ne_nil hl
      have hv : v = "" := String.length_eq_zero_iff.mp (by omega)
      rw [hv]
      rfl
    · rw [List.forall₂_map_right_iff, List.forall₂_same]
      exact fun s _ => fillText_of_isVoid
  obtain ⟨hplace, hrest⟩ := List.cons.inj (Config.eq_of_steps_eq hpairs (List.append_cancel_left he))
  have hv : fillText l v = v := by
    rw [← String.toList_inj] at hplace ⊢
    simp only [String.toList_append] at hplace
    exact (List.append_cancel_left hplace).symm
  have hjoined : String.ofList (fillPlaceholders l 0 back) = String.ofList back := by
    rw [← Text.join_split '/' (String.ofList (fillPlaceholders l 0 back)), (hs.fill hslash).back_eq,
      hv, ← hrest, ← hs.back_eq, Text.join_split]
  rw [← String.toList_ofList (l := fillPlaceholders l 0 back), hjoined, String.toList_ofList]

/-! ## The listed path -/

/-- A text in which no segment is empty does not start at the root, nor does another one that
    starts like it. -/
theorem relative_of_noEmpty (more : List Char) (hl : l ≠ [])
    (h : "" ∉ Text.split '/' (String.ofList (front ++ l ++ back))) :
    (Path.mk (String.ofList (front ++ l ++ more))).isAbsolute = false := by
  rw [← Bool.not_eq_true, Path.isAbsolute_iff]
  rintro ⟨t, ht⟩
  rw [String.toList_ofList] at ht
  refine h ?_
  cases hstart : front ++ l with
  | nil => exact absurd (List.append_eq_nil_iff.mp hstart).2 hl
  | cons d ds =>
      rw [hstart] at ht
      rw [(List.cons.inj ht).1, Text.split, String.toList_ofList, List.cons_append, Text.cut,
        if_pos rfl, List.map_cons]
      exact List.mem_cons_self

/-- The characters of a piece are some of the text. -/
theorem mem_of_mem_split {text s : String} {d : Char} (hs : s ∈ Text.split '/' text)
    (hd : d ∈ s.toList) : d ∈ text.toList := by
  have hsub := Text.join_sublist (List.singleton_sublist.mpr hs)
  rw [Text.join_singleton, Text.join_split] at hsub
  exact hsub.subset hd

theorem path_catalogFor (hsplit : splitAtPlaceholder? c.catalogPattern.toList = some (front, back))
    (locale : String) : (c.catalogFor dir locale).path
      = dir.join ⟨String.ofList (front ++ locale.toList ++ fillPlaceholders locale.toList 0 back)⟩ := by
  rw [catalogFor, (splitAtPlaceholder?_eq_some hsplit).2]

section

variable (h : Search w dir front back init u v rest q)
  (hsplit : splitAtPlaceholder? c.catalogPattern.toList = some (front, back))
  (hf : Finds w dir front back u v rest q x f)

include h hsplit hf

/-- What is seen of a file with the listed path, and means something, is a segment of the pattern
    that is filled in. -/
theorem Search.mem_split_of_same
    (hsame : f.path.components = (c.catalogFor dir f.locale).path.components) {s : String}
    (hmem : s ∈ seen (init ++ x :: rest)) (hsolid : isVoid s = false) :
    s ∈ Text.split '/' (String.ofList
      (front ++ f.locale.toList ++ fillPlaceholders f.locale.toList 0 back)) := by
  rw [path_catalogFor hsplit, hf.path_eq, h.components_searched (h.slashless_of_finds hf)] at hsame
  generalize String.ofList (front ++ f.locale.toList ++ fillPlaceholders f.locale.toList 0 back)
    = filled at hsame ⊢
  have hstep : Path.Component.ofSegment s ∈ steps (seen (init ++ x :: rest)) :=
    List.mem_map_of_mem (List.mem_filter.mpr ⟨hmem, by simp [hsolid]⟩)
  have hfilled : Path.Component.ofSegment s ∈ steps (Text.split '/' filled) := by
    cases habs : (Path.mk filled).isAbsolute with
    | false =>
        rw [Path.components_join h.grounded.text_ne habs] at hsame
        rwa [List.append_cancel_left hsame] at hstep
    | true =>
        -- the pattern replaces the directory, and has the components of the file by itself
        have hwhole := List.mem_append_right dir.components hstep
        rw [hsame, Path.join, habs, if_pos rfl, Path.components_eq] at hwhole
        exact (List.mem_append.mp hwhole).resolve_left (Path.ofSegment_not_mem_anchor s _)
  obtain ⟨t, ht, he⟩ := List.mem_map.mp hfilled
  rw [← Path.text_ofSegment s, ← he, Path.text_ofSegment]
  exact (List.mem_filter.mp ht).1

/-- A file with the listed path is seen without backslashes. -/
theorem Search.plain_of_same
    (hsame : f.path.components = (c.catalogFor dir f.locale).path.components) :
    '\\' ∉ (Text.join '/' (seen (init ++ x :: rest))).toList := by
  have hparts : '\\' ∉ front ++ f.locale.toList ++ back :=
    h.seen_text hf ▸ backslash_not_mem_withSlashes _
  intro hmem
  rcases Text.mem_join hmem with hslash | ⟨s, hs, hmem⟩
  · exact absurd hslash (by decide)
  · cases hvoid : isVoid s with
    | false =>
        have hfilled := mem_of_mem_split (h.mem_split_of_same hsplit hf hsame hs hvoid) hmem
        rw [String.toList_ofList] at hfilled
        simp only [List.mem_append, not_or] at hparts hfilled
        rcases hfilled with hfront | hfilled
        · exact hfront.elim hparts.1.1 hparts.1.2
        · exact (mem_fill hfilled).elim hparts.1.2 hparts.2
    | true =>
        rcases isVoid_iff.mp hvoid with rfl | rfl
        · cases hmem
        · exact absurd hmem (by decide)

/-- **THE LISTED PATH**: a discovered file has it iff it is seen without backslashes and no other
    place is filled in. -/
theorem Search.same_listed_iff :
    f.path.same (c.catalogFor dir f.locale).path = true ↔
      '\\' ∉ (Text.join '/' (seen (init ++ x :: rest))).toList ∧
        fillPlaceholders f.locale.toList 0 back = back := by
  have hslashless := h.slashless_of_finds hf
  have hlocale : f.locale.toList ≠ [] := fun hnil =>
    hf.isCatalog.locale_ne (String.toList_eq_nil_iff.mp hnil)
  rw [Path.same, decide_eq_true_iff]
  constructor
  · intro hsame
    have hplain := h.plain_of_same hsplit hf hsame
    obtain ⟨hname, hall, htext⟩ := h.name_of_finds hf hplain
    refine ⟨hplain, ?_⟩
    have hrelative := relative_of_noEmpty (fillPlaceholders f.locale.toList 0 back) hlocale
      (htext ▸ hall ▸ empty_not_mem_seen (init ++ x :: rest))
    rw [path_catalogFor hsplit, hf.path_eq, h.components_searched hslashless,
      Path.components_join h.grounded.text_ne hrelative] at hsame
    have hsteps := List.append_cancel_left hsame
    rw [hall, hname, String.ofList_append, String.ofList_append, String.ofList_toList,
      (h.segments.fill hf.isCatalog.slashless).split_place hf.isCatalog.slashless] at hsteps
    refine h.segments.eq_of_steps_eq hlocale hf.isCatalog.slashless ?_
    rw [String.ofList_toList]
    exact hsteps
  · rintro ⟨hplain, honce⟩
    obtain ⟨hname, hall, htext⟩ := h.name_of_finds hf hplain
    have hrelative := relative_of_noEmpty back hlocale
      (htext ▸ hall ▸ empty_not_mem_seen (init ++ x :: rest))
    rw [path_catalogFor hsplit, honce, hf.path_eq, h.components_searched hslashless,
      Path.components_join h.grounded.text_ne hrelative, htext, hall]

end

/-! ## The names that are found -/

/-- What a locale and the parts of a pattern need for the file that is listed for the locale to be
    discovered. -/
structure Shown (front back l : List Char) : Prop where
  /-- The locale fills no other place. -/
  once : fillPlaceholders l 0 back = back
  /-- Backslashes are taken for slashes. -/
  noBackslash : '\\' ∉ front ++ l ++ back
  /-- Slashes in a row, or at the start, are not kept. -/
  noEmpty : "" ∉ Text.split '/' (String.ofList (front ++ l ++ back))
  /-- Nor is a point at the start. -/
  noPoint : (Text.split '/' (String.ofList (front ++ l ++ back))).head? ≠ some "."
  /-- A segment that starts with the place is looked up among the names of a directory. -/
  isName : front = [] ∨ front.getLast? = some '/' →
    l ++ back.takeWhile (· ≠ '/') ≠ ['.'] ∧ l ++ back.takeWhile (· ≠ '/') ≠ ['.', '.']

theorem head?_cut (cs : List Char) : (Text.cut '/' cs).head? = some (cs.takeWhile (· ≠ '/')) := by
  induction cs with
  | nil => rfl
  | cons d cs ih =>
      rw [Text.cut]
      by_cases hd : d = '/'
      · rw [if_pos hd, List.takeWhile_cons_of_neg (by simp [hd])]
        rfl
      · rw [if_neg hd, List.takeWhile_cons_of_pos (by simp [hd])]
        cases hcut : Text.cut '/' cs with
        | nil => exact absurd hcut (Text.cut_ne_nil _ _)
        | cons first more =>
            rw [hcut] at ih
            exact congrArg (fun s => some (d :: s)) (Option.some.inj ih)

/-- What stands behind the place in its segment. -/
theorem Segments.place_ends (hs : Segments front back init u v rest) :
    back.takeWhile (· ≠ '/') = v.toList := by
  have hhead := congrArg List.head? hs.back_eq
  rw [Text.split, String.toList_ofList, List.head?_map, head?_cut, List.head?_cons,
    Option.map_some] at hhead
  rw [← Option.some.inj hhead, String.toList_ofList]

/-- The place starts its segment. -/
theorem Segments.place_starts_iff (hs : Segments front back init u v rest) :
    front = [] ∨ front.getLast? = some '/' ↔ u = "" := by
  have hlast : (Text.split '/' (String.ofList front)).getLast? = some "" ↔ u = "" := by
    rw [hs.front_eq, List.getLast?_concat, Option.some.injEq]
  by_cases hfront : front = []
  · subst hfront
    exact iff_of_true (.inl rfl) (hlast.mp rfl)
  · have htext : String.ofList front ≠ "" := by
      intro h
      rw [← String.toList_ofList (l := front), h] at hfront
      exact hfront rfl
    rw [or_iff_right hfront, ← hlast, ← Path.endsWith_iff_getLast? htext, Path.endsWith_slash_iff,
      List.getLast?_eq_some_iff]
    constructor
    · rintro ⟨ds, rfl⟩
      exact ⟨String.ofList ds, String.ofList_append⟩
    · rintro ⟨text, h⟩
      exact ⟨text.toList, by rw [← String.toList_ofList (l := front), h, String.toList_append]; rfl⟩

theorem seen_eq_self {ss : List String} {s : String} (hempty : "" ∉ ss) (hpoint : ss.head? ≠ some ".")
    (hlast : ss.getLast? = some s) (hs : isVoid s = false) : seen ss = ss := by
  obtain ⟨more, rfl⟩ := List.getLast?_eq_some_iff.mp hlast
  have hfilter : (more ++ [s]).filter (· ≠ "") = more ++ [s] := by
    refine List.filter_eq_self.mpr fun t ht => ?_
    simpa using fun h : t = "" => hempty (h ▸ ht)
  have hdrop : (more ++ [s]).dropWhile isVoid = more ++ [s] := by
    cases more with
    | nil => exact List.dropWhile_cons_of_neg (by simp [hs])
    | cons t more =>
        refine List.dropWhile_cons_of_neg fun hvoid => ?_
        rcases isVoid_iff.mp hvoid with rfl | rfl
        · exact hempty List.mem_cons_self
        · exact hpoint rfl
  rw [seen, hfilter, hdrop, trimEnd_append_cons hs]
  rfl

section

variable {locale : String} (h : Search w dir front back init u v rest q)
  (hsplit : splitAtPlaceholder? c.catalogPattern.toList = some (front, back))

include h hsplit

/-- A discovered file with the listed path shows its locale. -/
theorem Search.shown_of_same (hf : Finds w dir front back u v rest q x f)
    (hsame : f.path.same (c.catalogFor dir f.locale).path = true) :
    Shown front back f.locale.toList := by
  obtain ⟨hplain, honce⟩ := (h.same_listed_iff hsplit hf).mp hsame
  obtain ⟨hname, hall, htext⟩ := h.name_of_finds hf hplain
  refine ⟨honce, h.seen_text hf ▸ backslash_not_mem_withSlashes _, ?_, ?_, ?_⟩
  · rw [htext, ← hall]
    exact empty_not_mem_seen _
  · rw [htext, ← hall]
    intro hhead
    obtain ⟨more, hmore⟩ := List.head?_eq_some_iff.mp hhead
    exact absurd (isVoid_of_head_seen hmore) (by decide)
  · rw [h.segments.place_starts_iff, h.segments.place_ends]
    rintro rfl
    rw [String.empty_append] at hname
    rw [← String.toList_append, ← hname]
    rcases name_or_point h.proper hf.candidate with hx | ⟨hhead, -⟩
    · refine ⟨fun hpoint => ?_, fun hup => hx.2.1 (String.toList_inj.mp hup)⟩
      obtain rfl : x = "." := String.toList_inj.mp hpoint
      exact absurd hx.1 (by decide)
    · cases hhead

/-- The file that is looked at for a locale which shows is there if the listed one is. -/
theorem Search.isFile_searched (hne : locale ≠ "") (hslash : '/' ∉ locale.toList)
    (hshown : Shown front back locale.toList)
    (hfile : w.isFile (c.catalogFor dir locale).path = true) :
    w.isFile (q.down ((u ++ locale ++ v) :: rest)) = true ∧
      seen (init ++ (u ++ locale ++ v) :: rest) = init ++ (u ++ locale ++ v) :: rest := by
  have hlocale : locale.toList ≠ [] := fun hnil => hne (String.toList_eq_nil_iff.mp hnil)
  have hsegments : Text.split '/' (String.ofList (front ++ locale.toList ++ back))
      = init ++ (u ++ locale ++ v) :: rest := by
    rw [String.ofList_append, String.ofList_append, String.ofList_toList,
      h.segments.split_place hslash]
  have hslashless : '/' ∉ (u ++ locale ++ v).toList ∧ u ++ locale ++ v ≠ "" := by
    have hmem : u ++ locale ++ v ∈ Text.split '/' (String.ofList (front ++ locale.toList ++ back)) := by
      rw [hsegments]
      simp
    exact ⟨Text.not_mem_of_mem_split hmem, fun hnone => hshown.noEmpty (hnone ▸ hmem)⟩
  rw [path_catalogFor hsplit, hshown.once] at hfile
  have hrelative := relative_of_noEmpty back hlocale hshown.noEmpty
  obtain ⟨hlisted, habs⟩ := h.grounded.start_join hrelative
  obtain ⟨hstart, -⟩ := h.start_searched hslashless
  rw [hsegments] at hlisted
  have hempty := hsegments ▸ hshown.noEmpty
  constructor
  · refine isFile_of_filter ?_ (hstart.trans habs.symm) hlisted ?_ hfile
    · have hrest : ∀ s ∈ rest, '/' ∉ s.toList := fun s hmem =>
        h.segments.slashless s (by simp [hmem])
      exact (h.respelled.departed.down (List.forall_mem_cons.mpr ⟨hslashless.1, hrest⟩)).1
    · rw [h.split_searched hslashless, List.filter_append (Path.dropTrailing dir.body),
        Path.filter_dropTrailing]
  · -- the last segment of a path that leads to a file is a name
    obtain ⟨l, bytes, readOnly, hl, hheld⟩ := isFile_eq_true.mp hfile
    obtain ⟨-, more, n, hmore, -, -, hn⟩ := exists_last h.proper hl (by rw [hheld]; rintro ⟨⟩)
    have hlast := congrArg List.getLast? (hlisted.symm.trans hmore)
    rw [List.getLast?_concat, ← List.append_assoc, List.getLast?_append_of_ne_nil _ (by simp)]
      at hlast
    exact seen_eq_self hempty (hsegments ▸ hshown.noPoint) hlast hn.1

/-- A locale that shows is found, and seen without backslashes. -/
theorem Search.finds_of_shown (hne : locale ≠ "") (hslash : '/' ∉ locale.toList)
    (hshown : Shown front back locale.toList)
    (hfile : w.isFile (c.catalogFor dir locale).path = true) :
    Finds w dir front back u v rest q (u ++ locale ++ v)
        ⟨locale, q.down ((u ++ locale ++ v) :: rest)⟩ ∧
      '\\' ∉ (Text.join '/' (seen (init ++ (u ++ locale ++ v) :: rest))).toList := by
  have hlocale : locale.toList ≠ [] := fun hnil => hne (String.toList_eq_nil_iff.mp hnil)
  obtain ⟨hthere, hseen⟩ := h.isFile_searched hsplit hne hslash hshown hfile
  generalize hplace : u ++ locale ++ v = x at hthere hseen ⊢
  have hchars : x.toList = u.toList ++ locale.toList ++ v.toList := by
    rw [← hplace, String.toList_append, String.toList_append]
  have hslashless : '/' ∉ x.toList ∧ x ≠ "" := by
    have hmem : x ∈ Text.split '/' (String.ofList (front ++ locale.toList ++ back)) := by
      rw [String.ofList_append, String.ofList_append, String.ofList_toList,
        h.segments.split_place hslash, hplace]
      simp
    refine ⟨Text.not_mem_of_mem_split hmem, ?_⟩
    rintro rfl
    exact hshown.noEmpty hmem
  have hrest : ∀ s ∈ rest, '/' ∉ s.toList := fun s hmem =>
    h.segments.slashless s (by simp [hmem])
  have hexists : w.exists? (q.join ⟨x⟩) = true :=
    exists?_of_down (h.respelled.departed.join hslashless.1) hrest (exists?_of_isFile hthere)
  have hdirectory := isDirectory_of_join h.respelled.departed.1 (Path.isAbsolute_of_not_mem hslashless.1)
    hexists
  have hjoined : (Text.join '/' (seen (init ++ x :: rest))).toList = front ++ locale.toList ++ back := by
    rw [hseen, ← hplace, h.segments.join_place, String.toList_append, String.toList_append,
      String.toList_ofList, String.toList_ofList]
  refine ⟨⟨?_, rfl, ?_⟩, hjoined ▸ hshown.noBackslash⟩
  · refine mem_candidates_iff.mpr ⟨⟨locale.toList, hchars⟩, hdirectory, ?_⟩
    by_cases hname : Path.IsName x
    · obtain ⟨l, hl, hd⟩ := isDirectory_eq_true.mp hdirectory
      obtain ⟨m, hm, htaken⟩ := exists?_iff.mp hexists
      rw [names_join.locate hname hl hm] at htaken
      exact .inr ⟨l, hl, hd, htaken⟩
    · -- points are tried only where the pattern has the first one
      have hpoints : x = ".." ∨ x = "." := by
        by_cases hup : x = ".."
        · exact .inl hup
        · cases hvoid : isVoid x with
          | false => exact absurd ⟨hvoid, hup, hslashless.1⟩ hname
          | true => exact .inr ((isVoid_iff.mp hvoid).resolve_left hslashless.2)
      refine .inl ⟨?_, hpoints⟩
      cases hu : u.toList with
      | nil =>
          have hown := hshown.isName (h.segments.place_starts_iff.mpr (String.toList_eq_nil_iff.mp hu))
          rw [h.segments.place_ends, show locale.toList ++ v.toList = x.toList by rw [hchars, hu]; rfl] at hown
          rcases hpoints with rfl | rfl
          · exact absurd rfl hown.2
          · exact absurd rfl hown.1
      | cons d us =>
          rw [hu] at hchars
          rcases hpoints with rfl | rfl
          · rw [(List.cons.inj (show ['.', '.'] = _ from hchars)).1]
            rfl
          · rw [(List.cons.inj (show ['.'] = _ from hchars)).1]
            rfl
  · refine ⟨hthere, hne, hslash, _, h.stripPrefix?_searched hslashless, ?_⟩
    rw [hjoined, withSlashes_of_not_mem hshown.noBackslash]

end

/-! ## Discovery -/

/-- What discovery does with a pattern that has these parts around the first place. -/
structure Discovers (c : Config) (w : Workspace) (dir : Path) (front back : List Char)
    (files : List LocaleFile) : Prop where
  /-- In order of locale, with one file for each. -/
  ordered : files.Pairwise fun f g => f.locale < g.locale
  isCatalog : ∀ f ∈ files, IsCatalog w dir front back f
  /-- A discovered file is the one that is listed for its locale iff it is seen without backslashes
      and no other place is filled in. -/
  same_iff : ∀ f ∈ files, ∀ r, f.path.stripPrefix? dir = some r →
    (f.path.same (c.catalogFor dir f.locale).path = true ↔
      '\\' ∉ r.text.toList ∧ fillPlaceholders f.locale.toList 0 back = back)
  /-- The file that is listed for a locale is discovered iff the locale shows. -/
  exists_iff : ∀ locale : String, locale ≠ "" → '/' ∉ locale.toList →
    w.isFile (c.catalogFor dir locale).path = true →
    ((∃ f ∈ files, f.locale = locale ∧ f.path.same (c.catalogFor dir locale).path = true) ↔
      Shown front back locale.toList)

/-- No locale shows in a pattern that ends with a slash. -/
theorem not_shown (hs : Segments front back init u v rest) (hend : rest.getLast? = some "")
    {locale : String} (hslash : '/' ∉ locale.toList) : ¬ Shown front back locale.toList := by
  intro h
  have hempty := h.noEmpty
  rw [String.ofList_append, String.ofList_append, String.ofList_toList, hs.split_place hslash]
    at hempty
  exact hempty (by simp [List.mem_of_getLast? hend])

/-- Discovery, before the files are put in order. -/
theorem exists_found {root : Path} (hw : w.tree.Proper) (hdistinct : w.tree.Distinct)
    (hdir : (c.messagesDirectory root).Grounded) (hnone : c.locales = [])
    (hsplit : splitAtPlaceholder? c.catalogPattern.toList = some (front, back)) :
    ∃ files, c.catalogs w root = .ok files ∧
      Discovers c w (c.messagesDirectory root) front back files := by
  obtain ⟨init, u, v, rest, hs⟩ := exists_segments front back
  have hfound : c.found w root = c.discover w (c.messagesDirectory root) := by
    rw [found, hnone]
    rfl
  by_cases hend : rest.getLast? = some ""
  · refine ⟨_, catalogs_eq_ok.mpr ⟨[], hfound.trans (discover_eq_nil hsplit hs hend), rfl⟩, ?_⟩
    refine ⟨?_, ?_, ?_, fun locale _ hslash _ => ?_⟩
    · rw [List.mergeSort_nil]
      exact List.Pairwise.nil
    · rw [List.mergeSort_nil]
      exact List.forall_mem_nil _
    · rw [List.mergeSort_nil]
      exact List.forall_mem_nil _
    · rw [List.mergeSort_nil]
      exact iff_of_false (by simp) (not_shown hs hend hslash)
  · obtain ⟨q, h, hdiscover⟩ := discover_eq hw hdistinct hdir hsplit hs hend
    refine ⟨_, catalogs_eq_ok.mpr ⟨_, hfound.trans hdiscover, rfl⟩, ?_⟩
    have hmem : ∀ {f}, f ∈ ((candidates w u.toList v.toList q).filterMap fun x =>
        catalogAt? w (c.messagesDirectory root) front back (q.down (x :: rest))).mergeSort
          (fun a b => decide (a.locale ≤ b.locale)) ↔
        ∃ x, Finds w (c.messagesDirectory root) front back u v rest q x f := by
      intro f
      simp only [List.mem_mergeSort, List.mem_filterMap, catalogAt?_eq_some]
      constructor
      · rintro ⟨x, hx, hpath, hf⟩
        exact ⟨x, hx, hpath, hf⟩
      · rintro ⟨x, hx, hpath, hf⟩
        exact ⟨x, hx, hpath, hf⟩
    refine ⟨?_, ?_, ?_, fun locale hne hslash hfile => ?_⟩
    · -- different names in the place are taken for different locales
      have hdifferent : ((candidates w u.toList v.toList q).filterMap fun x =>
          catalogAt? w (c.messagesDirectory root) front back (q.down (x :: rest))).Pairwise
            fun f g => f.locale ≠ g.locale := by
        refine List.pairwise_filterMap.mpr ((nodup_candidates hw hdistinct _ _).imp_of_mem ?_)
        intro x y hx hy hne f hf g hg hlocale
        obtain ⟨hpath, hf⟩ := catalogAt?_eq_some.mp hf
        obtain ⟨hpathg, hg⟩ := catalogAt?_eq_some.mp hg
        exact hne (h.eq_of_locale_eq ⟨hx, hpath, hf⟩ ⟨hy, hpathg, hg⟩ hlocale)
      exact pairwise_mergeSort_lt hdifferent
    · intro f hf
      obtain ⟨x, hf⟩ := hmem.mp hf
      exact hf.isCatalog
    · intro f hf r hr
      obtain ⟨x, hf⟩ := hmem.mp hf
      rw [hf.path_eq, h.stripPrefix?_searched (h.slashless_of_finds hf)] at hr
      rw [← Option.some.inj hr]
      exact h.same_listed_iff hsplit hf
    · constructor
      · rintro ⟨f, hf, rfl, hsame⟩
        obtain ⟨x, hf⟩ := hmem.mp hf
        exact h.shown_of_same hsplit hf hsame
      · intro hshown
        obtain ⟨hf, hplain⟩ := h.finds_of_shown hsplit hne hslash hshown hfile
        exact ⟨_, hmem.mpr ⟨_, hf⟩, rfl, (h.same_listed_iff hsplit hf).mpr ⟨hplain, hshown.once⟩⟩

/-- **DISCOVERED CATALOGS**: a pattern that can be used is divided at a place for the locale, and
    without locales listed the files that fit its parts are found, which are those that listing
    gives as far as they show; listing gives the files that are there. -/
theorem discovered_exactly {root : Path} (hw : w.tree.Proper) (hdistinct : w.tree.Distinct)
    (hdir : (c.messagesDirectory root).Grounded) (hnone : c.locales = []) :
    (c.validate = .ok () →
      ∃ front back, splitAtPlaceholder? c.catalogPattern.toList = some (front, back)) ∧
    (∀ front back, splitAtPlaceholder? c.catalogPattern.toList = some (front, back) →
      ∃ files, c.catalogs w root = .ok files ∧
        Discovers c w (c.messagesDirectory root) front back files) ∧
    ∀ locales : List String, locales ≠ [] →
      ∃ listed, { c with locales := locales }.catalogs w root = .ok listed ∧
        ∀ g, g ∈ listed ↔ ∃ locale ∈ locales,
          g = c.catalogFor (c.messagesDirectory root) locale ∧ w.isFile g.path = true := by
  refine ⟨exists_split_of_validate, fun front back hsplit =>
    exists_found hw hdistinct hdir hnone hsplit, fun locales hne => ?_⟩
  have hfound : ({ c with locales := locales } : Config).found w root
      = .ok ((locales.map (c.catalogFor (c.messagesDirectory root))).filter fun f =>
        w.isFile f.path) := by
    obtain ⟨first, more, rfl⟩ := List.exists_cons_of_ne_nil hne
    rfl
  refine ⟨_, catalogs_eq_ok.mpr ⟨_, hfound, rfl⟩, fun g => ?_⟩
  rw [List.mem_mergeSort, List.mem_filter, List.mem_map]
  constructor
  · rintro ⟨⟨locale, hlocale, rfl⟩, hfile⟩
    exact ⟨locale, hlocale, rfl, hfile⟩
  · rintro ⟨locale, hlocale, rfl, hfile⟩
    exact ⟨⟨locale, hlocale, rfl⟩, hfile⟩

/-- A catalog in the directory, and one in a directory of its own. -/
private def sampleMessages : Workspace where
  tree := ⟨[(["messages"], .directory), (["messages", "en.json"], .file "".toUTF8 false),
    (["messages", "de"], .directory), (["messages", "de", "de.json"], .file "".toUTF8 false)]⟩
  here := []
  clock := fun _ => "T"
  ticks := 0

/-- The locale is a part of the name and of the directory. -/
private def sampleTwice : Config :=
  { Config.default with catalogPattern := "\x7blocale\x7d/\x7blocale\x7d.json" }

/-- A file in the directory is discovered as the catalog that listing gives, one below a directory
    of the same name is listed only. -/
theorem discovered_exactly_sample :
    (∃ files, Config.default.catalogs sampleMessages ⟨"/"⟩ = .ok files ∧
      ∃ f ∈ files, f.locale = "en" ∧ f.path.same ⟨"/messages/en.json"⟩ = true) ∧
    sampleMessages.isFile (sampleTwice.catalogFor ⟨"/messages"⟩ "de").path = true ∧
    ∃ files, sampleTwice.catalogs sampleMessages ⟨"/"⟩ = .ok files ∧
      ¬ ∃ f ∈ files, f.locale = "de" ∧
        f.path.same (sampleTwice.catalogFor ⟨"/messages"⟩ "de").path = true := by
  have hproper : sampleMessages.tree.Proper := FileTree.proper_of_entries (by decide +kernel)
  have hdistinct : sampleMessages.tree.Distinct := by decide +kernel
  have hwhere : Config.default.messagesDirectory ⟨"/"⟩ = ⟨"/messages"⟩ := by decide +kernel
  have hwhere' : sampleTwice.messagesDirectory ⟨"/"⟩ = ⟨"/messages"⟩ := hwhere
  have hgrounded : (Path.mk "/messages").Grounded := ⟨by decide, by decide +kernel⟩
  have hde : sampleMessages.isFile (sampleTwice.catalogFor ⟨"/messages"⟩ "de").path = true := by
    decide +kernel
  have hen : (Config.default.catalogFor ⟨"/messages"⟩ "en").path = ⟨"/messages/en.json"⟩ := by
    decide +kernel
  have honce := (discovered_exactly hproper hdistinct (hwhere ▸ hgrounded) rfl).2.1 []
    ".json".toList (by decide +kernel)
  have htwice := (discovered_exactly hproper hdistinct (hwhere' ▸ hgrounded) rfl).2.1 []
    "/\x7blocale\x7d.json".toList (by decide +kernel)
  rw [hwhere] at honce
  rw [hwhere'] at htwice
  obtain ⟨files, hfiles, honce⟩ := honce
  obtain ⟨files', hfiles', htwice⟩ := htwice
  refine ⟨⟨files, hfiles, ?_⟩, hde, files', hfiles', fun hfound => ?_⟩
  · have hshown : Shown [] ".json".toList "en".toList :=
      ⟨by decide +kernel, by decide +kernel, by decide +kernel, by decide +kernel,
        fun _ => by decide +kernel⟩
    rw [← hen]
    exact (honce.exists_iff "en" (by decide) (by decide +kernel) (by decide +kernel)).mpr hshown
  · -- the second place would have to be the locale
    have hshown := (htwice.exists_iff "de" (by decide) (by decide +kernel) hde).mp hfound
    exact absurd hshown.once (by decide +kernel)

end MessageKeys.Config
