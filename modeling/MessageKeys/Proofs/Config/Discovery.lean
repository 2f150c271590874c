import MessageKeys.Config.Catalogs
import MessageKeys.Proofs.Config.Placeholder
import MessageKeys.Proofs.Glob.Directory

/-! # Discovery — the files that a pattern of catalogs is searched for

    The search tries the names of one directory in the place for the locale, and looks at one
    file for each of them (`discover_eq`).  What it sees of that file are the segments below the
    directory of the catalogs, without empty ones and those at both ends that mean nothing
    (`Search.stripPrefix?_searched`).

    A file that is taken for a catalog has a name in the place that means something, and no two
    such names are taken for the same locale (`Search.eq_of_locale_eq`). -/

namespace MessageKeys.Config

open Workspace Glob
open MessageKeys.Path (isVoid steps trimEnd)

/-! ## Catalogs in order -/

section

variable {c : Config} {w : Workspace} {root : Path} {files : List LocaleFile}

/-- The files that are catalogs, before they are put in order. -/
def found (c : Config) (w : Workspace) (root : Path) : Except ConfigFault (List LocaleFile) :=
  if c.locales.isEmpty then c.discover w (c.messagesDirectory root)
  else .ok ((c.locales.map (c.catalogFor (c.messagesDirectory root))).filter fun f =>
    w.isFile f.path)

/-- The catalogs are what was found, in order. -/
theorem catalogs_eq_ok : c.catalogs w root = .ok files ↔
    ∃ fs, c.found w root = .ok fs ∧ files = fs.mergeSort fun a b => decide (a.locale ≤ b.locale) := by
  show Except.map _ (c.found w root) = .ok files ↔ _
  cases c.found w root with
  | error fault => simp [Except.map]
  | ok fs => simp [Except.map, eq_comm]

/-- Files in order of locale. -/
theorem pairwise_mergeSort_locale (fs : List LocaleFile) :
    (fs.mergeSort fun a b => decide (a.locale ≤ b.locale)).Pairwise fun a b =>
      a.locale ≤ b.locale := by
  refine (List.pairwise_mergeSort ?_ ?_ fs).imp fun hle => of_decide_eq_true hle
  · intro a b d hab hbd
    exact decide_eq_true (String.le_trans (of_decide_eq_true hab) (of_decide_eq_true hbd))
  · intro a b
    simpa using String.le_total a.locale b.locale

/-- Files of different locales, put in order. -/
theorem pairwise_mergeSort_lt {fs : List LocaleFile}
    (h : fs.Pairwise fun a b => a.locale ≠ b.locale) :
    (fs.mergeSort fun a b => decide (a.locale ≤ b.locale)).Pairwise fun a b =>
      a.locale < b.locale := by
  have hsorted := h.perm (List.mergeSort_perm fs fun a b => decide (a.locale ≤ b.locale)).symm Ne.symm
  refine (pairwise_mergeSort_locale fs).imp₂ (fun a b hle hne => ?_) hsorted
  exact String.not_le.mp fun hge => hne (String.le_antisymm hle hge)

/-- The catalogs of a project are in order of locale. -/
theorem catalogs_ordered (h : c.catalogs w root = .ok files) :
    files.Pairwise fun a b => a.locale ≤ b.locale := by
  obtain ⟨fs, -, rfl⟩ := catalogs_eq_ok.mp h
  exact pairwise_mergeSort_locale fs

end

/-! ## Seen segments -/

/-- The segments that a path is seen with from a directory. -/
def seen (ss : List String) : List String := trimEnd ((ss.filter (· ≠ "")).dropWhile isVoid)

theorem seen_sublist_filter (ss : List String) : (seen ss).Sublist (ss.filter (· ≠ "")) :=
  (Path.trimEnd_front _).sublist.trans (List.dropWhile_sublist _)

theorem seen_sublist (ss : List String) : (seen ss).Sublist ss :=
  (seen_sublist_filter ss).trans List.filter_sublist

theorem empty_not_mem_seen (ss : List String) : "" ∉ seen ss := by
  intro h
  have := (List.mem_filter.mp ((seen_sublist_filter ss).subset h)).2
  simp at this

theorem isVoid_of_head_seen {ss rest : List String} {s : String} (h : seen ss = s :: rest) :
    isVoid s = false := by
  have hfront := Path.trimEnd_front ((ss.filter (· ≠ "")).dropWhile isVoid)
  rw [show trimEnd _ = s :: rest from h] at hfront
  exact Path.dropSegments_head (n := 0) hfront

/-- Empty segments are no steps. -/
theorem steps_filter (ss : List String) : steps (ss.filter (· ≠ "")) = steps ss := by
  rw [steps, List.filter_filter, steps]
  congr 1
  refine List.filter_congr fun s _ => ?_
  by_cases hs : s = "" <;> simp [hs, isVoid]

/-- A path and what a search spells of it have the same steps. -/
theorem steps_seen (ss : List String) : steps (seen ss) = steps ss := by
  rw [seen, Path.steps_trimEnd, Path.steps_dropWhile, steps_filter]

/-- Leading void segments end at the first solid one. -/
theorem dropWhile_append_cons {x : String} (hx : isVoid x = false) (ss ts : List String) :
    (ss ++ x :: ts).dropWhile isVoid = ss.dropWhile isVoid ++ x :: ts := by
  rw [List.dropWhile_append]
  split
  · next h =>
    rw [List.dropWhile_cons_of_neg (by simp [hx]), List.isEmpty_iff.mp h, List.nil_append]
  · rfl

/-- So do trailing ones. -/
theorem trimEnd_append_cons {x : String} (hx : isVoid x = false) (ss ts : List String) :
    trimEnd (ss ++ x :: ts) = ss ++ x :: trimEnd ts := by
  rw [trimEnd, List.reverse_append, List.reverse_cons, List.append_assoc, List.singleton_append,
    dropWhile_append_cons hx, List.reverse_append, List.reverse_cons, List.reverse_reverse,
    List.append_assoc, List.singleton_append, trimEnd]

/-- A segment that means something is seen between what is seen before and after it. -/
theorem exists_seen_around (ss ts : List String) :
    ∃ before after, ∀ x, isVoid x = false → seen (ss ++ x :: ts) = before ++ x :: after := by
  refine ⟨(ss.filter (· ≠ "")).dropWhile isVoid, trimEnd (ts.filter (· ≠ "")), fun x hx => ?_⟩
  have hne : x ≠ "" := by
    rintro rfl
    exact absurd hx (by decide)
  rw [seen, List.filter_append, List.filter_cons_of_pos (by simpa using hne),
    dropWhile_append_cons hx, trimEnd_append_cons hx]

/-! ## Catalogs -/

/-- The characters with backslashes taken for slashes. -/
def withSlashes (cs : List Char) : List Char := cs.map fun c => if c = '\\' then '/' else c

theorem backslash_not_mem_withSlashes (cs : List Char) : '\\' ∉ withSlashes cs := by
  intro h
  obtain ⟨c, -, hc⟩ := List.mem_map.mp h
  split at hc
  · exact absurd hc (by decide)
  · next hne => exact hne hc

theorem withSlashes_of_not_mem {cs : List Char} (h : '\\' ∉ cs) : withSlashes cs = cs := by
  refine (List.map_congr_left fun c hc => ?_).trans (List.map_id cs)
  refine if_neg ?_
  rintro rfl
  exact h hc

/-- Where there are no slashes, backslashes are known from them. -/
theorem withSlashes_inj {cs ds : List Char} (hcs : '/' ∉ cs) (hds : '/' ∉ ds)
    (h : withSlashes cs = withSlashes ds) : cs = ds := by
  have hback : ∀ {cs : List Char}, '/' ∉ cs →
      (withSlashes cs).map (fun c => if c = '/' then '\\' else c) = cs := by
    intro cs hcs
    rw [withSlashes, List.map_map]
    refine (List.map_congr_left fun c hc => ?_).trans (List.map_id cs)
    have hslash : c ≠ '/' := fun he => hcs (he ▸ hc)
    by_cases hc : c = '\\' <;> simp [hc, hslash]
  rw [← hback hcs, h, hback hds]

variable {c : Config} {w : Workspace} {dir p q : Path} {front back : List Char}
  {init rest : List String} {u v x y : String} {f g : LocaleFile}

/-- What stands between a front and an end is what both leave of the whole. -/
theorem between?_eq_some {cs m : List Char} :
    between? front back cs = some m ↔ cs = front ++ m ++ back := by
  have hend : ∀ {rest : List Char}, (Text.after? back.reverse rest.reverse).map List.reverse = some m ↔
      rest = m ++ back := by
    intro rest
    rw [Option.map_eq_some_iff]
    simp only [Text.after?_eq_some, List.reverse_eq_iff, exists_eq_right, List.reverse_append,
      List.reverse_reverse]
  rw [between?]
  cases hafter : Text.after? front cs with
  | none =>
      refine iff_of_false (by rintro ⟨⟩) fun h => ?_
      rw [List.append_assoc] at h
      rw [Text.after?_eq_some.mpr h] at hafter
      cases hafter
  | some more =>
      have hcs := Text.after?_eq_some.mp hafter
      dsimp only
      rw [hend, hcs, List.append_assoc, List.append_cancel_left_eq]

/-- A file that is the catalog of a locale by its name seen from the directory: there the locale
    stands between the parts of the pattern. -/
structure IsCatalog (w : Workspace) (dir : Path) (front back : List Char) (f : LocaleFile) :
    Prop where
  isFile : w.isFile f.path = true
  locale_ne : f.locale ≠ ""
  slashless : '/' ∉ f.locale.toList
  seen : ∃ r, f.path.stripPrefix? dir = some r ∧
    withSlashes r.text.toList = front ++ f.locale.toList ++ back

/-- A path is taken for a catalog exactly if it is one. -/
theorem catalogAt?_eq_some :
    catalogAt? w dir front back p = some f ↔ f.path = p ∧ IsCatalog w dir front back f := by
  rw [catalogAt?]
  cases hstrip : p.stripPrefix? dir with
  | none =>
      refine iff_of_false (by rintro ⟨⟩) ?_
      rintro ⟨rfl, h⟩
      obtain ⟨r, hr, -⟩ := h.seen
      rw [hstrip] at hr
      cases hr
  | some r =>
      dsimp only
      cases hbetween : between? front back
          (r.text.toList.map fun c => if c = '\\' then '/' else c) with
      | none =>
          refine iff_of_false (by rintro ⟨⟩) ?_
          rintro ⟨rfl, h⟩
          obtain ⟨r', hr', hseen⟩ := h.seen
          obtain rfl : r = r' := Option.some.inj (hstrip.symm.trans hr')
          cases hbetween.symm.trans (between?_eq_some.mpr hseen)
      | some m =>
          have hm : withSlashes r.text.toList = front ++ m ++ back := between?_eq_some.mp hbetween
          dsimp only
          constructor
          · intro h
            split at h
            · cases h
            · next hgood =>
              obtain rfl := Option.some.inj h
              simp only [not_or, Bool.not_eq_true, Bool.not_eq_false,
                List.isEmpty_eq_false_iff] at hgood
              obtain ⟨hne, hslash, hfile⟩ := hgood
              refine ⟨rfl, hfile, ?_, ?_, r, hstrip, ?_⟩
              · intro h
                refine hne ?_
                rw [← String.toList_ofList (l := m), show String.ofList m = "" from h]
                rfl
              · rw [String.toList_ofList]
                intro hmem
                rw [List.contains_iff_mem.mpr hmem] at hslash
                cases hslash
              · rw [String.toList_ofList]
                exact hm
          · rintro ⟨rfl, h⟩
            obtain ⟨r', hr', hseen⟩ := h.seen
            obtain rfl : r = r' := Option.some.inj (hstrip.symm.trans hr')
            rw [hm] at hseen
            have hlocale : m = f.locale.toList :=
              List.append_cancel_left (List.append_cancel_right hseen)
            rw [hlocale, if_neg, String.ofList_toList]
            simp only [not_or, not_not]
            refine ⟨?_, ?_, h.isFile⟩
            · rw [List.isEmpty_iff, String.toList_eq_nil_iff]
              exact h.locale_ne
            · rw [List.contains_iff_mem]
              exact h.slashless

/-! ## The files looked at -/

/-- What a name in the place for the locale can be. -/
theorem name_or_point (hw : w.tree.Proper) {us vs : List Char} (h : x ∈ candidates w us vs q) :
    Path.IsName x ∨ us.head? = some '.' ∧ (x = ".." ∨ x = ".") := by
  obtain ⟨-, -, hpoint | ⟨l, -, -, htaken⟩⟩ := mem_candidates_iff.mp h
  · exact .inr hpoint
  · exact .inl (hw l x htaken).2

/-- A candidate is a name in a directory, so it is not empty and holds no separator. -/
theorem slashless_of_candidate (hw : w.tree.Proper) {us vs : List Char}
    (h : x ∈ candidates w us vs q) : '/' ∉ x.toList ∧ x ≠ "" := by
  rcases name_or_point hw h with hname | ⟨-, rfl | rfl⟩
  · refine ⟨hname.2.2, ?_⟩
    rintro rfl
    exact absurd hname.1 (by decide)
  · decide +kernel
  · decide +kernel

/-- A search for the files of a pattern: the directory of the catalogs, the segments of the pattern,
    which does not end with a slash, and the directory whose names are tried. -/
structure Search (w : Workspace) (dir : Path) (front back : List Char) (init : List String)
    (u v : String) (rest : List String) (q : Path) : Prop where
  proper : w.tree.Proper
  grounded : dir.Grounded
  segments : Segments front back init u v rest
  ends : rest.getLast? ≠ some ""
  respelled : Respelled dir init q

/-- The file that is looked at for a name is the catalog of a locale. -/
structure Finds (w : Workspace) (dir : Path) (front back : List Char) (u v : String)
    (rest : List String) (q : Path) (x : String) (f : LocaleFile) : Prop where
  candidate : x ∈ candidates w u.toList v.toList q
  path_eq : f.path = q.down (x :: rest)
  isCatalog : IsCatalog w dir front back f

section

variable (h : Search w dir front back init u v rest q)

include h

/-- A path that the search reaches: the base, and below it the names without the empty ones. -/
theorem Search.split_searched (hx : '/' ∉ x.toList ∧ x ≠ "") :
    Text.split '/' (q.down (x :: rest)).text = Path.lead dir
      ++ (dir.body.filter (· ≠ "") ++ (init ++ x :: rest).filter (· ≠ "")) := by
  obtain ⟨more, s, hmore⟩ := (List.eq_nil_or_concat (x :: rest)).resolve_left (List.cons_ne_nil _ _)
  rw [List.concat_eq_append] at hmore
  have hslashless : ∀ t ∈ more ++ [s], '/' ∉ t.toList := by
    intro t ht
    rcases List.mem_cons.mp (hmore ▸ ht) with rfl | ht
    · exact hx.1
    · exact h.segments.slashless t (by simp [ht])
  -- the last segment is the name itself, or the last of the pattern
  have hlast : s ≠ "" := by
    rintro rfl
    cases hrest : rest.getLast? with
    | none =>
        rw [List.getLast?_eq_none_iff.mp hrest] at hmore
        have := congrArg List.getLast? hmore
        rw [List.getLast?_concat, List.getLast?_singleton] at this
        exact hx.2 (Option.some.inj this)
    | some t =>
        have := congrArg List.getLast? hmore
        rw [List.getLast?_concat, List.getLast?_cons, hrest] at this
        exact h.ends (hrest.trans this)
  rw [hmore, h.respelled.split_down (fun t ht => hslashless t (List.mem_append_left _ ht))
    (hslashless s (List.mem_append_right _ List.mem_cons_self))]
  simp [hlast]

/-- A file that is looked at starts like the directory of the catalogs. -/
theorem Search.start_searched (hx : '/' ∉ x.toList ∧ x ≠ "") :
    (q.down (x :: rest)).isAbsolute = dir.isAbsolute ∧ (q.down (x :: rest)).anchor = dir.anchor ∧
      (q.down (x :: rest)).body
        = dir.body.filter (· ≠ "") ++ (init ++ x :: rest).filter (· ≠ "") := by
  refine h.grounded.start_eq (h.split_searched hx) ?_ fun habs => ?_
  · refine List.append_ne_nil_of_right_ne_nil _ fun hnil => hx.2 ?_
    have := List.filter_eq_nil_iff.mp hnil x (by simp)
    simpa using this
  · obtain ⟨s, more, hbody, hsolid⟩ := h.grounded.exists_first habs
    have hne : s ≠ "" := by
      rintro rfl
      exact absurd hsolid (by decide)
    rw [hbody, List.filter_cons_of_pos (by simpa using hne)]
    exact ⟨s, _, rfl, hsolid⟩

/-- **SEEN FROM THE DIRECTORY**, the file has the segments of the pattern with the name in the
    place. -/
theorem Search.stripPrefix?_searched (hx : '/' ∉ x.toList ∧ x ≠ "") :
    (q.down (x :: rest)).stripPrefix? dir = some ⟨Text.join '/' (seen (init ++ x :: rest))⟩ := by
  obtain ⟨-, ha, hbody⟩ := h.start_searched hx
  exact Path.stripPrefix?_of_body h.grounded.text_ne ha hbody (steps_filter dir.body)

/-- Its components are those of the base and the steps of what is spelled below. -/
theorem Search.components_searched (hx : '/' ∉ x.toList ∧ x ≠ "") :
    (q.down (x :: rest)).components = dir.components ++ steps (seen (init ++ x :: rest)) := by
  obtain ⟨-, ha, hbody⟩ := h.start_searched hx
  show (q.down (x :: rest)).anchor.components ++ steps (q.down (x :: rest)).body = _
  rw [ha, hbody, Path.steps_append, steps_filter, steps_filter, steps_seen, ← List.append_assoc]
  rfl

/-! ## The name in the place -/

theorem Search.slashless_of_finds (hf : Finds w dir front back u v rest q x f) :
    '/' ∉ x.toList ∧ x ≠ "" := slashless_of_candidate h.proper hf.candidate

variable (hf : Finds w dir front back u v rest q x f)

include hf

/-- Below the base, what is found reads as front, locale and end. -/
theorem Search.seen_text : withSlashes (Text.join '/' (seen (init ++ x :: rest))).toList
    = front ++ f.locale.toList ++ back := by
  obtain ⟨r, hr, htext⟩ := hf.isCatalog.seen
  rw [hf.path_eq, h.stripPrefix?_searched (h.slashless_of_finds hf)] at hr
  rw [← htext, ← Option.some.inj hr]

/-- The name of a catalog means something: a point in the place would leave no locale. -/
theorem Search.solid_of_finds : isVoid x = false := by
  have htext := congrArg List.length (h.seen_text hf)
  rcases name_or_point h.proper hf.candidate with hname | ⟨hhead, rfl | rfl⟩
  · exact hname.1
  · decide +kernel
  · obtain ⟨⟨middle, hmiddle⟩, -⟩ := mem_candidates_iff.mp hf.candidate
    have hnone : middle = [] := by
      cases hu : u.toList with
      | nil => rw [hu] at hhead; cases hhead
      | cons d us =>
          rw [hu] at hmiddle
          have hlength := congrArg List.length hmiddle
          simp only [List.length_append, List.length_cons, show ".".toList.length = 1 from rfl]
            at hlength
          exact List.eq_nil_of_length_eq_zero (by omega)
    have hplace : u ++ "" ++ v = "." := by
      rw [← String.toList_inj, hmiddle, hnone, String.append_empty, String.toList_append,
        List.append_nil]
    have hwhole := h.segments.join_place ""
    rw [hplace] at hwhole
    have hshort := (Text.join_sublist (seen_sublist (init ++ "." :: rest))).length_le
    rw [hwhole] at hshort
    rw [withSlashes, List.length_map] at htext
    simp only [String.append_empty, String.toList_append, String.toList_ofList,
      List.length_append] at htext hshort
    refine absurd (String.toList_eq_nil_iff.mp (List.eq_nil_of_length_eq_zero ?_))
      hf.isCatalog.locale_ne
    omega

/-- **THE NAME** of a catalog that is seen without backslashes is the locale between the parts
    of the pattern, and all segments are seen. -/
theorem Search.name_of_finds (hplain : '\\' ∉ (Text.join '/' (seen (init ++ x :: rest))).toList) :
    x = u ++ f.locale ++ v ∧ seen (init ++ x :: rest) = init ++ x :: rest ∧
      Text.split '/' (String.ofList (front ++ f.locale.toList ++ back)) = init ++ x :: rest := by
  have htext := h.seen_text hf
  rw [withSlashes_of_not_mem hplain] at htext
  have hjoined : Text.join '/' (seen (init ++ x :: rest))
      = String.ofList front ++ f.locale ++ String.ofList back := by
    rw [← String.toList_inj, htext, String.toList_append, String.toList_append,
      String.toList_ofList, String.toList_ofList]
  have hne : seen (init ++ x :: rest) ≠ [] := by
    intro hnil
    rw [hnil] at htext
    have hlocale := (List.append_eq_nil_iff.mp (List.append_eq_nil_iff.mp htext.symm).1).2
    exact hf.isCatalog.locale_ne (String.toList_eq_nil_iff.mp hlocale)
  have hslashless : ∀ s ∈ seen (init ++ x :: rest), '/' ∉ s.toList := by
    intro s hmem
    rcases List.mem_append.mp ((seen_sublist _).subset hmem) with hmem | hmem
    · exact h.segments.slashless s (List.mem_append_left _ hmem)
    · rcases List.mem_cons.mp hmem with rfl | hmem
      · exact (h.slashless_of_finds hf).1
      · exact h.segments.slashless s (by simp [hmem])
  have hplace : seen (init ++ x :: rest) = init ++ (u ++ f.locale ++ v) :: rest := by
    rw [← h.segments.split_place hf.isCatalog.slashless, ← hjoined, Text.split_join hne hslashless]
  -- as many segments are seen as there are
  have hall : seen (init ++ x :: rest) = init ++ x :: rest := by
    refine (seen_sublist _).eq_of_length ?_
    rw [hplace, List.length_append, List.length_append, List.length_cons, List.length_cons]
  have hname : x = u ++ f.locale ++ v :=
    (List.cons.inj (List.append_cancel_left (hall.symm.trans hplace))).1
  refine ⟨hname, hall, ?_⟩
  rw [String.ofList_append, String.ofList_append, String.ofList_toList, ← hjoined,
    Text.split_join hne hslashless, hall]

/-- **ONE NAME FOR A LOCALE**: different names are taken for different locales. -/
theorem Search.eq_of_locale_eq (hg : Finds w dir front back u v rest q y g)
    (hlocale : f.locale = g.locale) : x = y := by
  have hsolid := h.solid_of_finds hf
  have hsolidy := h.solid_of_finds hg
  have htext := h.seen_text hf
  have htexty := h.seen_text hg
  obtain ⟨before, after, haround⟩ := exists_seen_around init rest
  have hjoin : ∀ z : String, Text.join '/' (before ++ z :: after)
      = Text.join '/' (before ++ [""]) ++ z ++ Text.join '/' ("" :: after) := by
    intro z
    rw [← Text.join_around, String.empty_append, String.append_empty]
  rw [haround x hsolid, hjoin] at htext
  rw [haround y hsolidy, hjoin] at htexty
  rw [hlocale, ← htexty] at htext
  simp only [withSlashes, String.toList_append, List.map_append] at htext
  exact String.toList_inj.mp (withSlashes_inj (h.slashless_of_finds hf).1
    (h.slashless_of_finds hg).1 (List.append_cancel_left (List.append_cancel_right htext)))

end

/-- **THE SEARCH** looks at one file for each name that may stand in the place. -/
theorem discover_eq (hw : w.tree.Proper) (hdistinct : w.tree.Distinct) (hdir : dir.Grounded)
    (hsplit : splitAtPlaceholder? c.catalogPattern.toList = some (front, back))
    (hs : Segments front back init u v rest) (hend : rest.getLast? ≠ some "") :
    ∃ q, Search w dir front back init u v rest q ∧ c.discover w dir = .ok ((candidates w u.toList v.toList q).filterMap
      fun x => catalogAt? w dir front back (q.down (x :: rest))) := by
  obtain ⟨q, hq, hexpand⟩ :=
    expand?_runBelow hdistinct hdir hs.front_eq hs.back_eq hend
  refine ⟨q, ⟨hw, hdir, hs, hend, hq⟩, ?_⟩
  rw [discover, hsplit]
  show Except.ok (((expand? w (runBelow dir.text (String.ofList front)
    (String.ofList back))).getD []).filterMap (catalogAt? w dir front back)) = _
  congr 1
  rcases hexpand with h | ⟨h, hnot⟩
  · rw [h, Option.getD_some, List.filterMap_flatMap, List.filterMap_eq_flatMap_toList]
    refine List.flatMap_congr fun x hx => ?_
    -- one path at most comes of a name, and where none comes there is no file
    have hjoined := hq.departed.join (slashless_of_candidate hw hx).1
    have hrest : ∀ s ∈ rest, '/' ∉ s.toList := fun s hmem => hs.slashless s (by simp [hmem])
    have hone : expandFrom w false (rest.map (fun s => spelled s.toList) ++ []) (q.join ⟨x⟩)
        = expandFrom w false [] ((q.join ⟨x⟩).down rest) ∨ _ :=
      expandFrom_spelled_append hdistinct hjoined hrest
    rw [List.append_nil] at hone
    rcases hone with hone | ⟨hone, hnot⟩
    · rw [hone, expandFrom]
      cases hcatalog : catalogAt? w dir front back (q.down (x :: rest)) with
      | none => exact List.filterMap_cons_none hcatalog
      | some f => exact List.filterMap_cons_some hcatalog
    · rw [hone]
      cases hcatalog : catalogAt? w dir front back (q.down (x :: rest)) with
      | none => rfl
      | some f =>
          obtain ⟨hpath, hf⟩ := catalogAt?_eq_some.mp hcatalog
          have hthere := exists?_of_isFile (hpath ▸ hf.isFile)
          rw [show q.down (x :: rest) = (q.join ⟨x⟩).down rest from rfl, hnot] at hthere
          cases hthere
  · have hnames : w.names? q = none := by
      cases hnames : w.names? q with
      | none => rfl
      | some names =>
          obtain ⟨l, hl, hd, -⟩ := names?_eq_some.mp hnames
          rw [exists?_of_isDirectory (isDirectory_eq_true.mpr ⟨l, hl, hd⟩)] at hnot
          cases hnot
    rw [h, candidates, hnames]
    rfl

/-- A pattern that ends with a slash finds no files. -/
theorem discover_eq_nil
    (hsplit : splitAtPlaceholder? c.catalogPattern.toList = some (front, back))
    (hs : Segments front back init u v rest) (hend : rest.getLast? = some "") :
    c.discover w dir = .ok [] := by
  rw [discover, hsplit]
  show Except.ok (((expand? w (runBelow dir.text (String.ofList front)
    (String.ofList back))).getD []).filterMap (catalogAt? w dir front back)) = _
  congr 1
  refine List.filterMap_eq_nil_iff.mpr fun p hp => ?_
  have hends : (runBelow dir.text (String.ofList front) (String.ofList back)).endsWith "/" = true :=
    (endsWith_runBelow hs.front_eq hs.back_eq).mpr hend
  obtain ⟨l, hl, hd⟩ := isDirectory_eq_true.mp (isDirectory_of_mem_expand? hends hp)
  cases hcatalog : catalogAt? w dir front back p with
  | none => rfl
  | some f =>
      obtain ⟨rfl, hf⟩ := catalogAt?_eq_some.mp hcatalog
      obtain ⟨m, bytes, readOnly, hm, hheld⟩ := isFile_eq_true.mp hf.isFile
      obtain rfl : l = m := Except.ok.inj (hl.symm.trans hm)
      rw [hd] at hheld
      cases hheld

end MessageKeys.Config
