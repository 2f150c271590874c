import MessageKeys.Proofs.Path.Below
import MessageKeys.Proofs.Selection

/-! # Collecting — which files are source files, and what they are called

    A search comes to the files whose paths lead by names down from one of its starts
    (`mem_searched_iff`), and it calls them by the components of their paths below the base
    directory (`mem_collect_iff_finds`).  So what is collected depends on the lists of a
    selection as sets, and on a start only by what lies below it.

    The components below the base directory are names unless a start is spelled with `.` or `..`
    there, and exactly then a file is called by something else (`collected_exactly`). -/

namespace MessageKeys

/-! ## What a search comes to -/

namespace Workspace

variable {w : Workspace}

theorem Way.eq_down {p q : Path} {ns : List String}
    (h : Way w (fun p n => p.join ⟨n⟩) p ns q) : q = p.down ns := by
  induction h with
  | stay p => rfl
  | down _ _ ih => exact ih

theorem Way.isName (hw : w.tree.Proper) {p q : Path} {ns : List String}
    (h : Way w (fun p n => p.join ⟨n⟩) p ns q) : ∀ n ∈ ns, Path.IsName n := by
  induction h with
  | stay p => exact fun _ hn => absurd hn List.not_mem_nil
  | down hn _ ih =>
      obtain ⟨l, -, -, htaken⟩ := hn
      exact List.forall_mem_cons.mpr ⟨(hw l _ htaken).2, ih⟩

/-- Where something stands below a path, names of directories lead down to it. -/
theorem way_of_exists {p : Path} {ns : List String} (hp : p.text ≠ "")
    (hns : ∀ n ∈ ns, Path.IsName n) (h : w.exists? (p.down ns) = true) :
    w.exists? p = true ∧ Way w (fun p n => p.join ⟨n⟩) p ns (p.down ns) := by
  induction ns generalizing p with
  | nil => exact ⟨h, .stay p⟩
  | cons n rest ih =>
      obtain ⟨hn, hrest⟩ := List.forall_mem_cons.mp hns
      have hjoined : (p.join ⟨n⟩).text ≠ "" := by
        rw [Ne, ← Path.components_eq_nil_iff, Path.components_join_name p hn]
        exact List.append_ne_nil_of_right_ne_nil _ (List.cons_ne_nil _ _)
      obtain ⟨hthere, hway⟩ := ih hjoined hrest h
      obtain ⟨m, hm, htaken⟩ := exists?_iff.mp hthere
      obtain ⟨l, hl, hdirectory, hfollow⟩ := locate_join hp hn.isAbsolute hm
      have hplace : m = l ++ [n] := by
        rw [follow_ok hfollow, hn.steps_split]
        exact Path.place_names l [n]
      exact ⟨exists?_iff.mpr ⟨l, hl, by rw [hdirectory]; rintro ⟨⟩⟩,
        .down ⟨l, hl, hdirectory, hplace ▸ htaken⟩ hway⟩

/-- No name on a way is too long. -/
theorem follow_short {t : FileTree} {l m : Location} {ss : List String}
    (h : follow t l ss = .ok m) {n : String} (hn : Path.IsName n) (hmem : n ∈ ss) :
    n.utf8ByteSize ≤ maxNameSize := by
  induction ss generalizing l with
  | nil => cases hmem
  | cons s rest ih =>
      rw [follow_cons] at h
      cases hs : enter t l s with
      | error fault => rw [hs] at h; cases h
      | ok d =>
          rw [hs] at h
          rcases List.mem_cons.mp hmem with rfl | hmem
          · rw [enter, (enter_ok hs).1] at hs
            dsimp only at hs
            rw [if_neg (by simp [hn.1]), if_neg hn.2.1] at hs
            split at hs
            · cases hs
            · next hshort => exact Nat.not_lt.mp hshort
          · exact ih h hmem

/-- The names of a path that leads somewhere can lead there from elsewhere. -/
theorem name_of_locate {p : Path} {l : Location} (h : w.locate p = .ok l) {n : String}
    (hn : Path.IsName n) (hmem : .name n ∈ p.components) :
    Char.ofNat 0 ∉ n.toList ∧ n.utf8ByteSize ≤ maxNameSize := by
  obtain ⟨hnul, -, -, hfollow⟩ := locate_eq_ok.mp h
  -- it is one of the segments
  have hsegment : n ∈ Text.split '/' p.text := by
    have hcomponent : Path.Component.ofSegment n = .name n := by
      rw [Path.Component.ofSegment, if_neg hn.2.1]
    rw [Path.components_eq, ← hcomponent] at hmem
    have hstep := (List.mem_append.mp hmem).resolve_left (Path.ofSegment_not_mem_anchor n _)
    obtain ⟨s, hs, hsame⟩ := List.mem_map.mp hstep
    rw [← Path.text_ofSegment n, ← hsame, Path.text_ofSegment]
    exact (List.mem_filter.mp hs).1
  refine ⟨fun hc => hnul ?_, follow_short hfollow hn hsegment⟩
  have hsub := Text.join_sublist (List.singleton_sublist.mpr hsegment)
  rw [Text.join_singleton, Text.join_split] at hsub
  exact hsub.subset hc

/-- From a path that leads somewhere such names lead on to what is below it. -/
theorem locate_down (hw : w.tree.Proper) {p : Path} {l : Location} {ns : List String}
    (hl : w.locate p = .ok l) (hns : ∀ n ∈ ns, Path.IsName n)
    (hnames : ∀ n ∈ ns, Char.ofNat 0 ∉ n.toList ∧ n.utf8ByteSize ≤ maxNameSize)
    (hfits : (p.down ns).text.utf8ByteSize ≤ maxPathSize)
    (htaken : w.tree.get? (l ++ ns) ≠ none) : w.locate (p.down ns) = .ok (l ++ ns) := by
  induction ns generalizing p l with
  | nil => rw [List.append_nil]; exact hl
  | cons n rest ih =>
      obtain ⟨hn, hrest⟩ := List.forall_mem_cons.mp hns
      obtain ⟨⟨hnul, hshort⟩, hmore⟩ := List.forall_mem_cons.mp hnames
      have hsize : (p.join ⟨n⟩).text.utf8ByteSize ≤ maxPathSize :=
        (Path.size_le_down (p.join ⟨n⟩) hrest).trans hfits
      have hjoined := locate_join_name hl (hw.on_the_way htaken) hn hnul hshort hsize
      rw [List.append_cons] at htaken ⊢
      exact ih hjoined hrest hmore hfits htaken

end Workspace

namespace Selection

open Workspace
open MessageKeys.Path (LiesBelow IsName slashed)

variable {w : Workspace} {s : Selection} {base p start : Path}

/-- A search starts at the base directory if nothing is included, and else at each include that
    is no pattern and at the directories that the patterns name. -/
inductive StartsAt (s : Selection) (w : Workspace) (base : Path) : Path → Prop where
  | base : s.includes = [] → w.exists? base = true → StartsAt s w base base
  | literal {part : String} : part ∈ s.includes → Glob.isPattern part = false →
      w.exists? (base.join ⟨part⟩) = true → StartsAt s w base (base.join ⟨part⟩)
  | pattern {part : String} {d : Path} : part ∈ s.includes → Glob.isPattern part = true →
      d ∈ (Glob.expand? w (base.join ⟨part⟩).text).getD [] → w.isDirectory d = true →
      StartsAt s w base d

/-- A file at a start, or at names below one. -/
structure Finds (s : Selection) (w : Workspace) (base p : Path) : Prop where
  isFile : w.isFile p = true
  start : ∃ start ns, s.StartsAt w base start ∧ (∀ n ∈ ns, IsName n) ∧ p = start.down ns

/-- The path has a source extension, and it is not left out under its name: neither with a path
    that it lies at or below, nor by a pattern. -/
structure Admits (s : Selection) (base p : Path) (name : String) : Prop where
  extension : ∃ e ∈ s.extensions, p.extension? = some e
  paths : ∀ part ∈ s.ignores, Glob.isPattern part = false →
    ¬ (base.join ⟨part⟩).components <+: p.components
  patterns : ∀ part ∈ s.ignores, Glob.isPattern part = true → ∀ ts, Glob.tokens? part = some ts →
    Glob.isMatch ts name = false
  tests : s.skipTests = true → ∀ part ∈ testPatterns, ∀ ts, Glob.tokens? part = some ts →
    Glob.isMatch ts name = false

theorem StartsAt.exists? (h : s.StartsAt w base start) : w.exists? start = true := by
  cases h with
  | base _ hthere => exact hthere
  | literal _ _ hthere => exact hthere
  | pattern _ _ _ hdirectory => exact exists?_of_isDirectory hdirectory

theorem startsAt_iff : s.StartsAt w base start ↔
    start ∈ s.starts w base ∧ w.exists? start = true := by
  rw [mem_starts_iff, List.isEmpty_iff]
  constructor
  · intro h
    refine ⟨?_, h.exists?⟩
    cases h with
    | base hnone _ => exact .inl ⟨hnone, rfl⟩
    | literal hpart hliteral hthere =>
        exact .inr ⟨by simpa using List.ne_nil_of_mem hpart, _, hpart,
          mem_expandInclude_iff.mpr (.inr ⟨hliteral, hthere, rfl⟩)⟩
    | pattern hpart hpattern hd hdirectory =>
        exact .inr ⟨by simpa using List.ne_nil_of_mem hpart, _, hpart,
          mem_expandInclude_iff.mpr (.inl ⟨hpattern, hd, hdirectory⟩)⟩
  · rintro ⟨⟨hnone, rfl⟩ | ⟨-, part, hpart, hstart⟩, hthere⟩
    · exact .base hnone hthere
    · rcases mem_expandInclude_iff.mp hstart with ⟨hpattern, hd, hdirectory⟩ | ⟨hliteral, -, rfl⟩
      · exact .pattern hpart hpattern hd hdirectory
      · exact .literal hpart hliteral hthere

/-- **A SEARCH** comes to the files that lie at its starts and at names below them. -/
theorem mem_searched_iff (hw : w.tree.Proper) :
    p ∈ s.searched w base ∧ w.isFile p = true ↔ s.Finds w base p := by
  constructor
  · rintro ⟨hp, hfile⟩
    obtain ⟨start, hstart, hwalked⟩ := List.mem_flatMap.mp hp
    obtain ⟨hthere, hp⟩ := mem_walk_iff.mp hwalked
    have hstarts := startsAt_iff.mpr ⟨hstart, hthere⟩
    refine ⟨hfile, ?_⟩
    rcases hp with rfl | hp
    · exact ⟨p, [], hstarts, fun _ hn => absurd hn List.not_mem_nil, rfl⟩
    · obtain ⟨ns, -, -, hway⟩ := mem_below_iff.mp hp
      exact ⟨start, ns, hstarts, hway.isName hw, hway.eq_down⟩
  · rintro ⟨hfile, start, ns, hstarts, hns, rfl⟩
    obtain ⟨hstart, hthere⟩ := startsAt_iff.mp hstarts
    have hne : start.text ≠ "" := by
      obtain ⟨l, hl, -⟩ := exists?_iff.mp hthere
      exact (locate_eq_ok.mp hl).2.1
    obtain ⟨-, hway⟩ := way_of_exists hne hns (exists?_of_isFile hfile)
    refine ⟨List.mem_flatMap.mpr ⟨start, hstart, mem_walk_iff.mpr ⟨hthere, ?_⟩⟩, hfile⟩
    cases ns with
    | nil => exact .inl rfl
    | cons n rest =>
        -- the way is not longer than the search is deep
        exact .inr (mem_below_iff.mpr ⟨n :: rest, List.cons_ne_nil n rest,
          hway.length_le names_join hw fun _ => id, hway⟩)

/-- A path is selected under its name if it is a file that is admitted. -/
theorem select?_iff_admits {name : String} : s.select? w base p = some name ↔
    w.isFile p = true ∧ Path.relativeText? base p = some name ∧ s.Admits base p name := by
  have hpaths : (s.ignoredPaths base).any p.startsWith = false ↔
      ∀ part ∈ s.ignores, Glob.isPattern part = false →
        ¬ (base.join ⟨part⟩).components <+: p.components := by
    simp [ignoredPaths, Path.startsWith, List.isPrefixOf_iff_prefix]
  have hpatterns : s.ignoredPatterns.any (Glob.isMatch · name) = false ↔
      (∀ part ∈ s.ignores, Glob.isPattern part = true → ∀ ts, Glob.tokens? part = some ts →
        Glob.isMatch ts name = false) ∧
      (s.skipTests = true → ∀ part ∈ testPatterns, ∀ ts, Glob.tokens? part = some ts →
        Glob.isMatch ts name = false) := by
    have htests : ∀ part, part ∈ (if s.skipTests = true then testPatterns else []) ↔
        s.skipTests = true ∧ part ∈ testPatterns := by
      intro part
      split
      · next h => simp [h]
      · next h => simp [h]
    simp only [ignoredPatterns, List.any_eq_false, List.mem_filterMap, List.mem_append,
      List.mem_filter, htests, Bool.not_eq_true]
    constructor
    · intro hno
      exact ⟨fun part hpart hpattern ts hts => hno ts ⟨part, .inl ⟨hpart, hpattern⟩, hts⟩,
        fun hskip part hpart ts hts => hno ts ⟨part, .inr ⟨hskip, hpart⟩, hts⟩⟩
    · rintro ⟨hown, htest⟩ ts ⟨part, ⟨hpart, hpattern⟩ | ⟨hskip, hpart⟩, hts⟩
      · exact hown part hpart hpattern ts hts
      · exact htest hskip part hpart ts hts
  have hextension : s.hasSourceExtension p = true ↔ ∃ e ∈ s.extensions, p.extension? = some e := by
    rw [hasSourceExtension]
    cases p.extension? with
    | none => simp
    | some e => simp
  rw [select?_eq_some_iff, hpaths, hpatterns, hextension]
  constructor
  · rintro ⟨hpaths, hname, ⟨hpatterns, htests⟩, hfile, hextension⟩
    exact ⟨hfile, hname, hextension, hpaths, hpatterns, htests⟩
  · rintro ⟨hfile, hname, hextension, hpaths, hpatterns, htests⟩
    exact ⟨hpaths, hname, ⟨hpatterns, htests⟩, hfile, hextension⟩

/-- **COLLECTING**: the names are those of the admitted files that a search comes to, told by
    their components below the base directory. -/
theorem mem_collect_iff_finds (hw : w.tree.Proper) {name : String} :
    name ∈ (s.collect w base).files ↔ ∃ p, s.Finds w base p ∧
      base.components <+: p.components ∧
      name = slashed (p.components.drop base.components.length) ∧ s.Admits base p name := by
  rw [mem_collect_iff]
  refine exists_congr fun p => ?_
  rw [select?_iff_admits, Path.relativeText?_eq, ← mem_searched_iff hw, and_assoc]
  refine and_congr_right fun _ => and_congr_right fun _ => ?_
  split
  · next hfront => rw [and_iff_right hfront, Option.some.injEq, eq_comm]
  · next hfront => simp [hfront]

/-! ## One selection against another -/

theorem Finds.mono {t : Selection} (hnone : s.includes = [] → t.includes = [])
    (hincludes : s.includes ⊆ t.includes) (h : s.Finds w base p) : t.Finds w base p := by
  obtain ⟨hfile, start, ns, hstart, hns, hp⟩ := h
  refine ⟨hfile, start, ns, ?_, hns, hp⟩
  cases hstart with
  | base h hthere => exact .base (hnone h) hthere
  | literal hpart hliteral hthere => exact .literal (hincludes hpart) hliteral hthere
  | pattern hpart hpattern hd hdirectory =>
      exact .pattern (hincludes hpart) hpattern hd hdirectory

theorem Admits.mono {t : Selection} {name : String} (hextensions : s.extensions ⊆ t.extensions)
    (hignores : t.ignores ⊆ s.ignores) (htests : t.skipTests = true → s.skipTests = true)
    (h : s.Admits base p name) : t.Admits base p name where
  extension := h.extension.imp fun _ he => ⟨hextensions he.1, he.2⟩
  paths part hpart := h.paths part (hignores hpart)
  patterns part hpart := h.patterns part (hignores hpart)
  tests hskip := h.tests (htests hskip)

/-- More is collected with more includes and extensions, and with less that is left out. -/
theorem collect_mono (hw : w.tree.Proper) {t : Selection}
    (hnone : s.includes = [] → t.includes = []) (hincludes : s.includes ⊆ t.includes)
    (hextensions : s.extensions ⊆ t.extensions) (hignores : t.ignores ⊆ s.ignores)
    (htests : t.skipTests = true → s.skipTests = true) :
    (s.collect w base).files ⊆ (t.collect w base).files := by
  intro name hname
  obtain ⟨p, hfound, hfront, hcalled, hadmits⟩ := (mem_collect_iff_finds hw).mp hname
  exact (mem_collect_iff_finds hw).mpr
    ⟨p, hfound.mono hnone hincludes, hfront, hcalled, hadmits.mono hextensions hignores htests⟩

/-- Selections that collect the same names collect them in the same order. -/
theorem collect_congr {t : Selection}
    (h : ∀ name, name ∈ (s.collect w base).files ↔ name ∈ (t.collect w base).files) :
    (s.collect w base).files = (t.collect w base).files := by
  refine congrArg NameSet.names (NameSet.ofNames_congr fun name => ?_)
  exact (NameSet.mem_ofNames_iff _ name).symm.trans ((h name).trans (NameSet.mem_ofNames_iff _ name))

theorem collect_ordered (s : Selection) (w : Workspace) (base : Path) :
    (s.collect w base).files.Pairwise (· < ·) :=
  List.pairwise_map.mpr (Dictionary.increasing _)

/-- The order of includes, ignores and extensions means nothing, and neither does how often
    each is there. -/
theorem collect_of_same_members (hw : w.tree.Proper) {t : Selection}
    (hincludes : ∀ x, x ∈ t.includes ↔ x ∈ s.includes)
    (hignores : ∀ x, x ∈ t.ignores ↔ x ∈ s.ignores)
    (hextensions : ∀ x, x ∈ t.extensions ↔ x ∈ s.extensions) (htests : t.skipTests = s.skipTests) :
    (t.collect w base).files = (s.collect w base).files := by
  have hnone : t.includes = [] ↔ s.includes = [] := by
    simp only [List.eq_nil_iff_forall_not_mem, hincludes]
  refine collect_congr fun name => ⟨fun h => ?_, fun h => ?_⟩
  · exact collect_mono hw hnone.mp (fun x => (hincludes x).mp) (fun x => (hextensions x).mp)
      (fun x => (hignores x).mpr) (fun h => htests ▸ h) h
  · exact collect_mono hw hnone.mpr (fun x => (hincludes x).mpr) (fun x => (hextensions x).mpr)
      (fun x => (hignores x).mp) (fun h => htests ▸ h) h

/-- The path is that of names below the start, by its components, and no file below it has a
    path from the start that is too long. -/
def LiesInside (w : Workspace) (start d : Path) : Prop :=
  ∃ ms : List String, (∀ n ∈ ms, IsName n) ∧ d.components = start.components ++ ms.map .name ∧
    ∀ ns : List String, (∀ n ∈ ns, IsName n) → w.isFile (d.down ns) = true →
      (start.down (ms ++ ns)).text.utf8ByteSize ≤ maxPathSize

/-- Names that are joined to the start lie inside of it. -/
theorem liesInside_down {ms : List String} (hms : ∀ n ∈ ms, IsName n) :
    LiesInside w start (start.down ms) := by
  refine ⟨ms, hms, Path.components_down start hms, fun ns _ hfile => ?_⟩
  obtain ⟨l, -, -, hl, -⟩ := isFile_eq_true.mp hfile
  rw [← Path.down_append] at hl
  exact (locate_eq_ok.mp hl).2.2.1

/-- A file inside of a start is found, by a path with the same components. -/
theorem exists_finds_of_inside (hw : w.tree.Proper) {d : Path} (hstart : s.StartsAt w base start)
    (hinside : LiesInside w start d) {ns : List String} (hns : ∀ n ∈ ns, IsName n)
    (hfile : w.isFile (d.down ns) = true) :
    ∃ p, s.Finds w base p ∧ p.components = (d.down ns).components := by
  obtain ⟨ms, hms, hd, hfits⟩ := hinside
  have hnames : ∀ n ∈ ms ++ ns, IsName n := List.forall_mem_append.mpr ⟨hms, hns⟩
  have hsame : (start.down (ms ++ ns)).components = (d.down ns).components := by
    rw [Path.components_down start hnames, Path.components_down d hns, hd, List.map_append,
      List.append_assoc]
  obtain ⟨l, bytes, readOnly, hl, hheld⟩ := isFile_eq_true.mp hfile
  obtain ⟨b, hb, -⟩ := exists?_iff.mp hstart.exists?
  -- both paths lead to the place that their components name
  have hplace : l = b ++ (ms ++ ns) := by
    rw [locate_eq_place hl, ← hsame, Path.components_down start hnames, Path.place_append,
      ← locate_eq_place hb, Path.place_names]
  rw [hplace] at hheld
  have hfound : w.locate (start.down (ms ++ ns)) = .ok (b ++ (ms ++ ns)) := by
    refine locate_down hw hb hnames (fun n hn => ?_) (hfits ns hns hfile) ?_
    · refine name_of_locate hl (hnames n hn) ?_
      rw [← hsame, Path.components_down start hnames]
      exact List.mem_append_right _ (List.mem_map_of_mem hn)
    · rw [hheld]
      rintro ⟨⟩
  exact ⟨_, ⟨isFile_eq_true.mpr ⟨_, bytes, readOnly, hfound, hheld⟩, start, ms ++ ns, hstart,
    hnames, rfl⟩, hsame⟩

theorem Admits.congr {q : Path} {name : String} (hsame : q.components = p.components)
    (h : s.Admits base p name) : s.Admits base q name where
  extension := by
    rw [Path.extension?_congr (Path.fileName?_congr hsame)]
    exact h.extension
  paths part hpart hliteral := hsame ▸ h.paths part hpart hliteral
  patterns := h.patterns
  tests := h.tests

/-- An include whose places all lie inside of other ones adds nothing. -/
theorem collect_of_nested (hw : w.tree.Proper) (hnone : s.includes ≠ []) {part : String}
    (hnested : ∀ d ∈ expandInclude w base part, ∃ start, s.StartsAt w base start ∧
      LiesInside w start d) :
    (({ s with includes := part :: s.includes } : Selection).collect w base).files
      = (s.collect w base).files := by
  have hincludes : s.includes ⊆ ({ s with includes := part :: s.includes } : Selection).includes :=
    List.subset_cons_self part s.includes
  refine collect_congr fun name => ⟨fun hname => ?_, fun hname => ?_⟩
  · obtain ⟨p, ⟨hfile, d, ns, hd, hns, rfl⟩, hfront, hcalled, hadmits⟩ :=
      (mem_collect_iff_finds hw).mp hname
    have hadmits' : s.Admits base (d.down ns) name :=
      ⟨hadmits.extension, hadmits.paths, hadmits.patterns, hadmits.tests⟩
    obtain ⟨hd, hthere⟩ := startsAt_iff.mp hd
    have hfound : ∃ q, s.Finds w base q ∧ q.components = (d.down ns).components := by
      rcases List.mem_append.mp (show d ∈ expandInclude w base part ++
        s.includes.flatMap (expandInclude w base) from hd) with hnew | hold
      · obtain ⟨start, hstart, hinside⟩ := hnested d hnew
        exact exists_finds_of_inside hw hstart hinside hns hfile
      · refine ⟨d.down ns, ⟨hfile, d, ns, startsAt_iff.mpr ⟨?_, hthere⟩, hns, rfl⟩, rfl⟩
        rw [starts, if_neg (by simpa using hnone)]
        exact hold
    obtain ⟨q, hfinds, hsame⟩ := hfound
    exact (mem_collect_iff_finds hw).mpr
      ⟨q, hfinds, hsame ▸ hfront, hsame ▸ hcalled, hadmits'.congr hsame⟩
  · exact collect_mono hw (fun h => absurd h hnone) hincludes (List.Subset.refl _)
      (List.Subset.refl _) id hname

/-! ## Names and places -/

/-- The joined names of an admitted file that is found at these names below the base
    directory. -/
def NamedBelow (s : Selection) (w : Workspace) (base : Path) (name : String) : Prop :=
  ∃ (ns : List String) (p : Path), (∀ n ∈ ns, IsName n) ∧ name = slashed (ns.map .name) ∧
    s.Finds w base p ∧ p.components = base.components ++ ns.map .name ∧ s.Admits base p name

/-- The joined names of an admitted file that is found, by whatever path, in the place of these
    names below the place of the base directory. -/
def PlacedBelow (s : Selection) (w : Workspace) (base : Path) (b : Location) (name : String) :
    Prop :=
  ∃ (ns : List String) (p : Path), (∀ n ∈ ns, IsName n) ∧ name = slashed (ns.map .name) ∧
    s.Finds w base p ∧ w.locate p = .ok (b ++ ns) ∧ s.Admits base p name

/-- No admitted file is found below the base directory by anything else than names. -/
def FoundByNames (s : Selection) (w : Workspace) (base : Path) : Prop :=
  ∀ p, s.Finds w base p → base.components <+: p.components →
    s.Admits base p (slashed (p.components.drop base.components.length)) → LiesBelow base p

theorem NamedBelow.mem (hw : w.tree.Proper) {name : String} (h : s.NamedBelow w base name) :
    name ∈ (s.collect w base).files := by
  obtain ⟨ns, p, -, rfl, hfound, hp, hadmits⟩ := h
  refine (mem_collect_iff_finds hw).mpr ⟨p, hfound, hp ▸ List.prefix_append _ _, ?_, hadmits⟩
  rw [hp, List.drop_left]

theorem FoundByNames.namedBelow (hw : w.tree.Proper) (h : s.FoundByNames w base) {name : String}
    (hname : name ∈ (s.collect w base).files) : s.NamedBelow w base name := by
  obtain ⟨p, hfound, hfront, rfl, hadmits⟩ := (mem_collect_iff_finds hw).mp hname
  obtain ⟨ns, hns, hp⟩ := h p hfound hfront hadmits
  rw [hp, List.drop_left] at hadmits ⊢
  exact ⟨ns, p, hns, rfl, hfound, hp, hadmits⟩

/-- Where all that is collected is called by joined names, nothing else leads to the files. -/
theorem foundByNames_of_names (hw : w.tree.Proper)
    (h : ∀ name ∈ (s.collect w base).files, ∃ ns : List String, (∀ n ∈ ns, IsName n) ∧
      name = slashed (ns.map .name)) : s.FoundByNames w base := by
  intro p hfound hfront hadmits
  obtain ⟨ns, hns, hcalled⟩ :=
    h _ ((mem_collect_iff_finds hw).mpr ⟨p, hfound, hfront, rfl, hadmits⟩)
  refine ⟨ns, hns, ?_⟩
  -- both texts are read back
  have hread := Path.components_slashed_drop p base.components.length
  rw [hcalled, Path.components_slashed_names hns] at hread
  rw [hread]
  exact (List.prefix_iff_eq_append.mp hfront).symm

/-- What is collected has the names of files below the base directory, exactly if nothing
    else than names leads to these files from there. -/
theorem collects_names_iff (hw : w.tree.Proper) :
    (∀ name, name ∈ (s.collect w base).files ↔ s.NamedBelow w base name) ↔
      s.FoundByNames w base := by
  constructor
  · intro hall
    refine foundByNames_of_names hw fun name hname => ?_
    obtain ⟨ns, -, hns, hcalled, -⟩ := (hall name).mp hname
    exact ⟨ns, hns, hcalled⟩
  · exact fun h name => ⟨h.namedBelow hw, NamedBelow.mem hw⟩

/-- A file that is found at names below the base directory lies in the place of these names. -/
theorem place_of_finds {ns : List String} {b : Location} (hb : w.locate base = .ok b)
    (hfound : s.Finds w base p) (hp : p.components = base.components ++ ns.map .name) :
    w.locate p = .ok (b ++ ns) := by
  obtain ⟨l, -, -, hl, -⟩ := isFile_eq_true.mp hfound.isFile
  rw [hl, locate_eq_place hl, hp, Path.place_append, ← locate_eq_place hb, Path.place_names]

/-- The files that are collected are those in the place of the base directory, exactly if
    nothing else than names leads to them and names lead to all of them. -/
theorem collects_places_iff (hw : w.tree.Proper) {b : Location} (hb : w.locate base = .ok b) :
    (∀ name, name ∈ (s.collect w base).files ↔ s.PlacedBelow w base b name) ↔
      s.FoundByNames w base ∧ ∀ name, s.PlacedBelow w base b name → s.NamedBelow w base name := by
  constructor
  · intro hall
    have hnames : s.FoundByNames w base := foundByNames_of_names hw fun name hname => by
      obtain ⟨ns, -, hns, hcalled, -⟩ := (hall name).mp hname
      exact ⟨ns, hns, hcalled⟩
    exact ⟨hnames, fun name hplaced => hnames.namedBelow hw ((hall name).mpr hplaced)⟩
  · rintro ⟨hnames, hreached⟩ name
    refine ⟨fun hname => ?_, fun hplaced => (hreached name hplaced).mem hw⟩
    obtain ⟨ns, p, hns, hcalled, hfound, hp, hadmits⟩ := hnames.namedBelow hw hname
    exact ⟨ns, p, hns, hcalled, hfound, place_of_finds hb hfound hp, hadmits⟩

/-- The include is no pattern, is relative and does not go up, or it is a pattern and the
    directories that it names lie below the base directory by names. -/
structure Plain (w : Workspace) (base : Path) (part : String) : Prop where
  literal : Glob.isPattern part = false →
    (Path.mk part).isAbsolute = false ∧ ".." ∉ Text.split '/' part
  pattern : Glob.isPattern part = true → ∀ d ∈ expandInclude w base part, LiesBelow base d

/-- Plain includes lie below a base directory with a path. -/
theorem liesBelow_of_plain (hbase : base.text ≠ "") (hplain : ∀ part ∈ s.includes, Plain w base part)
    (hstart : s.StartsAt w base start) : LiesBelow base start := by
  cases hstart with
  | base _ _ => exact ⟨[], fun _ hn => absurd hn List.not_mem_nil, (List.append_nil _).symm⟩
  | @literal part hpart hliteral _ =>
      obtain ⟨hrelative, hdown⟩ := (hplain part hpart).literal hliteral
      have hup : Path.Component.up ∉ Path.steps (Text.split '/' part) := by
        intro hmem
        obtain ⟨n, hn⟩ := steps_names hdown hmem
        cases hn
      obtain ⟨ns, hns, hsteps⟩ :=
        Path.names_of_behind (fun c => Path.behind_steps (p := ⟨part⟩)) hup
      exact ⟨ns, hns, by rw [Path.components_join hbase hrelative, hsteps]⟩
  | pattern hpart hpattern hd hdirectory =>
      exact (hplain _ hpart).pattern hpattern _
        (mem_expandInclude_iff.mpr (.inl ⟨hpattern, hd, hdirectory⟩))

theorem Finds.liesBelow (hstarts : ∀ start, s.StartsAt w base start → LiesBelow base start)
    (h : s.Finds w base p) : LiesBelow base p := by
  obtain ⟨-, start, ns, hstart, hns, rfl⟩ := h
  exact (hstarts start hstart).down hns

/-- Where every start lies below the base directory by names, so do all files. -/
theorem named_of_placed (hstarts : ∀ start, s.StartsAt w base start → LiesBelow base start)
    {b : Location} (hb : w.locate base = .ok b) {name : String}
    (h : s.PlacedBelow w base b name) : s.NamedBelow w base name := by
  obtain ⟨ns, p, hns, hcalled, hfound, hl, hadmits⟩ := h
  obtain ⟨ks, -, hp⟩ := hfound.liesBelow hstarts
  have hks : b ++ ks = b ++ ns := Except.ok.inj ((place_of_finds hb hfound hp).symm.trans hl)
  rw [List.append_cancel_left hks] at hp
  exact ⟨ns, p, hns, hcalled, hfound, hp, hadmits⟩

/-- What is collected from a base directory. -/
structure Collecting (s : Selection) (w : Workspace) (base : Path) : Prop where
  /-- The admitted files that a search comes to, told by their components below the base. -/
  mem_iff : ∀ name, name ∈ (s.collect w base).files ↔ ∃ p, s.Finds w base p ∧
    base.components <+: p.components ∧
    name = slashed (p.components.drop base.components.length) ∧ s.Admits base p name
  /-- In order, and each name once. -/
  ordered : (s.collect w base).files.Pairwise (· < ·)
  /-- The names are those of files below the base, exactly if these files are found by names. -/
  names_iff : (∀ name, name ∈ (s.collect w base).files ↔ s.NamedBelow w base name) ↔
    s.FoundByNames w base
  /-- They are those of all files in the place of the base, exactly if names lead to all. -/
  places_iff : ∀ b, w.locate base = .ok b →
    ((∀ name, name ∈ (s.collect w base).files ↔ s.PlacedBelow w base b name) ↔
      s.FoundByNames w base ∧ ∀ name, s.PlacedBelow w base b name → s.NamedBelow w base name)
  /-- Both are so with plain includes, where the base has a path. -/
  plain : base.text ≠ "" → (∀ part ∈ s.includes, Plain w base part) →
    (∀ name, name ∈ (s.collect w base).files ↔ s.NamedBelow w base name) ∧
    ∀ b, w.locate base = .ok b →
      ∀ name, name ∈ (s.collect w base).files ↔ s.PlacedBelow w base b name
  /-- The lists of a selection count as sets. -/
  same : ∀ t : Selection, (∀ x, x ∈ t.includes ↔ x ∈ s.includes) →
    (∀ x, x ∈ t.ignores ↔ x ∈ s.ignores) → (∀ x, x ∈ t.extensions ↔ x ∈ s.extensions) →
    t.skipTests = s.skipTests → (t.collect w base).files = (s.collect w base).files
  /-- An include inside of others adds nothing, however it is spelled. -/
  nested : s.includes ≠ [] → ∀ part, (∀ d ∈ expandInclude w base part, ∃ start,
      s.StartsAt w base start ∧ LiesInside w start d) →
    (({ s with includes := part :: s.includes } : Selection).collect w base).files
      = (s.collect w base).files
  /-- More includes, if there are any, and more extensions collect more, more ignores less. -/
  mono : ∀ t : Selection, (s.includes = [] → t.includes = []) → s.includes ⊆ t.includes →
    s.extensions ⊆ t.extensions → t.ignores ⊆ s.ignores →
    (t.skipTests = true → s.skipTests = true) →
    (s.collect w base).files ⊆ (t.collect w base).files

/-- **SOURCE FILES** are the admitted files at or below the starts of a search, each called by its
    names below the base directory as far as the starts are spelled so. -/
theorem collected_exactly (hw : w.tree.Proper) (s : Selection) (base : Path) :
    Collecting s w base where
  mem_iff _ := mem_collect_iff_finds hw
  ordered := collect_ordered s w base
  names_iff := collects_names_iff hw
  places_iff _ hb := collects_places_iff hw hb
  plain hbase hplain := by
    have hstarts : ∀ start, s.StartsAt w base start → LiesBelow base start :=
      fun _ => liesBelow_of_plain hbase hplain
    have hnames : s.FoundByNames w base := fun _ hfound _ _ => hfound.liesBelow hstarts
    exact ⟨(collects_names_iff hw).mpr hnames, fun b hb =>
      (collects_places_iff hw hb).mpr ⟨hnames, fun _ => named_of_placed hstarts hb⟩⟩
  same _ := collect_of_same_members hw
  nested hnone _ := collect_of_nested hw hnone
  mono _ hnone := collect_mono hw hnone

/-- One file below a directory. -/
private def sampleSources : Workspace where
  tree := ⟨[(["src"], .directory), (["src", "nav.ts"], .file "m.hello()".toUTF8 false)]⟩
  here := []
  clock := fun _ => "T"
  ticks := 0

/-- The directory of the file is included in two spellings. -/
private def sampleOverlap : Selection := ⟨["src", "./src"], [], usualExtensions, true⟩

/-- Seen from a directory with a path the file has one name, from the empty path it has two. -/
theorem collected_exactly_sample :
    (sampleOverlap.collect sampleSources ⟨"/"⟩).files = ["src/nav.ts"] ∧
      (∀ name, name ∈ (sampleOverlap.collect sampleSources ⟨"/"⟩).files ↔
        sampleOverlap.NamedBelow sampleSources ⟨"/"⟩ name) ∧
      (sampleOverlap.collect sampleSources ⟨""⟩).files = ["./src/nav.ts", "src/nav.ts"] ∧
      ¬ sampleOverlap.NamedBelow sampleSources ⟨""⟩ "./src/nav.ts" := by
  have hproper : sampleSources.tree.Proper := FileTree.proper_of_entries (by decide +kernel)
  have hexact := collected_exactly hproper sampleOverlap ⟨"/"⟩
  have hpatterns : ∀ part ∈ sampleOverlap.includes, Glob.isPattern part = false := by
    decide +kernel
  have hdown : ∀ part ∈ sampleOverlap.includes,
      (Path.mk part).isAbsolute = false ∧ ".." ∉ Text.split '/' part := by
    decide +kernel
  obtain ⟨hnames, -⟩ := hexact.plain (by decide) fun part hpart =>
    ⟨fun _ => hdown part hpart, fun h => absurd h (by rw [hpatterns part hpart]; decide)⟩
  refine ⟨by decide +kernel, hnames, by decide +kernel, ?_⟩
  rintro ⟨ns, -, hns, hcalled, -⟩
  -- the text is read back as names, but it starts with a point
  have hread : (Path.mk "./src/nav.ts").components = ns.map .name := by
    rw [hcalled, Path.components_slashed_names hns]
  have hpoint : Path.Component.here ∈ (Path.mk "./src/nav.ts").components := by decide +kernel
  rw [hread] at hpoint
  obtain ⟨n, -, hn⟩ := List.mem_map.mp hpoint
  cases hn

end Selection

end MessageKeys
