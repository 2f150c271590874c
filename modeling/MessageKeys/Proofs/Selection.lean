import MessageKeys.Proofs.Dictionary
import MessageKeys.Proofs.Search
import MessageKeys.Selection

/-! # Selections — files of another extension leave the source files as they are

    What a search finds after files were added it found before, or it is one of the new files
    (`mem_searched_or_fresh`).  If these have an extension that is no source extension, the
    same source files are collected before and after (`collect_of_adds`). -/

namespace MessageKeys

open Workspace

variable {w v : Workspace}

/-! ## Files that were added -/

/-- Files were added to directories, all of them with the extension. -/
structure Adds (w v : Workspace) (e : String) : Prop where
  keeps : Keeps w v
  proper : w.tree.Proper
  added : ∀ c, w.tree.get? c = none → v.tree.get? c ≠ none →
    ∃ d stem, c = d ++ [stem ++ "." ++ e] ∧ w.tree.get? d = some .directory ∧
      Path.IsName (stem ++ "." ++ e)

variable {e : String}

/-- The tree is proper still. -/
theorem Adds.proper_after (h : Adds w v e) : v.tree.Proper := by
  intro l n htaken
  cases hold : w.tree.get? (l ++ [n]) with
  | some entry =>
      obtain ⟨hd, hn⟩ := h.proper l n (by rw [hold]; rintro ⟨⟩)
      exact ⟨(h.keeps.directory l).mpr hd, hn⟩
  | none =>
      obtain ⟨d, stem, hplace, hd, hn⟩ := h.added _ hold htaken
      obtain ⟨rfl, hname⟩ := List.append_inj' hplace rfl
      cases hname
      exact ⟨(h.keeps.directory l).mpr hd, hn⟩

/-- What was added has no other extension. -/
theorem Adds.extension? (h : Adds w v e) (he : '.' ∉ e.toList) {p : Path} {l : Location}
    (hl : v.locate p = .ok l) (hfree : w.tree.get? l = none) (htaken : v.tree.get? l ≠ none) :
    p.extension? = none ∨ p.extension? = some e := by
  obtain ⟨d, stem, hplace, -, -⟩ := h.added l hfree htaken
  have hfile : v.tree.get? l ≠ some .directory := by
    rw [Ne, h.keeps.directory, hfree]
    rintro ⟨⟩
  obtain ⟨d', n, hplace', -, -, hname⟩ := exists_fileName h.proper_after hl hfile
  obtain ⟨-, hlast⟩ := List.append_inj' (hplace'.symm.trans hplace) rfl
  cases hlast
  exact Path.extension?_of_fileName he hname

namespace Workspace

/-- Files stay files, and what was no directory has not become one. -/
theorem isFile_of_keeps (hk : Keeps w v) {p : Path} {l : Location} (hl : w.locate p = .ok l)
    (htaken : w.tree.get? l ≠ none) : v.isFile p = w.isFile p := by
  have hv := (locate_of_later hk.toLater p l).mpr hl
  have hnow := hk.present l htaken
  have hdirectory := hk.directory l
  rw [Bool.eq_iff_iff, isFile_eq_true, isFile_eq_true]
  simp only [hl, hv, Except.ok.injEq, exists_and_left, exists_eq_left']
  cases hw : w.tree.get? l with
  | none => exact absurd hw htaken
  | some old =>
      cases hv : v.tree.get? l with
      | none => exact absurd hv hnow
      | some new =>
          rw [hw, hv] at hdirectory
          cases old with
          | directory => cases hdirectory.mpr rfl; rfl
          | file bytes readOnly =>
              cases new with
              | directory => cases hdirectory.mp rfl
              | file bytes' readOnly' =>
                  exact iff_of_true ⟨bytes', readOnly', rfl⟩ ⟨bytes, readOnly, rfl⟩

theorem mem_walk_iff {p q : Path} : q ∈ w.walk p ↔
    w.exists? p = true ∧ (q = p ∨ q ∈ w.below (fun r name => r.join ⟨name⟩) w.tree.height p) := by
  rw [walk]
  split
  · next h => rw [List.mem_cons, and_iff_right h]
  · next h => exact iff_of_false List.not_mem_nil fun hand => h hand.1

/-- What is walked is walked still. -/
theorem mem_walk_of_keeps (hk : Keeps w v) (hw : w.tree.Proper) {p q : Path} (h : q ∈ w.walk p) :
    q ∈ v.walk p := by
  obtain ⟨hthere, hq⟩ := mem_walk_iff.mp h
  exact mem_walk_iff.mpr ⟨exists?_of_keeps hk hthere,
    hq.imp_right (mem_below_of_keeps names_join hk hw)⟩

/-- What is walked was walked before, or is new. -/
theorem mem_walk_or_fresh (hk : Keeps w v) (hw : w.tree.Proper) (hv : v.tree.Proper) {p q : Path}
    (h : q ∈ v.walk p) : q ∈ w.walk p ∨ Fresh w v q := by
  obtain ⟨hthere, hq⟩ := mem_walk_iff.mp h
  rcases exists?_old_or_fresh hk hthere with hold | hfresh
  · rcases hq with rfl | hq
    · exact .inl (mem_walk_iff.mpr ⟨hold, .inl rfl⟩)
    · exact (mem_below_or_fresh names_join hk hw hv hq).imp_left
        fun hq => mem_walk_iff.mpr ⟨hold, .inr hq⟩
  · -- nothing lies below a start that is new
    rcases hq with rfl | hq
    · exact .inr hfresh
    · rw [hfresh.below] at hq
      cases hq

end Workspace

/-! ## What is searched and selected -/

namespace Selection

variable (s : Selection) {base p : Path}

/-- All that is searched. -/
def searched (w : Workspace) (base : Path) : List Path := (s.starts w base).flatMap w.walk

theorem mem_expandInclude_iff {part : String} : p ∈ expandInclude w base part ↔
    (Glob.isPattern part = true ∧ p ∈ (Glob.expand? w (base.join ⟨part⟩).text).getD [] ∧
        w.isDirectory p = true) ∨
      Glob.isPattern part = false ∧ w.exists? p = true ∧ p = base.join ⟨part⟩ := by
  unfold expandInclude
  dsimp only
  cases Glob.isPattern part with
  | true => simp
  | false =>
      rw [if_neg Bool.false_ne_true, List.mem_ite_nil_right, List.mem_singleton]
      constructor
      · rintro ⟨hthere, rfl⟩
        exact .inr ⟨rfl, hthere, rfl⟩
      · rintro (⟨hpattern, -⟩ | ⟨-, hthere, rfl⟩)
        · cases hpattern
        · exact ⟨hthere, rfl⟩

theorem mem_starts_iff : p ∈ s.starts w base ↔
    (s.includes.isEmpty = true ∧ p = base) ∨
      s.includes.isEmpty = false ∧ ∃ part ∈ s.includes, p ∈ expandInclude w base part := by
  rw [starts]
  cases s.includes.isEmpty with
  | true => simp
  | false => simp

theorem mem_starts_of_keeps (hk : Keeps w v) (hw : w.tree.Proper) (hv : v.tree.Proper)
    (h : p ∈ s.starts w base) : p ∈ s.starts v base := by
  refine s.mem_starts_iff.mpr ((s.mem_starts_iff.mp h).imp_right ?_)
  rintro ⟨hsome, part, hpart, hp⟩
  refine ⟨hsome, part, hpart, mem_expandInclude_iff.mpr ?_⟩
  rcases mem_expandInclude_iff.mp hp with ⟨hpattern, hp⟩ | ⟨hliteral, hthere, he⟩
  · exact .inl ⟨hpattern, (Glob.mem_expand?_iff hk hw hv _).mpr hp⟩
  · exact .inr ⟨hliteral, exists?_of_keeps hk hthere, he⟩

theorem mem_starts_or_fresh (hk : Keeps w v) (hw : w.tree.Proper) (hv : v.tree.Proper)
    (h : p ∈ s.starts v base) : p ∈ s.starts w base ∨ Fresh w v p := by
  rw [mem_starts_iff]
  rcases s.mem_starts_iff.mp h with hbase | ⟨hsome, part, hpart, hp⟩
  · exact .inl (.inl hbase)
  · suffices hstart : p ∈ expandInclude w base part ∨ Fresh w v p from
      hstart.imp_left fun hp => .inr ⟨hsome, part, hpart, hp⟩
    rw [mem_expandInclude_iff]
    rcases mem_expandInclude_iff.mp hp with ⟨hpattern, hp⟩ | ⟨hliteral, hthere, he⟩
    · exact .inl (.inl ⟨hpattern, (Glob.mem_expand?_iff hk hw hv _).mp hp⟩)
    · exact (exists?_old_or_fresh hk hthere).imp_left fun hold => .inr ⟨hliteral, hold, he⟩

theorem mem_searched_of_keeps (hk : Keeps w v) (hw : w.tree.Proper) (hv : v.tree.Proper)
    (h : p ∈ s.searched w base) : p ∈ s.searched v base := by
  obtain ⟨start, hstart, hp⟩ := List.mem_flatMap.mp h
  exact List.mem_flatMap.mpr
    ⟨start, s.mem_starts_of_keeps hk hw hv hstart, mem_walk_of_keeps hk hw hp⟩

/-- **NOTHING ELSE IS FOUND**: a search finds what it found before, and new files. -/
theorem mem_searched_or_fresh (hk : Keeps w v) (hw : w.tree.Proper) (hv : v.tree.Proper)
    (h : p ∈ s.searched v base) : p ∈ s.searched w base ∨ Fresh w v p := by
  obtain ⟨start, hstart, hp⟩ := List.mem_flatMap.mp h
  rcases s.mem_starts_or_fresh hk hw hv hstart with hold | hfresh
  · exact (mem_walk_or_fresh hk hw hv hp).imp_left
      fun hp => List.mem_flatMap.mpr ⟨start, hold, hp⟩
  · obtain ⟨-, rfl | hp⟩ := mem_walk_iff.mp hp
    · exact .inr hfresh
    · rw [hfresh.below] at hp
      cases hp

theorem mem_collect_iff (w : Workspace) (base : Path) (name : String) :
    name ∈ (s.collect w base).files ↔ ∃ p ∈ s.searched w base, s.select? w base p = some name := by
  rw [collect]
  dsimp only
  rw [NameSet.mem_ofNames_iff, List.mem_filterMap]
  rfl

/-- A path is selected if it is a file with a source extension that is not left out. -/
theorem select?_eq_some_iff {name : String} : s.select? w base p = some name ↔
    (s.ignoredPaths base).any p.startsWith = false ∧ Path.relativeText? base p = some name ∧
      s.ignoredPatterns.any (Glob.isMatch · name) = false ∧ w.isFile p = true ∧
      s.hasSourceExtension p = true := by
  rw [select?]
  split
  · next hout => simp [hout]
  · next hin =>
    rw [Bool.not_eq_true] at hin
    cases hname : Path.relativeText? base p with
    | none => simp
    | some found =>
        dsimp only
        split
        · next hout =>
          refine iff_of_false (by rintro ⟨⟩) ?_
          rintro ⟨-, he, hno, -⟩
          cases he
          rw [hout] at hno
          cases hno
        · next hkept =>
          rw [Bool.not_eq_true] at hkept
          split
          · next hfile =>
            rw [Bool.and_eq_true] at hfile
            constructor
            · rintro ⟨⟩
              exact ⟨hin, rfl, hkept, hfile⟩
            · rintro ⟨-, he, -⟩
              exact he
          · next hfile =>
            refine iff_of_false (by rintro ⟨⟩) ?_
            rintro ⟨-, -, -, hboth⟩
            exact hfile (Bool.and_eq_true _ _ ▸ hboth)

/-- What is new is selected only by the extension of the new files. -/
theorem taken_of_selected (h : Adds w v e) (he : '.' ∉ e.toList) (hext : e ∉ s.extensions)
    {name : String} (hp : s.select? v base p = some name) :
    ∃ l, w.locate p = .ok l ∧ w.tree.get? l ≠ none := by
  obtain ⟨-, -, -, hfile, hsource⟩ := s.select?_eq_some_iff.mp hp
  obtain ⟨l, bytes, readOnly, hl, hheld⟩ := isFile_eq_true.mp hfile
  refine ⟨l, (locate_of_later h.keeps.toLater p l).mp hl, fun hfree => ?_⟩
  rw [hasSourceExtension] at hsource
  rcases h.extension? he hl hfree (by rw [hheld]; rintro ⟨⟩) with hnone | hsome
  · rw [hnone] at hsource
    cases hsource
  · rw [hsome, List.contains_iff_mem] at hsource
    exact hext hsource

/-- **THE SAME SOURCE FILES** are collected after files of another extension were added. -/
theorem collect_of_adds (h : Adds w v e) (he : '.' ∉ e.toList) (hext : e ∉ s.extensions)
    (base : Path) : (s.collect v base).files = (s.collect w base).files := by
  refine congrArg NameSet.names (NameSet.ofNames_congr fun name => ?_)
  rw [List.mem_filterMap, List.mem_filterMap]
  constructor
  · rintro ⟨p, hp, hselected⟩
    obtain ⟨l, hl, htaken⟩ := s.taken_of_selected h he hext hselected
    refine ⟨p, ?_, ?_⟩
    · refine (s.mem_searched_or_fresh h.keeps h.proper h.proper_after hp).resolve_right ?_
      exact fun hfresh => htaken (hfresh.free l ((locate_of_later h.keeps.toLater p l).mpr hl))
    · rw [select?_eq_some_iff, isFile_of_keeps h.keeps hl htaken] at hselected
      exact s.select?_eq_some_iff.mpr hselected
  · rintro ⟨p, hp, hselected⟩
    obtain ⟨hin, hname, hkept, hfile, hsource⟩ := s.select?_eq_some_iff.mp hselected
    obtain ⟨l, bytes, readOnly, hl, hheld⟩ := isFile_eq_true.mp hfile
    refine ⟨p, s.mem_searched_of_keeps h.keeps h.proper h.proper_after hp, ?_⟩
    rw [select?_eq_some_iff, isFile_of_keeps h.keeps hl (by rw [hheld]; rintro ⟨⟩)]
    exact ⟨hin, hname, hkept, hfile, hsource⟩

/-! ## Names of source files -/

theorem hasSourceExtension_congr {q : Path} (h : p.fileName? = q.fileName?) :
    s.hasSourceExtension p = s.hasSourceExtension q := by
  rw [hasSourceExtension, hasSourceExtension, Path.extension?_congr h]

/-- Joined to the base directory, the name of a source file spells the components of the path
    that was found. -/
theorem exists_of_mem_collect {name : String} (h : name ∈ (s.collect w base).files) :
    ∃ p ∈ s.searched w base, (base.join ⟨name⟩).components = p.components ∧
      Path.relativeText? base p = some name ∧ w.isFile p = true ∧ s.hasSourceExtension p = true := by
  obtain ⟨p, hp, hselected⟩ := (s.mem_collect_iff w base name).mp h
  obtain ⟨-, hname, -, hfile, hsource⟩ := s.select?_eq_some_iff.mp hselected
  exact ⟨p, hp, Path.components_join_relativeText hname, hname, hfile, hsource⟩

/-- A source file is called by its name again. -/
theorem name_of_mem_collect {name : String} (h : name ∈ (s.collect w base).files) :
    s.hasSourceExtension (base.join ⟨name⟩) = true ∧
      Path.relativeText? base (base.join ⟨name⟩) = some name := by
  obtain ⟨p, -, hcomponents, hname, -, hsource⟩ := s.exists_of_mem_collect h
  rw [s.hasSourceExtension_congr (Path.fileName?_congr hcomponents), Path.relativeText?_eq,
    hcomponents, ← Path.relativeText?_eq]
  exact ⟨hsource, hname⟩

theorem nodup_collect (w : Workspace) (base : Path) : (s.collect w base).files.Nodup :=
  Dictionary.nodup_names _

/-- Where a source file leads to, a file was found. -/
theorem taken_of_mem_collect {name : String} (h : name ∈ (s.collect w base).files) {l : Location}
    (hl : w.locate (base.join ⟨name⟩) = .ok l) :
    ∃ bytes readOnly, w.tree.get? l = some (.file bytes readOnly) := by
  obtain ⟨p, -, hcomponents, -, hfile, -⟩ := s.exists_of_mem_collect h
  obtain ⟨m, bytes, readOnly, hm, hheld⟩ := isFile_eq_true.mp hfile
  rw [locate_unique hcomponents hl hm]
  exact ⟨bytes, readOnly, hheld⟩

/-- No file is collected under two names. -/
def Apart (w : Workspace) (base : Path) : Prop :=
  ∀ m ∈ (s.collect w base).files, ∀ n ∈ (s.collect w base).files, ∀ l,
    w.locate (base.join ⟨m⟩) = .ok l → w.locate (base.join ⟨n⟩) = .ok l → m = n

theorem exists_names {cs : List Path.Component} (h : ∀ c ∈ cs, ∃ n, c = .name n) :
    ∃ ns : List String, cs = ns.map Path.Component.name := by
  induction cs with
  | nil => exact ⟨[], rfl⟩
  | cons c rest ih =>
      obtain ⟨⟨n, rfl⟩, hrest⟩ := List.forall_mem_cons.mp h
      obtain ⟨ns, rfl⟩ := ih hrest
      exact ⟨n :: ns, rfl⟩

theorem steps_names {segments : List String} (h : ".." ∉ segments) {c : Path.Component}
    (hc : c ∈ Path.steps segments) : ∃ n, c = .name n := by
  obtain ⟨segment, hmem, rfl⟩ := List.mem_map.mp hc
  have hdown : segment ≠ ".." := by
    rintro rfl
    exact h (List.mem_filter.mp hmem).1
  rw [Path.Component.ofSegment, if_neg hdown]
  exact ⟨segment, rfl⟩

/-- Where the includes are no patterns and do not go up, the searched directories lie below the
    base directory by names, or elsewhere. -/
theorem names_of_mem_starts (hbase : base.text ≠ "")
    (hplain : ∀ part ∈ s.includes, Glob.isPattern part = false ∧ ".." ∉ Text.split '/' part)
    (hp : p ∈ s.starts w base) :
    ∀ c ∈ p.components.drop base.components.length, ∃ n, c = .name n := by
  intro c hc
  have hlength : base.components.length ≠ 0 := by
    rw [Ne, List.length_eq_zero_iff, Path.components_eq_nil_iff]
    exact hbase
  rcases s.mem_starts_iff.mp hp with ⟨-, rfl⟩ | ⟨-, part, hpart, hp⟩
  · rw [List.drop_length] at hc
    cases hc
  · obtain ⟨hliteral, hdown⟩ := hplain part hpart
    rcases mem_expandInclude_iff.mp hp with ⟨hpattern, -⟩ | ⟨-, -, rfl⟩
    · rw [hliteral] at hpattern
      cases hpattern
    · cases habs : (Path.mk part).isAbsolute with
      | true =>
          rw [Path.join, if_pos habs, Path.components_eq ⟨part⟩, List.drop_append] at hc
          rcases List.mem_append.mp hc with hc | hc
          · have hone : (Path.mk part).anchor.components.length ≤ 1 := by
              cases (Path.mk part).anchor <;> decide
            rw [List.drop_eq_nil_of_le (by omega)] at hc
            cases hc
          · exact steps_names hdown (List.mem_of_mem_drop hc)
      | false =>
          rw [Path.components_join hbase habs, List.drop_left] at hc
          exact steps_names hdown hc

/-- **ONE NAME EACH**: where the includes are no patterns and do not go up, every source file
    has one name. -/
theorem apart_of_plain (hw : w.tree.Proper) (hbase : base.text ≠ "")
    (hplain : ∀ part ∈ s.includes, Glob.isPattern part = false ∧ ".." ∉ Text.split '/' part) :
    s.Apart w base := by
  have hnamed : ∀ name ∈ (s.collect w base).files, ∃ ns : List String,
      name = Path.slashed (ns.map Path.Component.name) ∧
        (base.join ⟨name⟩).components = base.components ++ ns.map Path.Component.name := by
    intro name hname
    obtain ⟨p, hp, hcomponents, hrelative, -⟩ := s.exists_of_mem_collect hname
    rw [Path.relativeText?_eq] at hrelative
    split at hrelative
    · next hfront =>
      have hnames : ∀ c ∈ p.components.drop base.components.length, ∃ n, c = .name n := by
        obtain ⟨start, hstart, hwalked⟩ := List.mem_flatMap.mp hp
        have hbelow := s.names_of_mem_starts hbase hplain hstart
        obtain ⟨-, rfl | hwalked⟩ := mem_walk_iff.mp hwalked
        · exact hbelow
        · obtain ⟨ns, -, -, hway⟩ := mem_below_iff.mp hwalked
          rw [hway.components hw, List.drop_append]
          intro c hc
          rcases List.mem_append.mp hc with hc | hc
          · exact hbelow c hc
          · obtain ⟨n, -, rfl⟩ := List.mem_map.mp (List.mem_of_mem_drop hc)
            exact ⟨n, rfl⟩
      obtain ⟨ns, hns⟩ := exists_names hnames
      rw [hns] at hrelative
      refine ⟨ns, (Option.some.inj hrelative).symm, ?_⟩
      rw [hcomponents, ← hns]
      exact (List.prefix_iff_eq_append.mp hfront).symm
    · cases hrelative
  intro m hm n hn l hml hnl
  obtain ⟨ms, hmname, hms⟩ := hnamed m hm
  obtain ⟨ns, hnname, hns⟩ := hnamed n hn
  -- both lead to the base directory and down by their names
  have hplaces := (locate_eq_place hml).symm.trans (locate_eq_place hnl)
  rw [hms, hns, Path.place_append, Path.place_append, Path.place_names, Path.place_names] at hplaces
  rw [hmname, hnname, List.append_cancel_left hplaces]

end Selection

end MessageKeys
