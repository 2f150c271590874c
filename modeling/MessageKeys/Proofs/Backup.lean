import MessageKeys.Backup
import MessageKeys.Proofs.Place
import Std.Data.String.ToNat

/-! # Guarded writes — the copy is new and the file is the only one changed

    The names tried for a backup differ only in a number at their end, so they lead to
    different locations of one directory.  One more of them is tried than the tree has
    entries, hence one of them is free (`exists?_freshPath`): a backup never lands on
    something that is there.

    `writeWithBackup_ok` is all that later proofs need to know of a guarded write. -/

namespace MessageKeys

/-! ## Names of backups -/

namespace Text

/-- Text without a separator only makes the last piece longer. -/
theorem cut_append_of_not_mem (sep : Char) (cs : List Char) :
    ∃ init last, ∀ ds, sep ∉ ds → cut sep (cs ++ ds) = init ++ [last ++ ds] := by
  induction cs with
  | nil => exact ⟨[], [], fun ds h => cut_of_not_mem h⟩
  | cons c cs ih =>
      obtain ⟨init, last, hcut⟩ := ih
      -- the first character ends a piece, or it belongs to the first of the others
      by_cases hc : c = sep
      · refine ⟨[] :: init, last, ?_⟩
        intro ds h
        rw [List.cons_append, cut, if_pos hc, hcut ds h]
        rfl
      · cases init with
        | nil =>
            refine ⟨[], c :: last, ?_⟩
            intro ds h
            rw [List.cons_append, cut, if_neg hc, hcut ds h]
            rfl
        | cons s init =>
            refine ⟨(c :: s) :: init, last, ?_⟩
            intro ds h
            rw [List.cons_append, cut, if_neg hc, hcut ds h]
            rfl

theorem split_append_of_not_mem (sep : Char) (text : String) :
    ∃ init last, ∀ more : String, sep ∉ more.toList →
      split sep (text ++ more) = init ++ [last ++ more] := by
  obtain ⟨init, last, hcut⟩ := cut_append_of_not_mem sep text.toList
  refine ⟨init.map String.ofList, String.ofList last, ?_⟩
  intro more h
  rw [split, String.toList_append, hcut more.toList h, List.map_append, List.map_singleton,
    String.ofList_append, String.ofList_toList]

end Text

namespace Path

theorem isAbsolute_append (stem more : String) (h : '/' ∉ more.toList) :
    (Path.mk (stem ++ more)).isAbsolute = (Path.mk stem).isAbsolute := by
  rw [Bool.eq_iff_iff, isAbsolute_iff, isAbsolute_iff]
  show (∃ t, (stem ++ more).toList = '/' :: t) ↔ ∃ t, stem.toList = '/' :: t
  rw [String.toList_append]
  cases stem.toList with
  | nil =>
      constructor
      · rintro ⟨t, ht⟩
        rw [List.nil_append] at ht
        rw [ht] at h
        exact absurd List.mem_cons_self h
      · rintro ⟨t, ht⟩
        cases ht
  | cons c cs => simp

/-- A file name is a segment that means something. -/
theorem fileName?_spec {p : Path} {n : String} (h : p.fileName? = some n) :
    '/' ∉ n.toList ∧ n ≠ "" := by
  rw [fileName?] at h
  split at h
  · next m hm =>
    cases h
    have hmem : Component.name n ∈ p.components := List.mem_of_getLast? hm
    rcases List.mem_append.mp hmem with ha | hb
    · cases hanchor : p.anchor <;> rw [hanchor] at ha <;> simp [Anchor.components] at ha
    · obtain ⟨s, hs, hsn⟩ := List.mem_map.mp hb
      obtain ⟨hs, hv⟩ := List.mem_filter.mp hs
      rw [Component.ofSegment] at hsn
      split at hsn
      · cases hsn
      · cases hsn
        constructor
        · exact mem_body_slash hs
        · intro hempty
          rw [hempty] at hv
          exact absurd hv (by decide)
  · cases h

/-- A name that is no absolute path stands at the end of one fixed text. -/
theorem withFileName_text (p : Path) :
    ∃ base, ∀ name, (Path.mk name).isAbsolute = false →
      (p.withFileName name).text = base ++ name := by
  have hjoin : ∀ q : Path, ∃ base, ∀ name, (Path.mk name).isAbsolute = false →
      (q.join ⟨name⟩).text = base ++ name := by
    intro q
    by_cases hq : q.text = "" ∨ q.text.endsWith "/"
    · refine ⟨q.text, ?_⟩
      intro name hn
      rw [join, hn, if_neg Bool.false_ne_true, if_pos hq]
    · refine ⟨q.text ++ "/", ?_⟩
      intro name hn
      rw [join, hn, if_neg Bool.false_ne_true, if_neg hq]
  unfold withFileName
  cases p.fileName? with
  | none => exact hjoin p
  | some n =>
      cases p.parent? with
      | none => exact hjoin p
      | some parent => exact hjoin parent

end Path

namespace Workspace

/-- Paths that differ only in how their last name ends lead to one directory. -/
theorem locate_append (w : Workspace) (stem : String) :
    ∃ dir last, ∀ more l, '/' ∉ more.toList → 2 < more.length →
      w.locate ⟨stem ++ more⟩ = .ok l → l = dir ++ [last ++ more] := by
  obtain ⟨init, last, hsplit⟩ := Text.split_append_of_not_mem '/' stem
  let start := if (Path.mk stem).isAbsolute then [] else w.here
  refine ⟨(follow w.tree start init).toOption.getD [], last, ?_⟩
  intro more l hmore hlen h
  rw [locate] at h
  split at h
  · cases h
  · split at h
    · cases h
    · split at h
      · cases h
      · rw [Path.isAbsolute_append stem more hmore, hsplit more hmore, follow_append] at h
        change (follow w.tree start init).bind _ = _ at h
        cases hd : follow w.tree start init with
        | error fault => rw [hd] at h; cases h
        | ok d =>
            rw [hd] at h
            have hlen' : 2 < (last ++ more).length := by
              rw [String.length_append]
              omega
            refine follow_name ?_ ?_ h
            · rw [Path.isVoid]
              rw [Bool.or_eq_false_iff, decide_eq_false_iff_not, decide_eq_false_iff_not]
              constructor
              · intro he
                rw [he] at hlen'
                exact absurd hlen' (by decide)
              · intro he
                rw [he] at hlen'
                exact absurd hlen' (by decide)
            · intro he
              rw [he] at hlen'
              exact absurd hlen' (by decide)

end Workspace

namespace Backup

/-- The endings that tell the backups of one stamp apart: none, then numbers. -/
def marks (count : Nat) : List String :=
  "" :: (List.range count).map fun n => "-" ++ toString (n + 1)

theorem slash_not_mem_toString (n : Nat) : '/' ∉ (toString n).toList := by
  intro h
  have hdigits : '/' ∈ Nat.toDigits 10 n := by
    have htext : (toString n).toList = Nat.toDigits 10 n := String.toList_ofList
    rw [← htext]
    exact h
  exact absurd (Nat.isDigit_of_mem_toDigits (by decide) (by decide) hdigits) (by decide)

theorem slash_not_mem_marks {count : Nat} {mark : String} (h : mark ∈ marks count) :
    '/' ∉ mark.toList := by
  rcases List.mem_cons.mp h with rfl | h
  · exact List.not_mem_nil
  · obtain ⟨n, -, rfl⟩ := List.mem_map.mp h
    rw [String.toList_append, List.mem_append]
    rintro (h | h)
    · exact absurd h (by decide)
    · exact slash_not_mem_toString _ h

theorem marks_nodup (count : Nat) : (marks count).Nodup := by
  have hne : ∀ n : Nat, "-" ++ toString (n + 1) ≠ "" := by
    intro n he
    have := congrArg String.toList he
    rw [String.toList_append] at this
    cases this
  refine List.nodup_cons.mpr ⟨?_, ?_⟩
  · intro h
    obtain ⟨n, -, hn⟩ := List.mem_map.mp h
    exact hne n hn
  · refine List.Nodup.map ?_ List.nodup_range
    intro m n hmn
    have hrepr : Nat.repr (m + 1) = Nat.repr (n + 1) := (String.append_right_inj "-").mp hmn
    exact Nat.succ.inj (Nat.repr_inj.mp hrepr)

/-- The file name and what follows it never make an absolute path. -/
private theorem name_not_absolute (p : Path) (more : String) :
    (Path.mk ((p.fileName?.getD "") ++ "." ++ more)).isAbsolute = false := by
  cases h : (Path.mk ((p.fileName?.getD "") ++ "." ++ more)).isAbsolute with
  | false => rfl
  | true =>
      obtain ⟨t, ht⟩ := (Path.isAbsolute_iff _).mp h
      simp only [String.toList_append, List.append_assoc] at ht
      cases hn : p.fileName? with
      | none =>
          rw [hn] at ht
          exact absurd (List.cons.inj ht).1 (by decide)
      | some n =>
          rw [hn, Option.getD_some] at ht
          obtain ⟨hslash, hne⟩ := Path.fileName?_spec hn
          cases hcs : n.toList with
          | nil => exact absurd (String.toList_eq_nil_iff.mp hcs) hne
          | cons c cs =>
              rw [hcs] at ht hslash
              exact absurd ((List.cons.inj ht).1 ▸ List.mem_cons_self) hslash

/-- All names for one stamp share their beginning. -/
theorem candidates_eq (p : Path) (stamp : String) :
    ∃ stem, ∀ count, candidates p stamp count
      = (marks count).map fun mark => ⟨stem ++ (mark ++ ".bak")⟩ := by
  obtain ⟨base, hbase⟩ := Path.withFileName_text p
  have hpath : ∀ mark : String, pathFor p (stamp ++ mark)
      = ⟨base ++ ((p.fileName?.getD "") ++ "." ++ stamp) ++ (mark ++ ".bak")⟩ := by
    intro mark
    -- the mark stands behind the stamp in the file name, whatever comes before
    have hname : (p.fileName?.getD "") ++ "." ++ (stamp ++ mark) ++ ".bak"
        = (p.fileName?.getD "") ++ "." ++ (stamp ++ mark ++ ".bak") := by
      simp only [String.append_assoc]
    have htext := hbase _ (name_not_absolute p (stamp ++ mark ++ ".bak"))
    rw [pathFor]
    rw [hname]
    cases hq : p.withFileName ((p.fileName?.getD "") ++ "." ++ (stamp ++ mark ++ ".bak")) with
    | mk text =>
        rw [hq] at htext
        simp only [String.append_assoc] at htext ⊢
        rw [htext]
  refine ⟨base ++ ((p.fileName?.getD "") ++ "." ++ stamp), ?_⟩
  intro count
  unfold candidates marks
  rw [List.map_cons, List.map_map, ← hpath ""]
  refine congrArg₂ List.cons (by rw [String.append_empty]) (List.map_congr_left ?_)
  intro n _
  show pathFor p (stamp ++ "-" ++ toString (n + 1)) = _
  rw [String.append_assoc]
  exact hpath ("-" ++ toString (n + 1))

/-- The names for one stamp lead to one directory, where each has an ending of its own. -/
theorem locate_candidates (w : Workspace) (p : Path) (stamp : String) :
    ∃ (named : String → Path) (dir : Location) (last : String),
      (∀ count, candidates p stamp count = (marks count).map named) ∧
      ∀ count, ∀ mark ∈ marks count, ∀ l, w.locate (named mark) = .ok l →
        l = dir ++ [last ++ (mark ++ ".bak")] := by
  obtain ⟨stem, hstem⟩ := candidates_eq p stamp
  obtain ⟨dir, last, hloc⟩ := w.locate_append stem
  refine ⟨fun mark => ⟨stem ++ (mark ++ ".bak")⟩, dir, last, hstem, ?_⟩
  intro count mark hmark l hl
  refine hloc _ l ?_ ?_ hl
  · rw [String.toList_append, List.mem_append]
    rintro (h | h)
    · exact slash_not_mem_marks hmark h
    · exact absurd h (by decide)
  · rw [String.length_append]
    show 2 < mark.length + 4
    omega

/-! ## A new place for the copy -/

/-- **A FREE NAME**: with more names to try than entries in the tree, one of them is free. -/
theorem exists?_freshPath (w : Workspace) (p : Path) (stamp : String) :
    freshPath w p stamp ∈ candidates p stamp w.tree.height ∧
      w.exists? (freshPath w p stamp) = false := by
  obtain ⟨named, dir, last, hnames, hloc⟩ := locate_candidates w p stamp
  rw [freshPath]
  cases hf : (candidates p stamp w.tree.height).find? fun q => !w.exists? q with
  | some q =>
      have hq := List.find?_some hf
      exact ⟨List.mem_of_find?_eq_some hf, by simpa using hq⟩
  | none =>
      exfalso
      -- otherwise every name is taken, and they are at more locations than have an entry
      let place : String → Location := fun mark => dir ++ [last ++ (mark ++ ".bak")]
      have htaken : ∀ l ∈ (marks w.tree.height).map place, l ≠ [] ∧ w.tree.get? l ≠ none := by
        intro l hl
        obtain ⟨mark, hmark, rfl⟩ := List.mem_map.mp hl
        refine ⟨List.append_ne_nil_of_right_ne_nil _ (by simp), ?_⟩
        have hcand : named mark ∈ candidates p stamp w.tree.height := by
          rw [hnames]
          exact List.mem_map_of_mem hmark
        have hex : w.exists? (named mark) = true := by
          simpa using List.find?_eq_none.mp hf _ hcand
        obtain ⟨l, hp, hl⟩ := Workspace.exists?_iff.mp hex
        rwa [hloc _ mark hmark l hp] at hl
      have hnodup : ((marks w.tree.height).map place).Nodup := by
        refine List.Nodup.map ?_ (marks_nodup _)
        intro x y hxy
        have hlast := List.append_cancel_left hxy
        exact (String.append_left_inj _).mp
          ((String.append_right_inj _).mp (List.cons.inj hlast).1)
      have hlen := FileTree.length_le_entries hnodup htaken
      simp only [List.length_map, marks, List.length_cons, List.length_range,
        FileTree.height] at hlen
      omega

/-- The second path is a name that a backup of the first one may still get. -/
def Coming (w : Workspace) (p q : Path) : Prop :=
  ∃ n count, w.ticks ≤ n ∧ q ∈ candidates p (w.clock n) count

theorem Coming.of_later {w v : Workspace} (h : Workspace.Later w v) {p q : Path}
    (hq : Coming v p q) : Coming w p q := by
  obtain ⟨n, count, hn, hmem⟩ := hq
  refine ⟨n, count, Nat.le_trans h.ticks hn, ?_⟩
  rw [← h.clock]
  exact hmem

/-- Backups are told by the end of their names. -/
theorem Coming.location {w : Workspace} {p q : Path} (h : Coming w p q) {c : Location}
    (hc : w.locate q = .ok c) : ∃ dir stem, c = dir ++ [stem ++ ".bak"] := by
  obtain ⟨n, count, -, hmem⟩ := h
  obtain ⟨named, dir, last, hnames, hloc⟩ := locate_candidates w p (w.clock n)
  rw [hnames] at hmem
  obtain ⟨mark, hmark, rfl⟩ := List.mem_map.mp hmem
  refine ⟨dir, last ++ mark, ?_⟩
  rw [String.append_assoc]
  exact hloc count mark hmark c hc

/-- The second path is such a name, beside a file that the first one leads to. -/
def Beside (w : Workspace) (p q : Path) : Prop :=
  Coming w p q ∧ ∃ l, w.locate p = .ok l ∧ w.tree.get? l ≠ some .directory

theorem Beside.of_later {w v : Workspace} (h : Workspace.Later w v) {p q : Path}
    (hq : Beside v p q) : Beside w p q := by
  obtain ⟨hcoming, l, hl, hfile⟩ := hq
  exact ⟨hcoming.of_later h, l, (Workspace.locate_of_later h p l).mp hl,
    fun hd => hfile ((h.directory l).mpr hd)⟩

/-- The names tried for a stamp are names for that stamp and a mark. -/
theorem exists_mark_of_mem_candidates {p q : Path} {stamp : String} {count : Nat}
    (h : q ∈ candidates p stamp count) : ∃ mark ∈ marks count, q = pathFor p (stamp ++ mark) := by
  rcases List.mem_cons.mp h with rfl | h
  · exact ⟨"", List.mem_cons_self, by rw [String.append_empty]⟩
  · obtain ⟨n, hn, rfl⟩ := List.mem_map.mp h
    refine ⟨"-" ++ toString (n + 1), List.mem_cons_of_mem _ (List.mem_map_of_mem hn), ?_⟩
    show pathFor p (stamp ++ "-" ++ toString (n + 1)) = _
    rw [String.append_assoc]

/-- **SIBLINGS**: a backup is in the directory of its file, and its name is that of the file
    with a stamp and `.bak` behind it. -/
theorem Beside.sibling {w : Workspace} {p q : Path} (h : Beside w p q) (hw : w.tree.Proper)
    (hclock : ∀ n, '/' ∉ (w.clock n).toList) {c : Location} (hc : w.locate q = .ok c) :
    ∃ d name stamp, w.locate p = .ok (d ++ [name]) ∧ c = d ++ [name ++ "." ++ stamp ++ ".bak"] := by
  obtain ⟨⟨n, count, -, hmem⟩, l, hl, hfile⟩ := h
  obtain ⟨d, name, rfl, -, -, hname⟩ := Workspace.exists_fileName hw hl hfile
  obtain ⟨mark, hmark, rfl⟩ := exists_mark_of_mem_candidates hmem
  have hcopy : Path.IsName (name ++ "." ++ (w.clock n ++ mark) ++ ".bak") := by
    have hlen : 2 < (name ++ "." ++ (w.clock n ++ mark) ++ ".bak").length := by
      rw [String.length_append]
      show 2 < _ + 4
      omega
    refine ⟨?_, ?_, ?_⟩
    · rw [Path.isVoid]
      rw [Bool.or_eq_false_iff, decide_eq_false_iff_not, decide_eq_false_iff_not]
      refine ⟨fun he => ?_, fun he => ?_⟩
      · exact absurd (he ▸ hlen) (by decide)
      · exact absurd (he ▸ hlen) (by decide)
    · exact fun he => absurd (he ▸ hlen) (by decide)
    · simp only [String.toList_append, List.mem_append, not_or]
      exact ⟨⟨⟨(Path.fileName?_spec hname).1, by decide⟩, hclock n, slash_not_mem_marks hmark⟩,
        by decide⟩
  refine ⟨d, name, w.clock n ++ mark, hl, ?_⟩
  have hplace := Workspace.locate_eq_place hc
  rw [pathFor, hname, Option.getD_some, Path.components_withFileName hname hcopy,
    Path.place_name] at hplace
  -- the components before the name lead to the directory
  have hpath := Workspace.locate_eq_place hl
  rw [← List.dropLast_append_getLast? _ (Path.fileName?_eq_some_iff.mp hname), Path.place_name]
    at hpath
  rw [hplace, ← List.append_inj_left' hpath rfl]

end Backup

/-! ## Guarded writes -/

/-- A file was overwritten after its bytes were copied to a place where nothing was. -/
structure GuardedWrite (w v : Workspace) (b : Backup) (text : String) (l c : Location)
    (bytes : ByteArray) : Prop where
  file : w.locate b.file = .ok l
  copy : w.locate b.copy = .ok c
  coming : Backup.Coming w b.file b.copy
  held : w.tree.get? l = some (.file bytes false)
  fresh : w.tree.get? c = none
  later : Workspace.Later w v
  get? : ∀ m, v.tree.get? m
    = if l = m then some (.file text.toUTF8 false)
      else if c = m then some (.file bytes false) else w.tree.get? m

theorem GuardedWrite.keeps {w v : Workspace} {b : Backup} {text : String} {l c : Location}
    {bytes : ByteArray} (h : GuardedWrite w v b text l c bytes) : Workspace.Keeps w v where
  toLater := h.later
  present := by
    intro m hm
    rw [h.get?]
    split
    · rintro ⟨⟩
    · split
      · rintro ⟨⟩
      · exact hm

/-- The copy is not where the file is. -/
theorem GuardedWrite.apart {w v : Workspace} {b : Backup} {text : String} {l c : Location}
    {bytes : ByteArray} (h : GuardedWrite w v b text l c bytes) : l ≠ c := by
  rintro rfl
  have hheld := h.held
  rw [h.fresh] at hheld
  cases hheld

theorem GuardedWrite.get?_file {w v : Workspace} {b : Backup} {text : String} {l c : Location}
    {bytes : ByteArray} (h : GuardedWrite w v b text l c bytes) :
    v.tree.get? l = some (.file text.toUTF8 false) := by
  rw [h.get?, if_pos rfl]

theorem GuardedWrite.get?_copy {w v : Workspace} {b : Backup} {text : String} {l c : Location}
    {bytes : ByteArray} (h : GuardedWrite w v b text l c bytes) :
    v.tree.get? c = some (.file bytes false) := by
  rw [h.get?, if_neg h.apart, if_pos rfl]

/-- What stands at another place than the file stays; the copy is made where nothing stood. -/
theorem GuardedWrite.get?_other {w v : Workspace} {b : Backup} {text : String}
    {l c m : Location} {bytes : ByteArray} {e : Entry} (h : GuardedWrite w v b text l c bytes)
    (hm : w.tree.get? m = some e) (hlm : l ≠ m) : v.tree.get? m = some e := by
  have hcm : c ≠ m := by
    rintro rfl
    rw [h.fresh] at hm
    cases hm
  rw [h.get?, if_neg hlm, if_neg hcm, hm]

/-- What a guarded write left is read back. -/
theorem GuardedWrite.readText {w v : Workspace} {b : Backup} {text : String} {l c : Location}
    {bytes : ByteArray} (h : GuardedWrite w v b text l c bytes) :
    v.readText b.file = .ok text := by
  refine Workspace.readText_eq_ok.mpr ⟨text.toUTF8, false, Workspace.entry_eq_ok.mpr ⟨l, ?_, ?_⟩,
    Workspace.fromUTF8?_toUTF8 text⟩
  · exact (Workspace.locate_of_later h.later _ _).mpr h.file
  · exact h.get?_file

namespace Backup

/-- A backup is the file's bytes at a free place. -/
theorem create_ok {w v : Workspace} {p : Path} {b : Backup} (h : create w p = .ok (b, v)) :
    b.file = p ∧ Coming w p b.copy ∧ ∃ bytes readOnly c,
      w.entry p = .ok (.file bytes readOnly) ∧ w.locate b.copy = .ok c ∧
      w.tree.get? c = none ∧ Workspace.PutAt w.tick.2 v c bytes readOnly := by
  rw [create] at h
  change (w.tick.2.copy p (freshPath w.tick.2 p (w.clock w.ticks))).map _ = _ at h
  cases hcopy : w.tick.2.copy p (freshPath w.tick.2 p (w.clock w.ticks)) with
  | error fault => rw [hcopy] at h; cases h
  | ok u =>
      rw [hcopy] at h
      cases h
      obtain ⟨hmem, hnone⟩ := exists?_freshPath w.tick.2 p (w.clock w.ticks)
      obtain ⟨bytes, readOnly, c, he, hc, hput⟩ := Workspace.copy_ok hcopy
      have hfresh := Workspace.exists?_eq_false hnone hc
      rw [Workspace.entry_tick] at he
      rw [Workspace.locate_tick] at hc
      have hcoming : Coming w p (freshPath w.tick.2 p (w.clock w.ticks)) :=
        ⟨w.ticks, _, Nat.le_refl _, hmem⟩
      dsimp only
      exact ⟨rfl, hcoming, bytes, readOnly, c, he, hc, hfresh, hput⟩

end Backup

/-- **GUARDED WRITES**: a guarded write that happened had a writable file to copy, copied it
    to a new place and changed nothing but the two. -/
theorem writeWithBackup_ok {w v : Workspace} {p : Path} {text : String} {b : Backup}
    (h : writeWithBackup w p text = .ok (b, v)) :
    b.file = p ∧ ∃ l c bytes, GuardedWrite w v b text l c bytes := by
  rw [writeWithBackup] at h
  split at h
  · cases h
  · next hwritable =>
    cases hcreate : Backup.create w p with
    | error cause => rw [hcreate] at h; cases h
    | ok made =>
        obtain ⟨b', u⟩ := made
        rw [hcreate] at h
        dsimp only at h
        cases hwrite : u.writeText p text with
        | error cause => rw [hwrite] at h; cases h
        | ok v' =>
            rw [hwrite] at h
            cases h
            obtain ⟨rfl, hcoming, bytes, readOnly, c, he, hc, hfresh, hput⟩ :=
              Backup.create_ok hcreate
            have hro : readOnly = false := by
              rw [Workspace.isReadOnly] at hwritable
              rw [he] at hwritable
              simpa using hwritable
            subst hro
            obtain ⟨l, hl, hheld⟩ := Workspace.entry_eq_ok.mp he
            have hlater : Workspace.Later w u :=
              (Workspace.later_tick w).trans hput.later
            -- the copy did not land on the file, which still holds what was copied
            have hcl : c ≠ l := by
              intro hcl
              rw [hcl, hheld] at hfresh
              cases hfresh
            have hentry : u.entry b.file = .ok (.file bytes false) := by
              refine Workspace.entry_eq_ok.mpr
                ⟨l, (Workspace.locate_of_later hlater _ _).mpr hl, ?_⟩
              rw [hput.get?_other hcl]
              exact hheld
            obtain ⟨l', hl', -, hput'⟩ := Workspace.write_ok hentry hwrite
            rw [(Workspace.locate_of_later hlater _ _).mp hl'] at hl
            cases hl
            refine ⟨rfl, l, c, bytes, ?_⟩
            exact
              { file := (Workspace.locate_of_later hlater _ _).mp hl'
                copy := hc
                coming := hcoming
                held := hheld
                fresh := hfresh
                later := hlater.trans hput'.later
                get? := by
                  intro m
                  rw [hput'.get?, hput.get?]
                  rfl }

/-- **WHEN A GUARDED WRITE HAPPENS**: the file may be written and can be copied. -/
theorem exists_writeWithBackup_iff {w : Workspace} {p : Path} (text : String) :
    (∃ written, writeWithBackup w p text = .ok written) ↔
      w.isReadOnly p = false ∧ ∃ made, Backup.create w p = .ok made := by
  rw [writeWithBackup]
  cases hreadOnly : w.isReadOnly p with
  | true => simp
  | false =>
      rw [if_neg Bool.false_ne_true]
      cases hcreate : Backup.create w p with
      | error cause => simp
      | ok made =>
          obtain ⟨b, u⟩ := made
          refine iff_of_true ?_ ⟨rfl, _, rfl⟩
          obtain ⟨rfl, -, bytes, readOnly, c, he, -, -, hput⟩ := Backup.create_ok hcreate
          obtain ⟨l, hl, hheld⟩ := Workspace.entry_eq_ok.mp he
          have hlater : Workspace.Later w u := (Workspace.later_tick w).trans hput.later
          -- the file is still one after it was copied, so it can be written
          have hfree : u.tree.get? l ≠ some .directory := by
            rw [Ne, hlater.directory, hheld]
            rintro ⟨⟩
          dsimp only
          rw [Workspace.writeText, Workspace.write,
            Workspace.put_eq_ok ((Workspace.locate_of_later hlater _ _).mpr hl) hfree]
          exact ⟨_, rfl⟩

end MessageKeys
