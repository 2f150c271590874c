import MessageKeys.Workspace

/-! # Later workspaces — what operations on files leave as it was

    Only directories decide where a path leads, and no operation on files makes or removes a
    directory.  So every path keeps its location (`locate_of_later`), and an operation is
    described location by location: writing and copying put one file (`PutAt`), removing
    takes one away (`remove_cases`).  A workspace `Keeps` another one if no location that was
    taken became free, whatever stands there now. -/

namespace MessageKeys.Workspace

variable {w v u : Workspace}

/-! ## Following names -/

/-- The location one name further. -/
def enter (t : FileTree) (l : Location) (s : String) : Except FileFault Location :=
  match t.get? l with
  | none => .error .notFound
  | some (.file _ _) => .error .notDirectory
  | some .directory =>
    if Path.isVoid s then .ok l
    else if s = ".." then .ok l.dropLast
    else if maxNameSize < s.utf8ByteSize then .error .nameTooLong
    else .ok (l ++ [s])

/-- Following names one by one. -/
theorem follow_cons (t : FileTree) (l : Location) (s : String) (rest : List String) :
    follow t l (s :: rest) = (enter t l s).bind fun m => follow t m rest := by
  rw [follow, enter]
  cases t.get? l with
  | none => rfl
  | some e =>
      cases e with
      | file bytes readOnly => rfl
      | directory =>
          dsimp only
          repeat' split
          all_goals rfl

/-- Names in a row are followed in two goes; this is how a path and one below it are compared. -/
theorem follow_append (t : FileTree) (l : Location) (xs ys : List String) :
    follow t l (xs ++ ys) = (follow t l xs).bind fun m => follow t m ys := by
  induction xs generalizing l with
  | nil => rfl
  | cons s rest ih =>
      rw [List.cons_append, follow_cons, follow_cons]
      cases enter t l s with
      | error fault => rfl
      | ok m => exact ih m

/-- A proper name leads from a directory to the location of that name in it. -/
theorem follow_name {t : FileTree} {d l : Location} {s : String} (hv : Path.isVoid s = false)
    (hs : s ≠ "..") (h : follow t d [s] = .ok l) : l = d ++ [s] := by
  rw [follow_cons, enter] at h
  cases hd : t.get? d with
  | none => rw [hd] at h; cases h
  | some e =>
      rw [hd] at h
      cases e with
      | file bytes readOnly => cases h
      | directory =>
          dsimp only at h
          rw [hv, if_neg Bool.false_ne_true, if_neg hs] at h
          split at h
          · cases h
          · cases h
            rfl

/-! ## The same directories -/

/-- Operations on files lead from the first workspace to the second. -/
structure Later (w v : Workspace) : Prop where
  here : v.here = w.here
  clock : v.clock = w.clock
  ticks : w.ticks ≤ v.ticks
  directory : ∀ l, v.tree.get? l = some .directory ↔ w.tree.get? l = some .directory

theorem Later.refl (w : Workspace) : Later w w := ⟨rfl, rfl, Nat.le_refl _, fun _ => Iff.rfl⟩

theorem Later.trans (h : Later w v) (h' : Later v u) : Later w u where
  here := h'.here.trans h.here
  clock := h'.clock.trans h.clock
  ticks := Nat.le_trans h.ticks h'.ticks
  directory := fun l => (h'.directory l).trans (h.directory l)

/-- Operations on files lead from the first workspace to the second, and every location that
    was taken still is. -/
structure Keeps (w v : Workspace) : Prop extends Later w v where
  present : ∀ l, w.tree.get? l ≠ none → v.tree.get? l ≠ none

theorem Keeps.refl (w : Workspace) : Keeps w w := ⟨Later.refl w, fun _ => id⟩

theorem Keeps.trans (h : Keeps w v) (h' : Keeps v u) : Keeps w u :=
  ⟨h.toLater.trans h'.toLater, fun l hl => h'.present l (h.present l hl)⟩

/-- What is free afterwards was free before. -/
theorem Keeps.absent (h : Keeps w v) {l : Location} (hl : v.tree.get? l = none) :
    w.tree.get? l = none := by
  cases hw : w.tree.get? l with
  | none => rfl
  | some e => exact absurd hl (h.present l (by rw [hw]; rintro ⟨⟩))

/-- A file stays one. -/
theorem Keeps.file (h : Keeps w v) {l : Location} {bytes : ByteArray} {readOnly : Bool}
    (hl : w.tree.get? l = some (.file bytes readOnly)) :
    ∃ bytes' readOnly', v.tree.get? l = some (.file bytes' readOnly') := by
  cases hv : v.tree.get? l with
  | none => exact absurd hv (h.present l (by rw [hl]; rintro ⟨⟩))
  | some e =>
      cases e with
      | directory =>
          rw [(h.directory l).mp hv] at hl
          cases hl
      | file bytes' readOnly' => exact ⟨bytes', readOnly', rfl⟩

/-- A single step leads to the same location in a later workspace. -/
theorem enter_of_later (h : Later w v) (l m : Location) (s : String) :
    enter v.tree l s = .ok m ↔ enter w.tree l s = .ok m := by
  -- a step that leads somewhere starts in a directory, and these are the same in both trees
  have key : ∀ t : FileTree, enter t l s = .ok m → t.get? l = some .directory := by
    intro t ht
    rw [enter] at ht
    cases hl : t.get? l with
    | none => rw [hl] at ht; cases ht
    | some e =>
        cases e with
        | directory => rfl
        | file bytes readOnly => rw [hl] at ht; cases ht
  constructor
  · intro hv
    have hd := key v.tree hv
    rw [enter, hd] at hv
    rw [enter, (h.directory l).mp hd]
    exact hv
  · intro hw
    have hd := key w.tree hw
    rw [enter, hd] at hw
    rw [enter, (h.directory l).mpr hd]
    exact hw

/-- **DIRECTORIES LEAD THE WAY**: following names reads nothing of a tree but its
    directories. -/
theorem follow_of_later (h : Later w v) (ss : List String) (l m : Location) :
    follow v.tree l ss = .ok m ↔ follow w.tree l ss = .ok m := by
  induction ss generalizing l with
  | nil => exact Iff.rfl
  | cons s rest ih =>
      rw [follow_cons, follow_cons]
      -- the first name leads to one location in both trees, or nowhere in either
      cases hv : enter v.tree l s with
      | ok k =>
          rw [(enter_of_later h l k s).mp hv]
          exact ih k
      | error fault =>
          cases hw : enter w.tree l s with
          | ok k =>
              rw [(enter_of_later h l k s).mpr hw] at hv
              cases hv
          | error fault' => exact ⟨(by rintro ⟨⟩), (by rintro ⟨⟩)⟩

/-- So does a whole path. -/
theorem locate_of_later (h : Later w v) (p : Path) (l : Location) :
    v.locate p = .ok l ↔ w.locate p = .ok l := by
  rw [locate, locate]
  split
  · exact Iff.rfl
  · split
    · exact Iff.rfl
    · split
      · exact Iff.rfl
      · rw [h.here]
        exact follow_of_later h _ _ l

/-- Reading the clock is no operation on files at all. -/
theorem later_tick (w : Workspace) : Later w w.tick.2 :=
  ⟨rfl, rfl, Nat.le_succ w.ticks, fun _ => Iff.rfl⟩

theorem locate_tick (w : Workspace) (p : Path) : w.tick.2.locate p = w.locate p := rfl

theorem entry_tick (w : Workspace) (p : Path) : w.tick.2.entry p = w.entry p := rfl

/-! ## Putting a file -/

/-- The root is a directory. -/
theorem ne_nil_of_free {t : FileTree} {l : Location} (h : t.get? l ≠ some .directory) :
    l ≠ [] := by
  intro hnil
  subst hnil
  exact h rfl

/-- A file was put at a location, and nothing else happened. -/
structure PutAt (w v : Workspace) (l : Location) (bytes : ByteArray) (readOnly : Bool) :
    Prop where
  here : v.here = w.here
  clock : v.clock = w.clock
  ticks : v.ticks = w.ticks
  free : w.tree.get? l ≠ some .directory
  get? : ∀ m, v.tree.get? m = if l = m then some (.file bytes readOnly) else w.tree.get? m

variable {l : Location} {bytes : ByteArray} {readOnly : Bool} {p : Path}

/-- A file just put is there. -/
theorem PutAt.get?_self (h : PutAt w v l bytes readOnly) :
    v.tree.get? l = some (.file bytes readOnly) := by
  rw [h.get?, if_pos rfl]

/-- Nothing changes at any other location. -/
theorem PutAt.get?_other (h : PutAt w v l bytes readOnly) {m : Location} (hm : l ≠ m) :
    v.tree.get? m = w.tree.get? m := by
  rw [h.get?, if_neg hm]

theorem PutAt.later (h : PutAt w v l bytes readOnly) : Later w v where
  here := h.here
  clock := h.clock
  ticks := Nat.le_of_eq h.ticks.symm
  directory := by
    intro m
    by_cases hm : l = m
    · subst hm
      rw [h.get?_self]
      exact ⟨(by rintro ⟨⟩), fun hd => absurd hd h.free⟩
    · rw [h.get?_other hm]

/-- A path has an entry if it leads to a location where something stands. -/
theorem entry_eq_ok {e : Entry} :
    w.entry p = .ok e ↔ ∃ l, w.locate p = .ok l ∧ w.tree.get? l = some e := by
  rw [entry]
  cases w.locate p with
  | error fault => simp
  | ok l =>
      cases hl : w.tree.get? l with
      | none => simp [hl]
      | some f => simp [hl]

/-- Where something is put, no directory stands. -/
theorem put_ok {e : Option Entry → Entry} (h : w.put p e = .ok v) :
    ∃ l, w.locate p = .ok l ∧ w.tree.get? l ≠ some .directory ∧
      v = { w with tree := w.tree.set l (e (w.tree.get? l)) } := by
  rw [put] at h
  cases hp : w.locate p with
  | error fault => rw [hp] at h; cases h
  | ok l =>
      rw [hp] at h
      refine ⟨l, rfl, ?_⟩
      dsimp only at h
      split at h
      · cases h
      · next hd =>
        cases h
        exact ⟨hd, rfl⟩

/-- Putting succeeds wherever no directory stands. -/
theorem put_eq_ok {e : Option Entry → Entry} (hp : w.locate p = .ok l)
    (hl : w.tree.get? l ≠ some .directory) :
    w.put p e = .ok { w with tree := w.tree.set l (e (w.tree.get? l)) } := by
  rw [put]
  rw [hp]
  dsimp only
  split
  · next hd => exact absurd hd hl
  · rfl

/-- Setting a location that is no directory to a file puts that file. -/
theorem putAt_set (hl : w.tree.get? l ≠ some .directory) {e : Entry}
    (he : e = .file bytes readOnly) :
    PutAt w { w with tree := w.tree.set l e } l bytes readOnly where
  here := rfl
  clock := rfl
  ticks := rfl
  free := hl
  get? := by
    intro m
    rw [FileTree.get?_set w.tree (ne_nil_of_free hl) m e, he]

/-- Writing to a file puts the new bytes where it is and leaves who may write it. -/
theorem write_ok {old : ByteArray} (hf : w.entry p = .ok (.file old readOnly))
    (h : w.write p bytes = .ok v) :
    ∃ l, w.locate p = .ok l ∧ w.tree.get? l = some (.file old readOnly) ∧
      PutAt w v l bytes readOnly := by
  obtain ⟨l, hp, hl⟩ := entry_eq_ok.mp hf
  obtain ⟨l', hp', hd, rfl⟩ := put_ok h
  rw [hp] at hp'
  cases hp'
  refine ⟨l, hp, hl, putAt_set hd ?_⟩
  rw [hl]

/-- Copying puts the bytes of a file at the location of the target. -/
theorem copy_ok {q : Path} (h : w.copy p q = .ok v) :
    ∃ bytes readOnly l, w.entry p = .ok (.file bytes readOnly) ∧ w.locate q = .ok l ∧
      PutAt w v l bytes readOnly := by
  rw [copy] at h
  cases hp : w.entry p with
  | error fault => rw [hp] at h; cases h
  | ok e =>
      rw [hp] at h
      cases e with
      | directory => cases h
      | file bytes readOnly =>
          obtain ⟨l, hq, hd, rfl⟩ := put_ok h
          exact ⟨bytes, readOnly, l, rfl, hq, putAt_set hd rfl⟩

/-- Copying a file succeeds wherever no directory stands. -/
theorem copy_eq_ok {q : Path} (hp : w.entry p = .ok (.file bytes readOnly))
    (hq : w.locate q = .ok l) (hl : w.tree.get? l ≠ some .directory) :
    ∃ v, w.copy p q = .ok v ∧ PutAt w v l bytes readOnly := by
  refine ⟨_, ?_, putAt_set hl rfl⟩
  rw [copy]
  rw [hp]
  exact put_eq_ok hq hl

/-! ## Removing a file -/

/-- Removing changes nothing, or takes the file at the location of the path away. -/
theorem remove_cases (w : Workspace) (p : Path) :
    w.remove p = w ∨ ∃ l, w.locate p = .ok l ∧ w.tree.get? l ≠ some .directory ∧
      w.remove p = { w with tree := w.tree.erase l } := by
  rw [remove]
  cases hp : w.locate p with
  | error fault => exact Or.inl rfl
  | ok l =>
      dsimp only
      split
      · next bytes readOnly hl =>
        refine Or.inr ⟨l, rfl, ?_, rfl⟩
        rw [hl]
        rintro ⟨⟩
      · exact Or.inl rfl

/-- Removing a file leaves what stands elsewhere. -/
theorem remove_get? {m : Location} (h : w.locate p ≠ .ok m) :
    (w.remove p).tree.get? m = w.tree.get? m := by
  rcases remove_cases w p with hr | ⟨l, hl, hd, hr⟩
  · rw [hr]
  · have hm : l ≠ m := fun e => h (e ▸ hl)
    rw [hr]
    show (w.tree.erase l).get? m = w.tree.get? m
    rw [FileTree.get?_erase w.tree (ne_nil_of_free hd) m, if_neg hm]

/-- What was free stays free. -/
theorem remove_get?_none {m : Location} (h : w.tree.get? m = none) :
    (w.remove p).tree.get? m = none := by
  rcases remove_cases w p with hr | ⟨l, -, hd, hr⟩
  · rw [hr, h]
  · rw [hr]
    show (w.tree.erase l).get? m = none
    rw [FileTree.get?_erase w.tree (ne_nil_of_free hd) m, h, ite_self]

/-- Where the path leads to no directory, nothing is left. -/
theorem remove_get?_self {m : Location} (hp : w.locate p = .ok m)
    (hm : w.tree.get? m ≠ some .directory) : (w.remove p).tree.get? m = none := by
  cases he : w.tree.get? m with
  | none => exact remove_get?_none he
  | some e =>
      cases e with
      | directory => exact absurd he hm
      | file bytes readOnly =>
          have herase : w.remove p = { w with tree := w.tree.erase m } := by
            rw [remove, hp]
            dsimp only
            rw [he]
          rw [herase]
          show (w.tree.erase m).get? m = none
          rw [FileTree.get?_erase w.tree (ne_nil_of_free hm) m, if_pos rfl]

theorem later_remove (w : Workspace) (p : Path) : Later w (w.remove p) := by
  rcases remove_cases w p with hr | ⟨l, hl, hd, hr⟩
  · rw [hr]
    exact Later.refl w
  · rw [hr]
    refine ⟨rfl, rfl, Nat.le_refl _, ?_⟩
    intro m
    show (w.tree.erase l).get? m = some .directory ↔ w.tree.get? m = some .directory
    rw [FileTree.get?_erase w.tree (ne_nil_of_free hd) m]
    by_cases hm : l = m
    · subst hm
      rw [if_pos rfl]
      exact ⟨(by rintro ⟨⟩), fun h => absurd h hd⟩
    · rw [if_neg hm]

/-! ## Reading a file -/

/-- A text is read back from its bytes. -/
theorem fromUTF8?_toUTF8 (text : String) : String.fromUTF8? text.toUTF8 = some text := by
  have hvalid : text.toUTF8.IsValidUTF8 := text.isValidUTF8
  rw [String.fromUTF8?, dif_pos hvalid]
  rfl

/-- A path reads as a text if its file is that text in UTF-8. -/
theorem readText_eq_ok {text : String} :
    w.readText p = .ok text ↔
      ∃ bytes readOnly, w.entry p = .ok (.file bytes readOnly) ∧
        String.fromUTF8? bytes = some text := by
  rw [readText, readBytes]
  cases w.entry p with
  | error fault => simp
  | ok e =>
      cases e with
      | directory => simp
      | file bytes readOnly =>
          dsimp only
          cases hdecoded : String.fromUTF8? bytes with
          | none => simp [hdecoded]
          | some decoded => simp [hdecoded]

/-- Only a file is ever read-only, and a missing one is not. -/
theorem isReadOnly_eq_true :
    w.isReadOnly p = true ↔ ∃ bytes, w.entry p = .ok (.file bytes true) := by
  rw [isReadOnly]
  cases w.entry p with
  | error fault => simp
  | ok e =>
      cases e with
      | directory => simp
      | file bytes readOnly => simp

theorem isFile_eq_true : w.isFile p = true ↔
    ∃ l bytes readOnly, w.locate p = .ok l ∧ w.tree.get? l = some (.file bytes readOnly) := by
  have hentry : w.isFile p = true ↔ ∃ bytes readOnly, w.entry p = .ok (.file bytes readOnly) := by
    rw [isFile]
    cases w.entry p with
    | error fault => simp
    | ok e => cases e <;> simp
  rw [hentry]
  constructor
  · rintro ⟨bytes, readOnly, hfile⟩
    obtain ⟨l, hl, hheld⟩ := entry_eq_ok.mp hfile
    exact ⟨l, bytes, readOnly, hl, hheld⟩
  · rintro ⟨l, bytes, readOnly, hl, hheld⟩
    exact ⟨bytes, readOnly, entry_eq_ok.mpr ⟨l, hl, hheld⟩⟩

theorem isDirectory_eq_true :
    w.isDirectory p = true ↔ ∃ l, w.locate p = .ok l ∧ w.tree.get? l = some .directory := by
  rw [← entry_eq_ok, isDirectory]
  cases w.entry p with
  | error fault => simp
  | ok e => cases e <;> simp

/-- A path exists if anything stands where it leads, file or directory. -/
theorem exists?_iff :
    w.exists? p = true ↔ ∃ l, w.locate p = .ok l ∧ w.tree.get? l ≠ none := by
  have hok : w.exists? p = true ↔ ∃ e, w.entry p = .ok e := by
    rw [exists?]
    cases w.entry p with
    | error fault => exact iff_of_false Bool.false_ne_true (by rintro ⟨e, he⟩; cases he)
    | ok e => exact iff_of_true rfl ⟨e, rfl⟩
  rw [hok]
  simp only [entry_eq_ok, Option.ne_none_iff_exists']
  constructor
  · rintro ⟨e, l, hl, he⟩
    exact ⟨l, hl, e, he⟩
  · rintro ⟨l, hl, e, he⟩
    exact ⟨e, l, hl, he⟩

theorem exists?_of_isDirectory (h : w.isDirectory p = true) : w.exists? p = true := by
  obtain ⟨l, hl, hd⟩ := isDirectory_eq_true.mp h
  exact exists?_iff.mpr ⟨l, hl, by rw [hd]; rintro ⟨⟩⟩

theorem exists?_of_isFile (h : w.isFile p = true) : w.exists? p = true := by
  obtain ⟨l, bytes, readOnly, hl, hheld⟩ := isFile_eq_true.mp h
  exact exists?_iff.mpr ⟨l, hl, by rw [hheld]; rintro ⟨⟩⟩

/-- A path that leads to a location and does not exist leads to a free one. -/
theorem exists?_eq_false (h : w.exists? p = false) (hl : w.locate p = .ok l) :
    w.tree.get? l = none := by
  refine Classical.byContradiction fun htaken => ?_
  rw [exists?_iff.mpr ⟨l, hl, htaken⟩] at h
  cases h

/-! ## Places that stay as they are -/

/-- What stands at the place of the path is what stood there. -/
def SameAt (w v : Workspace) (p : Path) : Prop :=
  ∀ l, w.locate p = .ok l → v.tree.get? l = w.tree.get? l

/-- An entry left as it was twice was left as it was. -/
theorem SameAt.trans (hlater : Later w v) (h : SameAt w v p) (h' : SameAt v u p) :
    SameAt w u p := by
  intro l hl
  rw [h' l ((locate_of_later hlater p l).mpr hl), h l hl]

/-- The same entry is found before and after. -/
theorem SameAt.entry (hlater : Later w v) (h : SameAt w v p) {e : Entry} :
    v.entry p = .ok e ↔ w.entry p = .ok e := by
  rw [entry_eq_ok, entry_eq_ok]
  constructor
  · rintro ⟨l, hl, he⟩
    have hl' := (locate_of_later hlater p l).mp hl
    exact ⟨l, hl', by rw [← h l hl', he]⟩
  · rintro ⟨l, hl, he⟩
    exact ⟨l, (locate_of_later hlater p l).mpr hl, by rw [h l hl, he]⟩

/-- The same text is read before and after. -/
theorem SameAt.readText (hlater : Later w v) (h : SameAt w v p) {text : String} :
    v.readText p = .ok text ↔ w.readText p = .ok text := by
  rw [readText_eq_ok, readText_eq_ok]
  simp only [h.entry hlater]

theorem SameAt.isReadOnly (hlater : Later w v) (h : SameAt w v p) :
    v.isReadOnly p = w.isReadOnly p := by
  rw [Bool.eq_iff_iff, isReadOnly_eq_true, isReadOnly_eq_true]
  simp only [h.entry hlater]

end MessageKeys.Workspace
