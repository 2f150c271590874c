import MessageKeys.Proofs.Migration.Undoing
import Mathlib.Data.List.Pairwise

/-! # Courses — file after file, each on its turn

    A suggestion takes its files one after the other: on its turn a file is found as it is
    then, and it is passed over or changed by a guarded write.  A `Course` is the list of
    these turns, from the workspace at the start to the one at the end, whatever decided what
    was written.

    If the files lead to different places, each is found as it was at the start, a changed
    one ends with the text that was written on its turn, and one that was passed over ends as
    it was (`Course.accounted`, `Accounted.passed`).  So a course can be told from its start
    alone, although every turn reads what the turns before it left. -/

namespace MessageKeys.Migration

open Workspace

variable {w v u : Workspace}

/-! ## Different files -/

/-- Paths that lead to different places; those that lead to no file are not names that a
    backup will get. -/
structure Distinct (w : Workspace) (files : List Path) : Prop where
  apart : files.Pairwise fun p q => ∀ l, w.locate p = .ok l → w.locate q ≠ .ok l
  unforeseen : ∀ p ∈ files, ∀ l, w.locate p = .ok l → w.tree.get? l = none →
    ∀ q ∈ files, ∀ c, Backup.Coming w q c → w.locate c ≠ .ok l

theorem Distinct.of_append {files more : List Path} (h : Distinct w (files ++ more)) :
    Distinct w files where
  apart := (List.pairwise_append.mp h.apart).1
  unforeseen p hp l hl hnone q hq :=
    h.unforeseen p (List.mem_append_left _ hp) l hl hnone q (List.mem_append_left _ hq)

/-- Nothing that happens to the files meanwhile brings two of the paths together. -/
theorem Distinct.of_keeps {files : List Path} (h : Distinct w files) (hk : Keeps w v) :
    Distinct v files where
  apart := by
    refine h.apart.imp ?_
    intro p q hpq l hp
    rw [Ne, locate_of_later hk.toLater]
    exact hpq l ((locate_of_later hk.toLater p l).mp hp)
  unforeseen := by
    intro p hp l hl hnone q hq c hc
    rw [Ne, locate_of_later hk.toLater]
    exact h.unforeseen p hp l ((locate_of_later hk.toLater p l).mp hl) (hk.absent hnone) q hq c
      (hc.of_later hk.toLater)

/-- Paths that lead somewhere are apart if they are located at different places. -/
theorem pairwise_apart {files : List Path}
    (h : files.Pairwise fun p q => (w.locate p).toOption ≠ (w.locate q).toOption) :
    files.Pairwise fun p q => ∀ l, w.locate p = .ok l → w.locate q ≠ .ok l := by
  refine h.imp ?_
  intro p q hne l hp hq
  rw [hp, hq] at hne
  exact hne rfl

/-- Files that are there are distinct as soon as they are in different places. -/
theorem Distinct.of_files {files : List Path} (hthere : ∀ p ∈ files, w.exists? p = true)
    (hapart : files.Pairwise fun p q => (w.locate p).toOption ≠ (w.locate q).toOption) :
    Distinct w files where
  apart := pairwise_apart hapart
  unforeseen := by
    intro p hp l hl hnone
    obtain ⟨l', hl', htaken⟩ := exists?_iff.mp (hthere p hp)
    rw [hl] at hl'
    cases hl'
    exact absurd hnone htaken

/-! ## Turns -/

/-- The turn of a file. -/
structure Turn where
  file : Path
  /-- The files as they were found. -/
  found : Workspace
  /-- The path of the copy and the text that was written, if the file was changed. -/
  change : Option (Path × String)

/-- The backup that was made on a turn. -/
def Turn.backup? (t : Turn) : Option Backup := t.change.map fun c => ⟨t.file, c.1⟩

/-- The backups that were made, in order. -/
def made (turns : List Turn) : List Backup := turns.filterMap Turn.backup?

theorem mem_made {turns : List Turn} {b : Backup} :
    b ∈ made turns ↔ ∃ t ∈ turns, ∃ text, t.change = some (b.copy, text) ∧ t.file = b.file := by
  rw [made, List.mem_filterMap]
  constructor
  · rintro ⟨t, ht, hb⟩
    obtain ⟨⟨copy, text⟩, hchange, rfl⟩ := Option.map_eq_some_iff.mp hb
    exact ⟨t, ht, text, hchange, rfl⟩
  · rintro ⟨t, ht, text, hchange, hfile⟩
    refine ⟨t, ht, ?_⟩
    rw [Turn.backup?, hchange, hfile]
    rfl

theorem made_append (turns more : List Turn) : made (turns ++ more) = made turns ++ made more :=
  List.filterMap_append

/-- Files were taken one after the other, from the first workspace to the second. -/
inductive Course (w : Workspace) : List Turn → Workspace → Prop where
  | start : Course w [] w
  | passed {turns : List Turn} {v : Workspace} (file : Path) : Course w turns v →
      Course w (turns ++ [⟨file, v, none⟩]) v
  | changed {turns : List Turn} {v u : Workspace} {file copy : Path} {text : String}
      {l c : Location} {bytes : ByteArray} : Course w turns v →
      GuardedWrite v u ⟨file, copy⟩ text l c bytes →
      Course w (turns ++ [⟨file, v, some (copy, text)⟩]) u

/-- Nothing goes missing on a course, and the backups it makes are new. -/
theorem Course.keeps {turns : List Turn} (h : Course w turns v) :
    Keeps w v ∧ ∀ b ∈ made turns, ∃ c, w.locate b.copy = .ok c ∧ w.tree.get? c = none := by
  induction h with
  | start => exact ⟨Keeps.refl w, fun _ hb => absurd hb List.not_mem_nil⟩
  | passed file _ ih =>
      rw [made_append]
      show _ ∧ ∀ b ∈ made _ ++ [], _
      rw [List.append_nil]
      exact ih
  | @changed _ v _ _ _ _ _ c _ _ hw ih =>
      obtain ⟨hkeeps, hfresh⟩ := ih
      refine ⟨hkeeps.trans hw.keeps, ?_⟩
      intro b hb
      rw [made_append] at hb
      rcases List.mem_append.mp hb with hb | hb
      · exact hfresh b hb
      · cases List.mem_singleton.mp hb
        exact ⟨c, (locate_of_later hkeeps.toLater _ _).mp hw.copy, hkeeps.absent hw.fresh⟩

/-! ## What a course amounts to -/

/-- The turns seen from the start: nothing but the changed files and their backups differs. -/
structure Accounted (w v : Workspace) (turns : List Turn) : Prop where
  undoable : Undoable w v (made turns) (made turns)
  found : ∀ t ∈ turns, Later w t.found ∧ SameAt w t.found t.file
  written : ∀ t ∈ turns, ∀ copy text, t.change = some (copy, text) →
    ∃ l bytes, w.locate t.file = .ok l ∧ w.tree.get? l = some (.file bytes false) ∧
      v.tree.get? l = some (.file text.toUTF8 false)

/-- A file that is not one of those written stands as it did; a backup is not taken for it. -/
theorem same_of_unwritten {files : List Path} (hd : Distinct w files) {bs : List Backup}
    (h : Undoable w v bs bs) (hbs : ∀ b ∈ bs, b.file ∈ files) {p : Path} (hp : p ∈ files)
    (hother : ∀ b ∈ bs, ∀ l, w.locate b.file = .ok l → w.locate p ≠ .ok l) :
    SameAt w v p := by
  intro l hl
  cases he : w.tree.get? l with
  | some e => exact h.kept l e he fun b hb hloc => hother b hb l hloc hl
  | none =>
      cases hv : v.tree.get? l with
      | none => rfl
      | some e =>
          obtain ⟨b, hb, hcopy⟩ := h.added l he (by rw [hv]; rintro ⟨⟩)
          exact absurd hcopy
            (hd.unforeseen p hp l hl he b.file (hbs b hb) b.copy (h.coming b hb))

theorem file_mem_of_made {turns : List Turn} {b : Backup} (hb : b ∈ made turns) :
    b.file ∈ turns.map Turn.file := by
  obtain ⟨t, ht, -, -, hfile⟩ := mem_made.mp hb
  exact hfile ▸ List.mem_map_of_mem ht

/-- A file whose turn comes next has not been touched. -/
theorem Accounted.next {turns : List Turn} {file : Path} (h : Accounted w v turns)
    (hd : Distinct w (turns.map Turn.file ++ [file])) : SameAt w v file := by
  have hapart := (List.pairwise_append.mp hd.apart).2.2
  refine same_of_unwritten hd h.undoable
    (fun b hb => List.mem_append_left _ (file_mem_of_made hb))
    (List.mem_append_right _ List.mem_cons_self) ?_
  intro b hb
  exact hapart b.file (file_mem_of_made hb) file List.mem_cons_self

theorem Accounted.start (w : Workspace) : Accounted w w [] where
  undoable := Undoable.refl w
  found := fun _ ht => absurd ht List.not_mem_nil
  written := fun _ ht => absurd ht List.not_mem_nil

/-- Passing a file over changes nothing. -/
theorem Accounted.pass {turns : List Turn} {file : Path} (h : Accounted w v turns)
    (hd : Distinct w (turns.map Turn.file ++ [file])) :
    Accounted w v (turns ++ [⟨file, v, none⟩]) where
  undoable := by
    rw [made_append]
    show Undoable w v (made turns ++ []) (made turns ++ [])
    rw [List.append_nil]
    exact h.undoable
  found := by
    intro t ht
    rcases List.mem_append.mp ht with ht | ht
    · exact h.found t ht
    · cases List.mem_singleton.mp ht
      exact ⟨h.undoable.keeps.toLater, h.next hd⟩
  written := by
    intro t ht copy text hchange
    rcases List.mem_append.mp ht with ht | ht
    · exact h.written t ht copy text hchange
    · cases List.mem_singleton.mp ht
      cases hchange

/-- Changing a file leaves the files of earlier turns alone. -/
theorem Accounted.change {turns : List Turn} {file copy : Path} {text : String}
    {l c : Location} {bytes : ByteArray} (h : Accounted w v turns)
    (hd : Distinct w (turns.map Turn.file ++ [file]))
    (hw : GuardedWrite v u ⟨file, copy⟩ text l c bytes) :
    Accounted w u (turns ++ [⟨file, v, some (copy, text)⟩]) := by
  have hlater := h.undoable.keeps.toLater
  have hfile : w.locate file = .ok l := (locate_of_later hlater _ _).mp hw.file
  have hheld : w.tree.get? l = some (.file bytes false) := by
    rw [← h.next hd l hfile, hw.held]
  have hapart := (List.pairwise_append.mp hd.apart).2.2
  refine ⟨?_, ?_, ?_⟩
  · rw [made_append]
    refine h.undoable.write hw ?_ ?_
    · rw [hheld]
      rintro ⟨⟩
    · intro b hb hloc
      exact hapart b.file (file_mem_of_made hb) file List.mem_cons_self l hloc hfile
  · intro t ht
    rcases List.mem_append.mp ht with ht | ht
    · exact h.found t ht
    · cases List.mem_singleton.mp ht
      exact ⟨hlater, h.next hd⟩
  · intro t ht copy' text' hchange
    rcases List.mem_append.mp ht with ht | ht
    · -- neither the file nor its copy is at the place of an earlier file
      obtain ⟨m, old, hm, hwas, hnow⟩ := h.written t ht copy' text' hchange
      have hlm : l ≠ m := by
        rintro rfl
        exact hapart t.file (List.mem_map_of_mem ht) file List.mem_cons_self l hm hfile
      exact ⟨m, old, hm, hwas, hw.get?_other hnow hlm⟩
    · cases List.mem_singleton.mp ht
      cases hchange
      exact ⟨l, bytes, hfile, hheld, hw.get?_file⟩

/-- **COURSES**: turns on different files do not disturb one another. -/
theorem Course.accounted {turns : List Turn} (h : Course w turns v)
    (hd : Distinct w (turns.map Turn.file)) : Accounted w v turns := by
  induction h with
  | start => exact Accounted.start w
  | passed file _ ih =>
      rw [List.map_append] at hd
      exact (ih hd.of_append).pass hd
  | changed _ hw ih =>
      rw [List.map_append] at hd
      exact (ih hd.of_append).change hd hw

/-- A file that was passed over ends as it was. -/
theorem Accounted.passed {turns : List Turn} (h : Accounted w v turns)
    (hd : Distinct w (turns.map Turn.file)) {t : Turn} (ht : t ∈ turns)
    (hchange : t.change = none) : SameAt w v t.file := by
  refine same_of_unwritten hd h.undoable (fun b hb => file_mem_of_made hb)
    (List.mem_map_of_mem ht) ?_
  intro b hb l hb' hl
  obtain ⟨t', ht', text, hchange', hfile⟩ := mem_made.mp hb
  have hne : t' ≠ t := by
    rintro rfl
    rw [hchange] at hchange'
    cases hchange'
  have hsymmetric : Std.Symm fun t t' : Turn =>
      ∀ l, w.locate t.file = .ok l → w.locate t'.file ≠ .ok l :=
    ⟨fun _ _ happart l hl hl' => happart l hl' hl⟩
  exact (List.pairwise_map.mp hd.apart).forall ht' ht hne l (hfile ▸ hb') hl

end MessageKeys.Migration
