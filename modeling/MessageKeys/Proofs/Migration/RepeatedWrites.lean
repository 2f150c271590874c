import MessageKeys.Proofs.Catalog.File
import MessageKeys.Proofs.Migration.Undoing

/-! # Repeated writes — what undoing gives back to a file that was written more than once

    Each backup holds what its file held right before it was written.  Undoing restores the
    backups in the order of their writes, so the last backup of a file decides what the file
    ends with, and that is what the writes before the last one had left in it.

    No copy is overwritten while the backups are restored: a copy is made where nothing was, so
    the files written before it are elsewhere (`Restorable`).  It may have been overwritten
    earlier, by a write of the sequence that leads to it. -/

namespace MessageKeys.Migration

open Workspace

variable {w v u : Workspace} {writes before after : List (Path × String)} {bs : List Backup}
  {b : Backup} {l c m : Location}

/-! ## Restoring backups in order -/

/-- The backups can be restored in their order: each copy is there, and it is no file of an
    earlier backup. -/
structure Restorable (w : Workspace) (bs : List Backup) : Prop where
  placed : ∀ b ∈ bs, ∃ l c bytes readOnly, w.locate b.file = .ok l ∧ w.locate b.copy = .ok c ∧
    w.tree.get? l ≠ some .directory ∧ w.tree.get? c = some (.file bytes readOnly)
  ordered : bs.Pairwise fun b b' => ∀ l, w.locate b.file = .ok l → w.locate b'.copy ≠ .ok l

/-- Restoring the first backup puts what its copy holds in the place of its file, and the others
    can still be restored. -/
theorem Restorable.first (h : Restorable w (b :: bs)) (hl : w.locate b.file = .ok l)
    (hc : w.locate b.copy = .ok c) :
    Later w (b.restoreIfPossible w) ∧ Restorable (b.restoreIfPossible w) bs ∧
      ∀ m, (b.restoreIfPossible w).tree.get? m
        = if l = m then w.tree.get? c else w.tree.get? m := by
  obtain ⟨hfirst, hordered⟩ := List.pairwise_cons.mp h.ordered
  obtain ⟨l', c', bytes, readOnly, hl', hc', hfree, hheld⟩ := h.placed b List.mem_cons_self
  obtain rfl := Except.ok.inj (hl.symm.trans hl')
  obtain rfl := Except.ok.inj (hc.symm.trans hc')
  have hput := putAt_restoreIfPossible hl hc hfree hheld
  have hloc := locate_of_later hput.later
  refine ⟨hput.later, ⟨?_, ?_⟩, fun m => by rw [hput.get?, hheld]⟩
  · intro b' hb'
    obtain ⟨l', c', bytes', readOnly', hl', hc', hfree', hheld'⟩ :=
      h.placed b' (List.mem_cons_of_mem b hb')
    refine ⟨l', c', bytes', readOnly', (hloc _ _).mpr hl', (hloc _ _).mpr hc', ?_, ?_⟩
    · rw [Ne, hput.later.directory]
      exact hfree'
    · -- what was restored is not the copy of a later backup
      rw [hput.get?_other fun he => hfirst b' hb' l hl (he ▸ hc'), hheld']
  · refine hordered.imp ?_
    intro b' b'' hapart m hm
    rw [Ne, hloc]
    exact hapart m ((hloc _ _).mp hm)

theorem restoreAll_get?_other (h : Restorable w bs) (hm : ∀ b ∈ bs, w.locate b.file ≠ .ok m) :
    (bs.foldl (fun w b => b.restoreIfPossible w) w).tree.get? m = w.tree.get? m := by
  induction bs generalizing w with
  | nil => rfl
  | cons b bs ih =>
      obtain ⟨hb, hrest⟩ := List.forall_mem_cons.mp hm
      obtain ⟨l, c, -, -, hl, hc, -⟩ := h.placed b List.mem_cons_self
      obtain ⟨hlater, hrestorable, hget⟩ := h.first hl hc
      have hlm : l ≠ m := fun he => hb (he ▸ hl)
      rw [List.foldl_cons, ih hrestorable, hget, if_neg hlm]
      intro b' hb'
      rw [Ne, locate_of_later hlater]
      exact hrest b' hb'

/-- **THE LAST BACKUP DECIDES**: a file ends with what its last backup holds. -/
theorem restoreAll_get?_last {made more : List Backup} (h : Restorable w (made ++ b :: more))
    (hl : w.locate b.file = .ok l) (hc : w.locate b.copy = .ok c)
    (hlast : ∀ b' ∈ more, w.locate b'.file ≠ .ok l) :
    ((made ++ b :: more).foldl (fun w b => b.restoreIfPossible w) w).tree.get? l
      = w.tree.get? c := by
  induction made generalizing w with
  | nil =>
      obtain ⟨hlater, hrestorable, hget⟩ := h.first hl hc
      rw [List.nil_append, List.foldl_cons, restoreAll_get?_other hrestorable, hget, if_pos rfl]
      intro b' hb'
      rw [Ne, locate_of_later hlater]
      exact hlast b' hb'
  | cons first made ih =>
      obtain ⟨l', c', -, -, hl', hc', -⟩ := h.placed first List.mem_cons_self
      obtain ⟨hlater, hrestorable, hget⟩ := h.first hl' hc'
      have hloc := locate_of_later hlater
      have hne : l' ≠ c := by
        intro he
        have hordered := (List.pairwise_cons.mp h.ordered).1
        exact hordered b (List.mem_append_right _ List.mem_cons_self) l' hl' (he ▸ hc)
      rw [List.cons_append, List.foldl_cons,
        ih hrestorable ((hloc _ _).mpr hl) ((hloc _ _).mpr hc), hget, if_neg hne]
      intro b' hb'
      rw [Ne, hloc]
      exact hlast b' hb'

/-! ## Sequences of guarded writes -/

/-- Writes texts to files one after the other, each under a backup, and collects the backups. -/
def writeAll (w : Workspace) :
    List (Path × String) → Except WriteFault (List Backup × Workspace)
  | [] => .ok ([], w)
  | (p, text) :: rest =>
    match writeWithBackup w p text with
    | .error fault => .error fault
    | .ok (b, v) =>
      match writeAll v rest with
      | .error fault => .error fault
      | .ok (bs, u) => .ok (b :: bs, u)

theorem writeAll_cons_eq_ok {p : Path} {text : String} :
    writeAll w ((p, text) :: writes) = .ok (bs, u) ↔ ∃ b v made, bs = b :: made ∧
      writeWithBackup w p text = .ok (b, v) ∧ writeAll v writes = .ok (made, u) := by
  rw [writeAll]
  cases hwrite : writeWithBackup w p text with
  | error fault => simp
  | ok written =>
      obtain ⟨b, v⟩ := written
      dsimp only
      cases hrest : writeAll v writes with
      | error fault => simp [hrest]
      | ok made => simp [hrest, Prod.ext_iff, eq_comm]

/-- The first write is a guarded one, and the others go on from it. -/
theorem writeAll_cons {p : Path} {text : String}
    (h : writeAll w ((p, text) :: writes) = .ok (bs, u)) :
    ∃ b made v l c bytes, bs = b :: made ∧ b.file = p ∧ GuardedWrite w v b text l c bytes ∧
      writeAll v writes = .ok (made, u) := by
  obtain ⟨b, v, made, hbs, hwrite, hrest⟩ := writeAll_cons_eq_ok.mp h
  obtain ⟨hfile, l, c, bytes, hguarded⟩ := writeWithBackup_ok hwrite
  exact ⟨b, made, v, l, c, bytes, hbs, hfile, hguarded, hrest⟩

theorem writeAll_files (h : writeAll w writes = .ok (bs, v)) :
    bs.map Backup.file = writes.map Prod.fst := by
  induction writes generalizing w bs with
  | nil =>
      cases h
      rfl
  | cons first writes ih =>
      obtain ⟨p, text⟩ := first
      obtain ⟨b, made, u, l, c, bytes, rfl, rfl, -, hrest⟩ := writeAll_cons h
      rw [List.map_cons, List.map_cons, ih hrest]

/-- Writes can be made in two goes. -/
theorem writeAll_append_eq_ok : writeAll w (before ++ after) = .ok (bs, u) ↔
    ∃ made more v, bs = made ++ more ∧
      writeAll w before = .ok (made, v) ∧ writeAll v after = .ok (more, u) := by
  induction before generalizing w bs with
  | nil =>
      constructor
      · exact fun h => ⟨[], bs, w, rfl, rfl, h⟩
      · rintro ⟨made, more, v, rfl, hnil, h⟩
        cases hnil
        exact h
  | cons first before ih =>
      obtain ⟨p, text⟩ := first
      rw [List.cons_append, writeAll_cons_eq_ok]
      constructor
      · rintro ⟨b, v, made, rfl, hwrite, hrest⟩
        obtain ⟨made, more, v', rfl, hbefore, hafter⟩ := ih.mp hrest
        exact ⟨b :: made, more, v', rfl, writeAll_cons_eq_ok.mpr ⟨b, v, made, rfl, hwrite, hbefore⟩,
          hafter⟩
      · rintro ⟨made, more, v', rfl, hbefore, hafter⟩
        obtain ⟨b, v, made, rfl, hwrite, hrest⟩ := writeAll_cons_eq_ok.mp hbefore
        exact ⟨b, v, made ++ more, rfl, hwrite, ih.mpr ⟨made, more, v', rfl, hrest, hafter⟩⟩

/-- Writes keep what is there, and their copies are made where nothing was. -/
theorem writeAll_keeps (h : writeAll w writes = .ok (bs, v)) :
    Keeps w v ∧ ∀ b ∈ bs, ∃ c, w.locate b.copy = .ok c ∧ w.tree.get? c = none := by
  induction writes generalizing w bs with
  | nil =>
      cases h
      exact ⟨Keeps.refl _, fun _ hb => absurd hb List.not_mem_nil⟩
  | cons first writes ih =>
      obtain ⟨b, made, u, l, c, bytes, rfl, -, hguarded, hrest⟩ := writeAll_cons h
      obtain ⟨hkeeps, hfresh⟩ := ih hrest
      refine ⟨hguarded.keeps.trans hkeeps, List.forall_mem_cons.mpr ⟨?_, ?_⟩⟩
      · exact ⟨c, hguarded.copy, hguarded.fresh⟩
      · intro b' hb'
        obtain ⟨c', hc', hnone⟩ := hfresh b' hb'
        exact ⟨c', (locate_of_later hguarded.later _ _).mp hc', hguarded.keeps.absent hnone⟩

/-- The backups of a sequence of writes can be restored in its order. -/
theorem writeAll_restorable (h : writeAll w writes = .ok (bs, v)) : Restorable v bs := by
  induction writes generalizing w bs with
  | nil =>
      cases h
      exact ⟨fun _ hb => absurd hb List.not_mem_nil, List.Pairwise.nil⟩
  | cons first writes ih =>
      obtain ⟨b, made, u, l, c, bytes, rfl, -, hguarded, hrest⟩ := writeAll_cons h
      obtain ⟨hkeeps, hfresh⟩ := writeAll_keeps hrest
      have hlater := hguarded.later.trans hkeeps.toLater
      have hl := (locate_of_later hlater _ _).mpr hguarded.file
      refine ⟨List.forall_mem_cons.mpr ⟨?_, (ih hrest).placed⟩,
        List.pairwise_cons.mpr ⟨?_, (ih hrest).ordered⟩⟩
      · obtain ⟨held, readOnly, hheld⟩ := hkeeps.file hguarded.get?_copy
        obtain ⟨written, readOnly', hwritten⟩ := hkeeps.file hguarded.get?_file
        exact ⟨l, c, held, readOnly, hl, (locate_of_later hlater _ _).mpr hguarded.copy,
          by rw [hwritten]; rintro ⟨⟩, hheld⟩
      · -- a later copy was made where nothing was, and the file was there by then
        intro b' hb' m hm hm'
        obtain rfl := Except.ok.inj (hl.symm.trans hm)
        obtain ⟨c', hc', hnone⟩ := hfresh b' hb'
        obtain rfl := Except.ok.inj (((locate_of_later hkeeps.toLater _ _).mp hm').symm.trans hc')
        rw [hguarded.get?_file] at hnone
        cases hnone

/-! ## The writes of a suggestion -/

/-- One more write. -/
theorem writeAll_concat {p : Path} {text : String} (h : writeAll w writes = .ok (bs, v))
    (hwrite : writeWithBackup v p text = .ok (b, u)) :
    writeAll w (writes ++ [(p, text)]) = .ok (bs ++ [b], u) :=
  writeAll_append_eq_ok.mpr ⟨bs, [b], v, rfl, h,
    writeAll_cons_eq_ok.mpr ⟨b, u, [], rfl, hwrite, rfl⟩⟩

/-- Renaming in sources goes on with the writes. -/
theorem renameInSources_writes (r : Reference.Renaming) (files : List Path) {p : Trail}
    (h : ∃ writes, writeAll w writes = .ok (p.sources, p.workspace)) :
    ∃ writes, writeAll w writes = .ok ((renameInSources r files p).1.sources,
      (renameInSources r files p).1.workspace) := by
  induction files generalizing p with
  | nil => exact h
  | cons file rest ih =>
      rw [renameInSources]
      split
      · exact h
      · exact ih h
      · next b u hsome =>
        obtain ⟨writes, hwrites⟩ := h
        rw [Reference.Renaming.applyToFile] at hsome
        split at hsome
        · cases hsome
        · split at hsome
          · cases hsome
          · split at hsome
            · cases hsome
            · next new hnew _ _ written hwrite =>
              cases hsome
              exact ih ⟨_, writeAll_concat hwrites hwrite⟩

/-- Moving in catalogs goes on with the writes. -/
theorem moveInFiles_writes (source target : String) (files : List Path) {p : Trail}
    (h : ∃ writes, writeAll w writes = .ok (p.backups, p.workspace)) :
    ∃ writes, writeAll w writes = .ok ((moveInFiles source target files p).backups,
      (moveInFiles source target files p).workspace) := by
  induction files generalizing p with
  | nil => exact h
  | cons file rest ih =>
      rw [moveInFiles]
      split
      · exact ih h
      · exact ih h
      · next b u hsome =>
        obtain ⟨writes, hwrites⟩ := h
        rw [Catalog.moveInFile] at hsome
        split at hsome
        · cases hsome
        · split at hsome
          · cases hsome
          · cases hsome
          · next found _ =>
            cases hsave : Catalog.save p.workspace file found with
            | error fault => rw [hsave] at hsome; cases hsome
            | ok written =>
            rw [hsave] at hsome
            cases hsome
            refine ih ⟨_, (writeAll_concat hwrites (Catalog.save_write hsave)).trans ?_⟩
            rw [Trail.backups, Trail.backups, List.append_assoc]

/-- **A SUGGESTION IS A SEQUENCE OF WRITES**: what it is attempted with leaves the backups and
    the files that a sequence of guarded writes leaves. -/
theorem attempt_writes (s : Settings) (x : Suggestion) (w : Workspace) (store : KeyStore) :
    ∃ writes, writeAll w writes = .ok ((attempt s x (Trail.start w store)).1.backups,
      (attempt s x (Trail.start w store)).1.workspace) := by
  have hsources : ∀ store' q fault?, afterSources s x w store' = (q, fault?) →
      ∃ writes, writeAll w writes = .ok (q.backups, q.workspace) := by
    intro store' q fault? hq
    obtain ⟨-, -, hnone⟩ := afterSources_frame s x w store'
    obtain ⟨writes, hwrites⟩ := renameInSources_writes
      (Reference.Renaming.ofKeys s.accessor x.key x.newKey) (s.sourceFiles x)
      (p := Trail.renamedIn w store') ⟨[], rfl⟩
    rw [← afterSources, hq] at hwrites
    rw [hq] at hnone
    refine ⟨writes, ?_⟩
    rw [Trail.backups, hnone, List.append_nil]
    exact hwrites
  rcases attempt_cases s x w store with ⟨reason, hrefused⟩ | ⟨moved, store', -, -, hways⟩
  · rw [hrefused]
    exact ⟨[], rfl⟩
  · rcases hways with ⟨q, fault, hq, hattempt⟩ | ⟨q, hq, ⟨-, reason, hattempt⟩ | ⟨-, hattempt⟩⟩
    · rw [hattempt]
      exact hsources store' q _ hq
    · rw [hattempt]
      exact moveInFiles_writes x.key x.newKey s.catalogs (hsources store' q none hq)
    · rw [hattempt]
      exact moveInFiles_writes x.key x.newKey s.catalogs (hsources store' q none hq)

/-! ## What the writes leave -/

/-- What writes leave of the bytes at a location: those of the last text that was written there. -/
def leftBy (w : Workspace) (l : Location) : List (Path × String) → ByteArray → ByteArray
  | [], bytes => bytes
  | (p, text) :: rest, bytes =>
    leftBy w l rest (if w.locate p = .ok l then text.toUTF8 else bytes)

theorem leftBy_of_later (h : Later w v) (writes : List (Path × String)) (bytes : ByteArray) :
    leftBy v l writes bytes = leftBy w l writes bytes := by
  induction writes generalizing bytes with
  | nil => rfl
  | cons first writes ih =>
      obtain ⟨p, text⟩ := first
      simp only [leftBy, ih, locate_of_later h]

theorem writeAll_get? (h : writeAll w writes = .ok (bs, v)) {bytes : ByteArray} {readOnly : Bool}
    (hl : w.tree.get? l = some (.file bytes readOnly)) :
    v.tree.get? l = some (.file (leftBy w l writes bytes) readOnly) := by
  induction writes generalizing w bs bytes with
  | nil =>
      cases h
      exact hl
  | cons first writes ih =>
      obtain ⟨p, text⟩ := first
      obtain ⟨b, made, u, m, c, held, rfl, rfl, hguarded, hrest⟩ := writeAll_cons h
      rw [leftBy, ← leftBy_of_later hguarded.later]
      by_cases hm : m = l
      · subst hm
        obtain ⟨rfl, rfl⟩ := Entry.file.inj (Option.some.inj (hl.symm.trans hguarded.held))
        rw [if_pos hguarded.file]
        exact ih hrest hguarded.get?_file
      · have hne : w.locate b.file ≠ .ok l := by
          rw [hguarded.file]
          exact fun he => hm (Except.ok.inj he)
        rw [if_neg hne]
        exact ih hrest (hguarded.get?_other hl hm)

/-- A file that was there at the start was one then, and holds what the writes left in it. -/
theorem writeAll_held (h : writeAll w writes = .ok (bs, v)) (hthere : w.tree.get? l ≠ none)
    {held : ByteArray} {readOnly : Bool} (hl : v.tree.get? l = some (.file held readOnly)) :
    ∃ bytes, w.tree.get? l = some (.file bytes readOnly) ∧ held = leftBy w l writes bytes := by
  cases hw : w.tree.get? l with
  | none => exact absurd hw hthere
  | some e =>
      cases e with
      | directory =>
          rw [((writeAll_keeps h).1.directory l).mpr hw] at hl
          cases hl
      | file bytes readOnly' =>
          obtain ⟨rfl, rfl⟩ := Entry.file.inj (Option.some.inj ((writeAll_get? h hw).symm.trans hl))
          exact ⟨bytes, rfl, rfl⟩

/-- **REPEATED WRITES**: take any sequence of guarded writes, the last write of it to a file that
    was there, and what was there at the start.  Undoing leaves in the file what the writes before
    that one had left in it, or what later ones wrote into its copy.  So the file gets back its
    bytes exactly if these are the same. -/
theorem repeated_writes_undone_iff {p : Path} {text : String}
    (h : writeAll w (before ++ (p, text) :: after) = .ok (bs, v)) (hl : w.locate p = .ok l)
    (hthere : w.tree.get? l ≠ none) (hlast : ∀ q ∈ after, w.locate q.1 ≠ .ok l)
    (x : Suggestion) {t : Trail} (hworkspace : t.workspace = v) (hbackups : t.backups = bs) :
    ∃ b c bytes, bs[before.length]? = some b ∧ b.file = p ∧ w.locate b.copy = .ok c ∧
      w.tree.get? l = some (.file bytes false) ∧
      (undo x t).workspace.tree.get? l
        = some (.file (leftBy w c after (leftBy w l before bytes)) false) ∧
      ((undo x t).workspace.tree.get? l = w.tree.get? l ↔
        leftBy w c after (leftBy w l before bytes) = bytes) := by
  obtain ⟨made, more, w₁, rfl, hbefore, hfrom⟩ := writeAll_append_eq_ok.mp h
  obtain ⟨b, rest, w₂, l', c, held, rfl, rfl, hguarded, hafter⟩ := writeAll_cons hfrom
  have hlater₁ := (writeAll_keeps hbefore).1.toLater
  have hlater₂ := hlater₁.trans hguarded.later
  have hlater := hlater₂.trans (writeAll_keeps hafter).1.toLater
  have hrestorable := writeAll_restorable h
  obtain rfl : l = l' :=
    Except.ok.inj (hl.symm.trans ((locate_of_later hlater₁ _ _).mp hguarded.file))
  have hc : w.locate b.copy = .ok c := (locate_of_later hlater₁ _ _).mp hguarded.copy
  obtain ⟨bytes, hbytes, hheld⟩ := writeAll_held hbefore hthere hguarded.held
  have hfinal : (undo x t).workspace.tree.get? l
      = some (.file (leftBy w c after (leftBy w l before bytes)) false) := by
    show (t.backups.foldl (fun w b => b.restoreIfPossible w) t.workspace).tree.get? l = _
    rw [hworkspace, hbackups, restoreAll_get?_last hrestorable
      ((locate_of_later hlater _ _).mpr hl) ((locate_of_later hlater _ _).mpr hc),
      writeAll_get? hafter hguarded.get?_copy, leftBy_of_later hlater₂, hheld]
    -- no backup that was made later is one of this file
    intro b' hb'
    have hfile : b'.file ∈ after.map Prod.fst := by
      rw [← writeAll_files hafter]
      exact List.mem_map_of_mem hb'
    obtain ⟨q, hq, hqb⟩ := List.mem_map.mp hfile
    rw [Ne, locate_of_later hlater, ← hqb]
    exact hlast q hq
  refine ⟨b, c, bytes, ?_, rfl, hc, hbytes, hfinal, ?_⟩
  · have hlength : made.length = before.length := by
      simpa using congrArg List.length (writeAll_files hbefore)
    rw [← hlength]
    simp
  · rw [hfinal, hbytes, Option.some.injEq, Entry.file.injEq]
    exact and_iff_left rfl

/-- Two spellings of one file: undoing leaves it with what the first write put in it. -/
theorem repeated_writes_undone_sample :
    let w : Workspace :=
      ⟨⟨[(["a.ts"], .file "m['hello']m['hello']".toUTF8 false)]⟩, [], fun _ => "T", 0⟩
    let once := "m['home.hello']m['hello']"
    let twice := "m['home.hello']m['home.hello']"
    ∃ bs v, writeAll w [(⟨"./a.ts"⟩, once), (⟨"a.ts"⟩, twice)] = .ok (bs, v) ∧
      ∀ x : Suggestion, ∀ store : KeyStore,
        (undo x ⟨v, store, false, bs, [], []⟩).workspace.tree.get? ["a.ts"]
          = some (.file once.toUTF8 false) := by
  intro w once twice
  have hok : (writeAll w [(⟨"./a.ts"⟩, once), (⟨"a.ts"⟩, twice)]).isOk = true := by
    decide +kernel
  cases h : writeAll w [(⟨"./a.ts"⟩, once), (⟨"a.ts"⟩, twice)] with
  | error fault => rw [h] at hok; cases hok
  | ok written =>
      obtain ⟨bs, v⟩ := written
      refine ⟨bs, v, rfl, fun x store => ?_⟩
      have hl : w.locate ⟨"a.ts"⟩ = .ok ["a.ts"] := by decide +kernel
      obtain ⟨b, c, bytes, -, -, -, -, hfinal, -⟩ :=
        @repeated_writes_undone_iff w v [(⟨"./a.ts"⟩, once)] [] bs ["a.ts"] ⟨"a.ts"⟩ twice h hl
          (by decide +kernel) (fun _ hq => absurd hq List.not_mem_nil) x
          ⟨v, store, false, bs, [], []⟩ rfl (List.append_nil bs)
      rw [hfinal]
      have hfirst : w.locate ⟨"./a.ts"⟩ = .ok ["a.ts"] := by decide +kernel
      rw [leftBy, leftBy, leftBy, if_pos hfirst]

end MessageKeys.Migration
