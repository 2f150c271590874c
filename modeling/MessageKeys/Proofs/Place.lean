import MessageKeys.Proofs.Path
import MessageKeys.Proofs.Workspace
import Mathlib.Data.List.Nodup

/-! # Places — where paths lead, told from their components

    A path that leads somewhere leads to the place that its components name from the current
    directory (`Workspace.locate_eq_place`), whatever its spelling.  In a tree whose names are
    proper and whose parents are directories (`FileTree.Proper`), what a path calls its file
    name is the last name of the place, as soon as no directory stands there. -/

namespace MessageKeys

namespace FileTree

/-! ## Proper trees -/

/-- Names can stand in a directory, and what lies somewhere lies in a directory. -/
def Proper (t : FileTree) : Prop :=
  ∀ l n, t.get? (l ++ [n]) ≠ none → t.get? l = some .directory ∧ Path.IsName n

/-- The parent of a directory is one. -/
theorem Proper.parent {t : FileTree} (h : t.Proper) {l : Location}
    (hl : t.get? l = some .directory) : t.get? l.dropLast = some .directory := by
  rcases List.eq_nil_or_concat l with rfl | ⟨init, n, rfl⟩
  · exact hl
  · rw [List.concat_eq_append] at hl ⊢
    rw [List.dropLast_concat]
    exact (h init n (by rw [hl]; rintro ⟨⟩)).1

/-- Where something is taken, there are directories on the way. -/
theorem Proper.on_the_way {t : FileTree} (h : t.Proper) {l : Location} {n : String}
    {rest : List String} (htaken : t.get? (l ++ n :: rest) ≠ none) :
    t.get? l = some .directory := by
  induction rest generalizing l n with
  | nil => exact (h l n htaken).1
  | cons m rest ih =>
      rw [List.append_cons] at htaken
      refine (h l n ?_).1
      rw [ih htaken]
      rintro ⟨⟩

theorem lookup_ne_none_iff {l : Location} {es : List (Location × Entry)} :
    lookup l es ≠ none ↔ l ∈ es.map (·.1) := by
  induction es with
  | nil => simp [lookup]
  | cons hd rest ih =>
      obtain ⟨k, e⟩ := hd
      rw [lookup, List.map_cons, List.mem_cons]
      by_cases hk : k = l
      · rw [if_pos hk]
        exact iff_of_true (by rintro ⟨⟩) (.inl hk.symm)
      · rw [if_neg hk, ih]
        exact (or_iff_right (Ne.symm hk)).symm

/-- A tree has no more places taken than entries. -/
theorem length_le_entries {t : FileTree} {ls : List Location} (hnodup : ls.Nodup)
    (h : ∀ l ∈ ls, l ≠ [] ∧ t.get? l ≠ none) : ls.length ≤ t.entries.length := by
  have hplaces : (t.entries.map (·.1)).length = t.entries.length := List.length_map _
  rw [← hplaces]
  refine List.Nodup.length_le_of_subset hnodup fun l hl => ?_
  obtain ⟨hne, htaken⟩ := h l hl
  rw [get?, if_neg hne] at htaken
  exact lookup_ne_none_iff.mp htaken

/-- A tree is proper if its entries are. -/
theorem proper_of_entries {t : FileTree}
    (h : ∀ e ∈ t.entries, ∀ n ∈ e.1.getLast?,
      t.get? e.1.dropLast = some .directory ∧ Path.IsName n) : t.Proper := by
  intro l n hl
  rw [get?, if_neg (List.append_ne_nil_of_right_ne_nil l (List.cons_ne_nil n []))] at hl
  obtain ⟨e, he, hplace⟩ := List.mem_map.mp (lookup_ne_none_iff.mp hl)
  have := h e he n (by rw [hplace, List.getLast?_concat]; rfl)
  rwa [hplace, List.dropLast_concat] at this

/-- The names in a directory are those of the places below it that are taken. -/
theorem mem_names (t : FileTree) (l : Location) (n : String) :
    n ∈ t.names l ↔ t.get? (l ++ [n]) ≠ none := by
  rw [names, List.mem_mergeSort, List.mem_filterMap, get?,
    if_neg (List.append_ne_nil_of_right_ne_nil l (List.cons_ne_nil n [])), lookup_ne_none_iff,
    List.mem_map]
  constructor
  · rintro ⟨e, he, hn⟩
    refine ⟨e, he, ?_⟩
    split at hn
    · next hinit =>
      obtain ⟨init, hlist⟩ := List.getLast?_eq_some_iff.mp hn
      rw [hlist, List.dropLast_concat] at hinit
      rw [hlist, hinit]
    · cases hn
  · rintro ⟨e, he, hplace⟩
    refine ⟨e, he, ?_⟩
    rw [hplace, List.dropLast_concat, if_pos rfl, List.getLast?_concat]

/-- Every location is listed once. -/
def Distinct (t : FileTree) : Prop := (t.entries.map (·.1)).Nodup

instance (t : FileTree) : Decidable t.Distinct := inferInstanceAs (Decidable (List.Nodup _))

theorem nodup_names {t : FileTree} (h : t.Distinct) (l : Location) : (t.names l).Nodup := by
  have hentries : t.entries.Pairwise fun e f => e.1 ≠ f.1 := List.pairwise_map.mp h
  refine (List.mergeSort_perm _ _).nodup_iff.mpr (hentries.filterMap _ ?_)
  intro e f hne m hm n hn hmn
  -- two entries of one directory with one name have one location
  have hlocation : ∀ {e : Location × Entry} {m : String},
      (if e.1.dropLast = l then e.1.getLast? else none) = some m → e.1 = l ++ [m] := by
    intro e m hm
    split at hm
    · next hl =>
      obtain ⟨init, hinit⟩ := List.getLast?_eq_some_iff.mp hm
      rw [hinit, List.dropLast_concat] at hl
      rw [hinit, hl]
    · cases hm
  exact hne ((hlocation hm).trans (hmn ▸ (hlocation hn).symm))

end FileTree

namespace Path

/-- The location that a component leads to from another one. -/
def Component.from (l : Location) : Component → Location
  | .root => []
  | .here => l
  | .up => l.dropLast
  | .name n => l ++ [n]

/-- The location that components name from a directory. -/
def place (here : Location) (cs : List Component) : Location := cs.foldl Component.from here

theorem place_append (here : Location) (cs ds : List Component) :
    place here (cs ++ ds) = place (place here cs) ds := List.foldl_append

theorem place_name (here : Location) (cs : List Component) (n : String) :
    place here (cs ++ [.name n]) = place here cs ++ [n] := place_append here cs [.name n]

theorem place_names (here : Location) (ns : List String) :
    place here (ns.map Component.name) = here ++ ns := by
  induction ns generalizing here with
  | nil => exact (List.append_nil here).symm
  | cons n rest ih =>
      show place (here ++ [n]) (rest.map Component.name) = _
      rw [ih, List.append_assoc]
      rfl

end Path

namespace Workspace

open MessageKeys.Path (place steps)

variable {w v : Workspace}

/-! ## Following segments -/

/-- A step that leads somewhere starts in a directory. -/
theorem enter_ok {t : FileTree} {l m : Location} {s : String} (h : enter t l s = .ok m) :
    t.get? l = some .directory ∧ m = place l (steps [s]) := by
  rw [enter] at h
  cases hl : t.get? l with
  | none => rw [hl] at h; cases h
  | some e =>
      cases e with
      | file bytes readOnly => rw [hl] at h; cases h
      | directory =>
          refine ⟨rfl, ?_⟩
          rw [hl] at h
          dsimp only at h
          rw [Path.steps_cons]
          split at h
          · next hvoid =>
            rw [if_pos hvoid, ← Except.ok.inj h]
            rfl
          · next hsolid =>
            rw [if_neg hsolid, Path.Component.ofSegment]
            split at h
            · next hup =>
              rw [if_pos hup, ← Except.ok.inj h]
              rfl
            · next hname =>
              rw [if_neg hname]
              split at h
              · cases h
              · rw [← Except.ok.inj h]
                rfl

theorem follow_ok {t : FileTree} {l m : Location} {ss : List String}
    (h : follow t l ss = .ok m) : m = place l (steps ss) := by
  induction ss generalizing l with
  | nil => exact (Except.ok.inj h).symm
  | cons s rest ih =>
      rw [follow_cons] at h
      cases hs : enter t l s with
      | error fault => rw [hs] at h; cases h
      | ok d =>
          rw [hs] at h
          have hsteps : steps (s :: rest) = steps [s] ++ steps rest := Path.steps_append [s] rest
          rw [ih h, (enter_ok hs).2, hsteps, Path.place_append]

/-- A way that goes on starts in a directory. -/
theorem follow_directory {t : FileTree} {l m : Location} {s : String} {rest : List String}
    (h : follow t l (s :: rest) = .ok m) : t.get? l = some .directory := by
  rw [follow_cons] at h
  cases hs : enter t l s with
  | error fault => rw [hs] at h; cases h
  | ok d => exact (enter_ok hs).1

/-- Segments that mean nothing stay in the directory. -/
theorem follow_void {t : FileTree} {l : Location} {ss : List String}
    (hvoid : ∀ s ∈ ss, Path.isVoid s = true) (hl : t.get? l = some .directory) :
    follow t l ss = .ok l := by
  induction ss with
  | nil => rfl
  | cons s rest ih =>
      obtain ⟨hs, hrest⟩ := List.forall_mem_cons.mp hvoid
      rw [follow_cons, enter, hl]
      dsimp only
      rw [if_pos hs]
      exact ih hrest

section

variable {keep : String → Bool} (hvoid : ∀ s, keep s = false → Path.isVoid s = true)

include hvoid

/-- Segments that mean nothing lead nowhere else. -/
theorem follow_filter {t : FileTree} {l m : Location} {ss : List String}
    (h : follow t l ss = .ok m) : follow t l (ss.filter keep) = .ok m := by
  induction ss generalizing l with
  | nil => exact h
  | cons s rest ih =>
      rw [follow_cons] at h
      cases hs : enter t l s with
      | error fault => rw [hs] at h; cases h
      | ok d =>
          rw [hs] at h
          cases hkeep : keep s with
          | true =>
              rw [List.filter_cons_of_pos hkeep, follow_cons, hs]
              exact ih h
          | false =>
              have hd : d = l := by
                rw [(enter_ok hs).2, Path.steps_cons, if_pos (hvoid s hkeep)]
                rfl
              subst hd
              rw [List.filter_cons_of_neg (by simp [hkeep])]
              exact ih h

/-- They can stand wherever the way is in a directory. -/
theorem follow_of_filter {t : FileTree} {l m : Location} {ss : List String}
    (hl : t.get? l = some .directory) (hm : t.get? m = some .directory)
    (h : follow t l (ss.filter keep) = .ok m) : follow t l ss = .ok m := by
  induction ss generalizing l with
  | nil => exact h
  | cons s rest ih =>
      rw [follow_cons]
      cases hkeep : keep s with
      | true =>
          rw [List.filter_cons_of_pos hkeep, follow_cons] at h
          cases hs : enter t l s with
          | error fault => rw [hs] at h; cases h
          | ok d =>
              rw [hs] at h
              change follow t d (rest.filter keep) = .ok m at h
              refine ih ?_ h
              -- the way ends in this directory, or goes on from it
              cases hrest : rest.filter keep with
              | nil =>
                  rw [hrest] at h
                  rw [Except.ok.inj h]
                  exact hm
              | cons next more =>
                  rw [hrest] at h
                  exact follow_directory h
      | false =>
          rw [List.filter_cons_of_neg (by simp [hkeep])] at h
          rw [enter, hl]
          dsimp only
          rw [if_pos (hvoid s hkeep)]
          exact ih hl h

end

/-! ## Where a path leads -/

/-- What a path needs to lead somewhere. -/
theorem locate_eq_ok {p : Path} {l : Location} :
    w.locate p = .ok l ↔ Char.ofNat 0 ∉ p.text.toList ∧ p.text ≠ "" ∧
      p.text.utf8ByteSize ≤ maxPathSize ∧
      follow w.tree (if p.isAbsolute then [] else w.here) (Text.split '/' p.text) = .ok l := by
  rw [locate]
  split
  · next h => simp_all
  · next hnul =>
    split
    · next h => simp [h]
    · next hempty =>
      split
      · next h => simp [Nat.not_le.mpr h]
      · next hsize => simp_all

/-- **PLACES**: a path leads to the place that its components name. -/
theorem locate_eq_place {p : Path} {l : Location} (h : w.locate p = .ok l) :
    l = place w.here p.components := by
  obtain ⟨-, -, -, hfollow⟩ := locate_eq_ok.mp h
  rw [follow_ok hfollow, Path.components_eq, Path.place_append]
  rcases p.start_cases with ⟨habs, ha, -⟩ | ⟨habs, ⟨ha, -⟩ | ⟨ha, -⟩⟩
  · rw [habs, ha]
    rfl
  · rw [habs, ha]
    rfl
  · rw [habs, ha]
    rfl

theorem locate_unique {p q : Path} {l m : Location} (h : p.components = q.components)
    (hp : w.locate p = .ok l) (hq : w.locate q = .ok m) : l = m := by
  rw [locate_eq_place hp, locate_eq_place hq, h]

/-- A joined path leads on from where the first one leads. -/
theorem locate_join {p q : Path} {m : Location} (hp : p.text ≠ "") (hq : q.isAbsolute = false)
    (h : w.locate (p.join q) = .ok m) : ∃ l, w.locate p = .ok l ∧
      w.tree.get? l = some .directory ∧ follow w.tree l (Text.split '/' q.text) = .ok m := by
  obtain ⟨hnul, -, hsize, hfollow⟩ := locate_eq_ok.mp h
  obtain ⟨init, last, hsplit, -, hvoid, hjoined, habs⟩ := Path.split_join_path hp hq
  rw [habs, hjoined, follow_append] at hfollow
  cases hinit : follow w.tree (if p.isAbsolute then [] else w.here) init with
  | error fault => rw [hinit] at hfollow; cases hfollow
  | ok l =>
      rw [hinit] at hfollow
      change follow w.tree l (Text.split '/' q.text) = .ok m at hfollow
      have hdirectory : w.tree.get? l = some .directory := by
        cases hcut : Text.split '/' q.text with
        | nil => exact absurd hcut (Text.split_ne_nil _ _)
        | cons s rest =>
            rw [hcut] at hfollow
            exact follow_directory hfollow
      -- the text of the first path is a part of the whole
      have htext : ∃ more, (p.join q).text = p.text ++ more := by
        rw [Path.join, hq, if_neg Bool.false_ne_true]
        split
        · exact ⟨q.text, rfl⟩
        · exact ⟨"/" ++ q.text, String.append_assoc⟩
      obtain ⟨more, htext⟩ := htext
      rw [htext] at hnul hsize
      refine ⟨l, locate_eq_ok.mpr ⟨?_, hp, ?_, ?_⟩, hdirectory, hfollow⟩
      · rw [String.toList_append] at hnul
        exact fun hmem => hnul (List.mem_append_left _ hmem)
      · rw [String.utf8ByteSize_append] at hsize
        omega
      · rw [hsplit, follow_append, hinit]
        exact follow_void hvoid hdirectory

/-- In a directory a name that can be written and is not too long leads to its place. -/
theorem enter_name {t : FileTree} {d : Location} {n : String} (hn : Path.IsName n)
    (hshort : n.utf8ByteSize ≤ maxNameSize) (hd : t.get? d = some .directory) :
    follow t d [n] = .ok (d ++ [n]) := by
  rw [follow_cons, enter, hd]
  dsimp only
  rw [if_neg (by simp [hn.1]), if_neg hn.2.1, if_neg (Nat.not_lt.mpr hshort)]
  rfl

/-- Joined to a path that leads to a directory, such a name leads on from there. -/
theorem locate_join_name {p : Path} {d : Location} {n : String} (hp : w.locate p = .ok d)
    (hd : w.tree.get? d = some .directory) (hn : Path.IsName n) (hnul : Char.ofNat 0 ∉ n.toList)
    (hshort : n.utf8ByteSize ≤ maxNameSize)
    (hfits : (p.join ⟨n⟩).text.utf8ByteSize ≤ maxPathSize) :
    w.locate (p.join ⟨n⟩) = .ok (d ++ [n]) := by
  obtain ⟨hnoNul, hne, -, hfollow⟩ := locate_eq_ok.mp hp
  obtain ⟨init, last, hsplit, hinit, hvoid, hjoined, habs⟩ :=
    Path.split_join_path hne hn.isAbsolute
  have htext : (p.join ⟨n⟩).text ≠ "" := fun he => by
    have hcomponents := Path.components_join_name p hn
    rw [(Path.components_eq_nil_iff _).mpr he] at hcomponents
    exact absurd hcomponents.symm (List.append_ne_nil_of_right_ne_nil _ (List.cons_ne_nil _ _))
  refine locate_eq_ok.mpr ⟨Path.not_mem_join hnoNul hnul (by decide), htext, hfits, ?_⟩
  rw [hsplit, follow_append] at hfollow
  rw [habs, hjoined, follow_append, Text.split_of_not_mem hn.2.2]
  cases hfront : follow w.tree (if p.isAbsolute then [] else w.here) init with
  | error fault => rw [hfront] at hfollow; cases hfollow
  | ok e =>
      rw [hfront] at hfollow
      -- the last segments mean nothing
      have hlast := follow_ok (t := w.tree) (l := e) hfollow
      rw [Path.steps_eq_nil hvoid] at hlast
      rw [hlast] at hd ⊢
      exact enter_name hn hshort hd

/-- Where no directory stands, the last segment is the last name of the place, and that lies in a
    directory. -/
theorem exists_last {p : Path} {l : Location} (hw : w.tree.Proper) (h : w.locate p = .ok l)
    (hl : w.tree.get? l ≠ some .directory) :
    ∃ d init n, Text.split '/' p.text = init ++ [n] ∧ l = d ++ [n] ∧
      w.tree.get? d = some .directory ∧ Path.IsName n := by
  obtain ⟨-, -, -, hfollow⟩ := locate_eq_ok.mp h
  obtain ⟨init, s, hsplit⟩ := (List.eq_nil_or_concat (Text.split '/' p.text)).resolve_left
    (Text.split_ne_nil _ _)
  rw [List.concat_eq_append] at hsplit
  rw [hsplit, follow_append] at hfollow
  cases hinit : follow w.tree (if p.isAbsolute then [] else w.here) init with
  | error fault => rw [hinit] at hfollow; cases hfollow
  | ok d =>
      rw [hinit] at hfollow
      change follow w.tree d [s] = .ok l at hfollow
      have hd := follow_directory hfollow
      have hlast := follow_ok hfollow
      rw [Path.steps_cons] at hlast
      -- neither staying in the directory nor going up leads to anything but a directory
      by_cases hvoid : Path.isVoid s = true
      · rw [if_pos hvoid] at hlast
        exact absurd (hlast ▸ hd) hl
      · rw [if_neg hvoid, Path.Component.ofSegment] at hlast
        by_cases hup : s = ".."
        · rw [if_pos hup] at hlast
          exact absurd (hlast ▸ hw.parent hd) hl
        · rw [if_neg hup] at hlast
          have hmem : s ∈ Text.split '/' p.text := by
            rw [hsplit]
            exact List.mem_append_right _ List.mem_cons_self
          exact ⟨d, init, s, hsplit, hlast, hd, by simpa using hvoid, hup,
            Text.not_mem_of_mem_split hmem⟩

/-- Where no directory stands, the last component is the last name of the place. -/
theorem exists_fileName {p : Path} {l : Location} (hw : w.tree.Proper) (h : w.locate p = .ok l)
    (hl : w.tree.get? l ≠ some .directory) :
    ∃ d n, l = d ++ [n] ∧ w.tree.get? d = some .directory ∧ Path.IsName n ∧
      p.fileName? = some n := by
  obtain ⟨d, init, n, hsplit, hlast, hd, hname⟩ := exists_last hw h hl
  refine ⟨d, n, hlast, hd, hname, ?_⟩
  rw [Path.fileName?_eq_some_iff, Path.components_eq, hsplit, Path.steps_append, Path.steps_cons,
    if_neg (by simp [hname.1]), Path.Component.ofSegment, if_neg hname.2.1, ← List.append_assoc]
  exact List.getLast?_concat

/-- A path that stays where it starts leads to a directory. -/
theorem locate_here {p : Path} {l : Location} (hp : p.components = [.here])
    (h : w.locate p = .ok l) : w.tree.get? l = some .directory := by
  obtain ⟨-, -, -, hfollow⟩ := locate_eq_ok.mp h
  cases hsplit : Text.split '/' p.text with
  | nil => exact absurd hsplit (Text.split_ne_nil _ _)
  | cons s rest =>
      rw [hsplit] at hfollow
      have hd := follow_directory hfollow
      have hl := locate_eq_place h
      rw [hp] at hl
      rcases p.start_cases with ⟨-, ha, -⟩ | ⟨habs, -⟩
      · rw [Path.components_eq, ha] at hp
        cases (List.cons.inj hp).1
      · rw [habs, if_neg Bool.false_ne_true] at hd
        rw [hl]
        exact hd

end Workspace

end MessageKeys
