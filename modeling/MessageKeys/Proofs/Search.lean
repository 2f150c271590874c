import MessageKeys.Glob.Walk
import MessageKeys.Proofs.Place

/-! # Searching — a search finds the same directories when files are added

    Whatever a search goes down it goes down by the names of directories (`Way`), and such a
    way is never longer than the tree has entries, so the bound on the steps cuts nothing off.
    When files are added, every way stays one; those that are new end at a new file
    (`Way.of_keeps`, `Way.old_or_fresh`).  Patterns name the same directories before and after
    (`mem_expandFrom_iff`). -/

namespace MessageKeys

open Workspace

/-! ## Ways down -/

namespace Workspace

variable {w v : Workspace} {child : Path → String → Path}

/-- The name is one of those in the directory that the path leads to. -/
def Inside (w : Workspace) (p : Path) (n : String) : Prop :=
  ∃ l, w.locate p = .ok l ∧ w.tree.get? l = some .directory ∧ w.tree.get? (l ++ [n]) ≠ none

/-- A path that leads to a directory has the names in it. -/
theorem names?_eq_some {p : Path} {names : List String} :
    w.names? p = some names ↔ ∃ l, w.locate p = .ok l ∧ w.tree.get? l = some .directory ∧
      names = w.tree.names l := by
  rw [names?]
  cases w.locate p with
  | error fault => simp
  | ok l =>
      dsimp only
      split
      · next hd => simp [hd, eq_comm]
      · next hd =>
        refine iff_of_false (by rintro ⟨⟩) ?_
        rintro ⟨m, hm, hmd, -⟩
        cases hm
        exact hd hmd

/-- These are the names that something stands under. -/
theorem mem_names?_iff {p : Path} {n : String} :
    (∃ names, w.names? p = some names ∧ n ∈ names) ↔ Inside w p n := by
  constructor
  · rintro ⟨names, hnames, hn⟩
    obtain ⟨l, hl, hd, rfl⟩ := names?_eq_some.mp hnames
    exact ⟨l, hl, hd, (FileTree.mem_names _ _ _).mp hn⟩
  · rintro ⟨l, hl, hd, hn⟩
    exact ⟨_, names?_eq_some.mpr ⟨l, hl, hd, rfl⟩, (FileTree.mem_names _ _ _).mpr hn⟩

/-- The names lead down from one path to the other. -/
inductive Way (w : Workspace) (child : Path → String → Path) : Path → List String → Path → Prop where
  | stay (p : Path) : Way w child p [] p
  | down {p q : Path} {n : String} {ns : List String} :
      Inside w p n → Way w child (child p n) ns q → Way w child p (n :: ns) q

/-- **BELOW** a path lies what a way of names leads to, no longer than the search is deep. -/
theorem mem_below_iff {fuel : Nat} {p q : Path} :
    q ∈ w.below child fuel p ↔ ∃ ns, ns ≠ [] ∧ ns.length ≤ fuel ∧ Way w child p ns q := by
  induction fuel generalizing p with
  | zero =>
      refine iff_of_false List.not_mem_nil ?_
      rintro ⟨ns, hne, hlen, -⟩
      exact hne (List.length_eq_zero_iff.mp (Nat.le_zero.mp hlen))
  | succ fuel ih =>
      have hunfold : q ∈ w.below child (fuel + 1) p ↔
          ∃ n, Inside w p n ∧ (q = child p n ∨ q ∈ w.below child fuel (child p n)) := by
        rw [below]
        cases hnames : w.names? p with
        | none =>
            refine iff_of_false List.not_mem_nil ?_
            rintro ⟨n, hn, -⟩
            obtain ⟨names, hsome, -⟩ := mem_names?_iff.mpr hn
            rw [hnames] at hsome
            cases hsome
        | some names =>
            dsimp only
            rw [List.mem_flatMap]
            refine exists_congr fun n => ?_
            rw [List.mem_cons, ← mem_names?_iff, hnames]
            refine and_congr_left fun _ => ⟨fun hn => ⟨names, rfl, hn⟩, ?_⟩
            rintro ⟨names', hsome, hn⟩
            cases hsome
            exact hn
      rw [hunfold]
      constructor
      · rintro ⟨n, hn, rfl | hq⟩
        · exact ⟨[n], List.cons_ne_nil n [], Nat.succ_le_succ (Nat.zero_le _),
            .down hn (.stay _)⟩
        · obtain ⟨ns, -, hlen, hway⟩ := ih.mp hq
          exact ⟨n :: ns, List.cons_ne_nil n ns, Nat.succ_le_succ hlen, .down hn hway⟩
      · rintro ⟨ns, hne, hlen, hway⟩
        cases hway with
        | stay => exact absurd rfl hne
        | @down _ _ n ns hn hway =>
            refine ⟨n, hn, ?_⟩
            cases ns with
            | nil =>
                cases hway
                exact .inl rfl
            | cons m ns =>
                exact .inr (ih.mpr ⟨m :: ns, List.cons_ne_nil m ns,
                  Nat.le_of_succ_le_succ hlen, hway⟩)

/-- The path of a name in a directory has the name as one more component; in the current
    directory it may have no other. -/
def Names (child : Path → String → Path) : Prop :=
  ∀ p n, Path.IsName n → (child p n).components = p.components ++ [.name n] ∨
    p.components = [.here] ∧ (child p n).components = [.name n]

theorem names_join : Names fun p n => p.join ⟨n⟩ :=
  fun p _ hn => .inl (Path.components_join_name p hn)

/-- A name leads to the location of that name. -/
theorem Names.locate (h : Names child) {p : Path} {n : String} {l m : Location}
    (hn : Path.IsName n) (hl : w.locate p = .ok l) (hm : w.locate (child p n) = .ok m) :
    m = l ++ [n] := by
  rw [locate_eq_place hm, locate_eq_place hl]
  rcases h p n hn with hc | ⟨hp, hc⟩
  · rw [hc, Path.place_name]
  · rw [hc, hp]
    rfl

/-- A way down adds its names to the components. -/
theorem Way.components (hw : w.tree.Proper) {p q : Path} {ns : List String}
    (h : Way w (fun p n => p.join ⟨n⟩) p ns q) :
    q.components = p.components ++ ns.map Path.Component.name := by
  induction h with
  | stay p => exact (List.append_nil _).symm
  | @down p q n ns hn _ ih =>
      obtain ⟨l, -, -, htaken⟩ := hn
      rw [ih, Path.components_join_name p (hw l n htaken).2, List.append_assoc]
      rfl

/-- What a way goes through is taken. -/
theorem Way.taken (hchild : Names child) (hw : w.tree.Proper) {p q : Path} {ns : List String}
    (h : Way w child p ns q) {l : Location} (hl : w.locate p = .ok l) :
    ∀ k < ns.length, w.tree.get? (l ++ ns.take (k + 1)) ≠ none := by
  induction h generalizing l with
  | stay => intro k hk; exact absurd hk (Nat.not_lt_zero k)
  | @down p q n ns hn hway ih =>
      intro k hk
      obtain ⟨l', hl', hd, htaken⟩ := hn
      rw [hl] at hl'
      cases hl'
      cases k with
      | zero => exact htaken
      | succ k =>
          rw [List.take_succ_cons, List.append_cons]
          cases hway with
          | stay => exact absurd hk (Nat.not_lt.mpr (Nat.le_add_left 1 k))
          | down hm hway =>
              obtain ⟨l', hl', -, -⟩ := id hm
              have hplace := hchild.locate (hw l n htaken).2 hl hl'
              subst hplace
              exact ih hl' k (Nat.lt_of_succ_lt_succ hk)

/-- A way is not longer than a tree that has all its places. -/
theorem Way.length_le (hchild : Names child) (hw : w.tree.Proper) {p q : Path} {ns : List String}
    (h : Way w child p ns q)
    (hkeep : ∀ l, w.tree.get? l ≠ none → v.tree.get? l ≠ none) : ns.length ≤ v.tree.height := by
  cases h with
  | stay => exact Nat.zero_le _
  | @down _ _ n ns hn hway =>
      obtain ⟨l, hl, -, -⟩ := id hn
      have htaken := (Way.down hn hway).taken hchild hw hl
      let places := (List.range (n :: ns).length).map fun k => l ++ (n :: ns).take (k + 1)
      have hnodup : places.Nodup := by
        refine (List.nodup_map_iff_inj_on List.nodup_range).mpr ?_
        intro i hi j hj hij
        have hlen := congrArg List.length (List.append_cancel_left hij)
        rw [List.mem_range] at hi hj
        simp only [List.length_take] at hlen
        omega
      have hle := FileTree.length_le_entries (t := v.tree) hnodup fun m hm => by
        obtain ⟨k, hk, rfl⟩ := List.mem_map.mp hm
        refine ⟨?_, hkeep _ (htaken k (List.mem_range.mp hk))⟩
        rw [List.take_succ_cons]
        exact List.append_ne_nil_of_right_ne_nil l (List.cons_ne_nil _ _)
      rw [List.length_map, List.length_range] at hle
      exact Nat.le_succ_of_le hle

/-! ## Ways after files were added -/

/-- What stands in a directory still stands there in a workspace that keeps it. -/
theorem Inside.of_keeps (hk : Keeps w v) {p : Path} {n : String} (h : Inside w p n) :
    Inside v p n := by
  obtain ⟨l, hl, hd, htaken⟩ := h
  exact ⟨l, (locate_of_later hk.toLater p l).mpr hl, (hk.directory l).mpr hd, hk.present _ htaken⟩

/-- So every way through directories stays open. -/
theorem Way.of_keeps (hk : Keeps w v) {p q : Path} {ns : List String} (h : Way w child p ns q) :
    Way v child p ns q := by
  induction h with
  | stay p => exact .stay p
  | down hn _ ih => exact .down (hn.of_keeps hk) ih

/-- Nothing lies below the path: it is neither empty nor the current directory, and leads to
    no directory. -/
structure Barren (w : Workspace) (p : Path) : Prop where
  text : p.text ≠ ""
  elsewhere : p.components ≠ [.here]
  directory : ∀ l, w.locate p = .ok l → w.tree.get? l ≠ some .directory

/-- The path is barren now, and nothing was there before. -/
structure Fresh (w v : Workspace) (p : Path) : Prop extends Barren v p where
  free : ∀ l, v.locate p = .ok l → w.tree.get? l = none

/-- Nothing stands inside a path that leads to no directory. -/
theorem Barren.not_inside {p : Path} (h : Barren w p) (n : String) : ¬ Inside w p n := by
  rintro ⟨l, hl, hd, -⟩
  exact h.directory l hl hd

theorem Barren.names? {p : Path} (h : Barren w p) : w.names? p = none := by
  cases hnames : w.names? p with
  | none => rfl
  | some names =>
      obtain ⟨l, hl, hd, -⟩ := names?_eq_some.mp hnames
      exact absurd hd (h.directory l hl)

/-- So a search finds nothing below it. -/
theorem Barren.below {p : Path} (h : Barren w p) (fuel : Nat) : w.below child fuel p = [] := by
  cases fuel with
  | zero => rfl
  | succ fuel => rw [Workspace.below, h.names?]

theorem Barren.isDirectory {p : Path} (h : Barren w p) : w.isDirectory p = false := by
  rw [← Bool.not_eq_true, isDirectory_eq_true]
  rintro ⟨l, hl, hd⟩
  exact h.directory l hl hd

/-- The path of a name that was added. -/
theorem Inside.old_or_fresh (hchild : Names child) (hk : Keeps w v) (hv : v.tree.Proper)
    {p : Path} {n : String} (h : Inside v p n) : Inside w p n ∨ Fresh w v (child p n) := by
  obtain ⟨l, hl, hd, htaken⟩ := h
  have hname := (hv l n htaken).2
  cases hold : w.tree.get? (l ++ [n]) with
  | some e =>
      exact .inl ⟨l, (locate_of_later hk.toLater p l).mp hl, (hk.directory l).mp hd,
        by rw [hold]; rintro ⟨⟩⟩
  | none =>
      have hlast : (child p n).components.getLast? = some (.name n) := by
        rcases hchild p n hname with hc | ⟨-, hc⟩
        · rw [hc, List.getLast?_concat]
        · rw [hc]
          rfl
      refine .inr ⟨⟨?_, ?_, ?_⟩, ?_⟩
      · intro htext
        rw [(Path.components_eq_nil_iff _).mpr htext] at hlast
        cases hlast
      · intro hc
        rw [hc] at hlast
        cases hlast
      · intro m hm hmd
        rw [hchild.locate hname hl hm, hk.directory, hold] at hmd
        cases hmd
      · intro m hm
        rw [hchild.locate hname hl hm, hold]

/-- **NEW WAYS END AT NEW FILES**: a way was there before, or ends where something is new. -/
theorem Way.old_or_fresh (hchild : Names child) (hk : Keeps w v) (hv : v.tree.Proper)
    {p q : Path} {ns : List String} (h : Way v child p ns q) :
    Way w child p ns q ∨ Fresh w v q := by
  induction h with
  | stay p => exact .inl (.stay p)
  | @down p q n ns hn hway ih =>
      rcases hn.old_or_fresh hchild hk hv with hold | hfresh
      · exact ih.imp_left (.down hold)
      · -- nothing lies below what is new
        cases hway with
        | stay => exact .inr hfresh
        | down hm _ => exact absurd hm (hfresh.not_inside _)

/-- What lay below a path still does. -/
theorem mem_below_of_keeps (hchild : Names child) (hk : Keeps w v) (hw : w.tree.Proper)
    {p q : Path} (h : q ∈ w.below child w.tree.height p) :
    q ∈ v.below child v.tree.height p := by
  obtain ⟨ns, hne, -, hway⟩ := mem_below_iff.mp h
  exact mem_below_iff.mpr ⟨ns, hne, hway.length_le hchild hw hk.present, hway.of_keeps hk⟩

/-- What lies below a path did before, or it is fresh. -/
theorem mem_below_or_fresh (hchild : Names child) (hk : Keeps w v) (hw : w.tree.Proper)
    (hv : v.tree.Proper) {p q : Path} (h : q ∈ v.below child v.tree.height p) :
    q ∈ w.below child w.tree.height p ∨ Fresh w v q := by
  obtain ⟨ns, hne, -, hway⟩ := mem_below_iff.mp h
  refine (hway.old_or_fresh hchild hk hv).imp_left fun hold => ?_
  exact mem_below_iff.mpr ⟨ns, hne, hold.length_le hchild hw fun _ => id, hold⟩

theorem exists?_of_keeps (hk : Keeps w v) {p : Path} (h : w.exists? p = true) :
    v.exists? p = true := by
  obtain ⟨l, hl, htaken⟩ := exists?_iff.mp h
  exact exists?_iff.mpr ⟨l, (locate_of_later hk.toLater p l).mpr hl, hk.present l htaken⟩

/-- What exists now existed before, or is fresh. -/
theorem exists?_old_or_fresh (hk : Keeps w v) {p : Path} (h : v.exists? p = true) :
    w.exists? p = true ∨ Fresh w v p := by
  obtain ⟨l, hl, htaken⟩ := exists?_iff.mp h
  cases hold : w.tree.get? l with
  | some e =>
      exact .inl (exists?_iff.mpr
        ⟨l, (locate_of_later hk.toLater p l).mp hl, by rw [hold]; rintro ⟨⟩⟩)
  | none =>
      have hfile : v.tree.get? l ≠ some .directory := by
        rw [Ne, hk.directory, hold]
        rintro ⟨⟩
      refine .inr ⟨⟨(locate_eq_ok.mp hl).2.1, fun hc => hfile (locate_here hc hl), ?_⟩, ?_⟩
      · intro m hm
        rw [hl] at hm
        cases hm
        exact hfile
      · intro m hm
        rw [hl] at hm
        cases hm
        exact hold

theorem isDirectory_of_later (h : Later w v) (p : Path) : v.isDirectory p = w.isDirectory p := by
  rw [Bool.eq_iff_iff, isDirectory_eq_true, isDirectory_eq_true]
  simp only [locate_of_later h, h.directory]

end Workspace

/-! ## Patterns -/

namespace Glob

variable {w v : Workspace} {onlyDirectories : Bool}

theorem names_child : Names child := by
  intro p n hn
  rw [child]
  split
  · next hsame =>
    have hp : p.components = [.here] := of_decide_eq_true hsame
    refine .inr ⟨hp, ?_⟩
    rw [Path.components_eq, hn.steps_split, Path.anchor_eq (Text.split_of_not_mem hn.2.2),
      hn.isAbsolute, if_neg Bool.false_ne_true, if_neg]
    · rfl
    · rintro rfl
      exact absurd hn.1 (by decide)
  · exact .inl (Path.components_join_name p hn)

/-- One step of following a pattern: from a path with components left to another path with
    fewer of them. -/
inductive Step (w : Workspace) : List (List Token) → Path → List (List Token) → Path → Prop where
  | deep {ts next : List Token} {rest rest' : List (List Token)} {p q : Path} :
      isAnyDepth ts = true → rest.dropWhile isAnyDepth = next :: rest' →
      q ∈ w.below child w.tree.height p → matchesName next q = true →
      Step w (ts :: rest) p rest' q
  | literal {ts : List Token} {rest : List (List Token)} {p : Path} {cs : List Char} :
      isAnyDepth ts = false → literal? ts = some cs →
      (if String.ofList cs = "." ∨ String.ofList cs = ".." then w.isDirectory p
        else w.exists? (child p (String.ofList cs))) = true →
      Step w (ts :: rest) p rest (child p (String.ofList cs))
  | special {ts : List Token} {rest : List (List Token)} {p : Path} {name : String}
      {names : List String} :
      isAnyDepth ts = false → literal? ts = none → w.names? p = some names →
      startsWithPoint ts = true → name ∈ ["..", "."] → isMatch ts name = true →
      Step w (ts :: rest) p rest (p.join ⟨name⟩)
  | name {ts : List Token} {rest : List (List Token)} {p : Path} {n : String} :
      isAnyDepth ts = false → literal? ts = none → Inside w p n → isMatch ts n = true →
      Step w (ts :: rest) p rest (child p n)

/-- A pattern without components matches the path that was reached. -/
theorem mem_expandFrom_nil {p q : Path} :
    q ∈ expandFrom w onlyDirectories [] p ↔
      (!onlyDirectories || w.isDirectory p) = true ∧ q = p := by
  rw [expandFrom]
  split
  · next h => simp [h]
  · next h => simp [h]

section

variable {ts : List Token} {rest rest' : List (List Token)} {p q : Path}

/-- A component for any depth is matched together with the one behind it. -/
theorem Step.deep_iff (hts : isAnyDepth ts = true) : Step w (ts :: rest) p rest' q ↔
    ∃ next, rest.dropWhile isAnyDepth = next :: rest' ∧ q ∈ w.below child w.tree.height p ∧
      matchesName next q = true := by
  constructor
  · intro h
    cases h with
    | deep _ hrest hq hmatch => exact ⟨_, hrest, hq, hmatch⟩
    | literal hnot => rw [hts] at hnot; cases hnot
    | special hnot => rw [hts] at hnot; cases hnot
    | name hnot => rw [hts] at hnot; cases hnot
  · rintro ⟨next, hrest, hq, hmatch⟩
    exact .deep hts hrest hq hmatch

/-- A component that spells a name is that name, if it exists; no directory is listed for it. -/
theorem Step.literal_iff {name : List Char} (hts : isAnyDepth ts = false)
    (hname : literal? ts = some name) : Step w (ts :: rest) p rest' q ↔
      rest' = rest ∧ q = child p (String.ofList name) ∧
        (if String.ofList name = "." ∨ String.ofList name = ".." then w.isDirectory p
          else w.exists? (child p (String.ofList name))) = true := by
  constructor
  · intro h
    cases h with
    | deep hdeep => rw [hts] at hdeep; cases hdeep
    | literal _ hother hthere =>
        rw [hname] at hother
        cases hother
        exact ⟨rfl, rfl, hthere⟩
    | special _ hnone => rw [hname] at hnone; cases hnone
    | name _ hnone => rw [hname] at hnone; cases hnone
  · rintro ⟨rfl, rfl, hthere⟩
    exact .literal hts hname hthere

/-- Any other component is compared with the names in the directory, and with the points if it
starts with one. -/
theorem Step.names_iff (hts : isAnyDepth ts = false) (hnone : literal? ts = none) :
    Step w (ts :: rest) p rest' q ↔ rest' = rest ∧ ∃ names, w.names? p = some names ∧
      ((startsWithPoint ts = true ∧ ∃ name ∈ ["..", "."], isMatch ts name = true ∧
          q = p.join ⟨name⟩) ∨
        ∃ n ∈ names, isMatch ts n = true ∧ q = child p n) := by
  constructor
  · intro h
    cases h with
    | deep hdeep => rw [hts] at hdeep; cases hdeep
    | literal _ hsome => rw [hnone] at hsome; cases hsome
    | special _ _ hnames hpoint hname hmatch =>
        exact ⟨rfl, _, hnames, .inl ⟨hpoint, _, hname, hmatch, rfl⟩⟩
    | name _ _ hn hmatch =>
        obtain ⟨names, hnames, hn⟩ := mem_names?_iff.mpr hn
        exact ⟨rfl, names, hnames, .inr ⟨_, hn, hmatch, rfl⟩⟩
  · rintro ⟨rfl, names, hnames, ⟨hpoint, name, hname, hmatch, rfl⟩ | ⟨n, hn, hmatch, rfl⟩⟩
    · exact .special hts hnone hnames hpoint hname hmatch
    · exact .name hts hnone (mem_names?_iff.mp ⟨names, hnames, hn⟩) hmatch

/-- **FOLLOWING A PATTERN** takes one step, or ends with all directories below. -/
theorem mem_expandFrom_cons :
    q ∈ expandFrom w onlyDirectories (ts :: rest) p ↔
      (isAnyDepth ts = true ∧ rest.dropWhile isAnyDepth = [] ∧
        q ∈ w.below child w.tree.height p ∧ w.isDirectory q = true) ∨
      ∃ rest' r, Step w (ts :: rest) p rest' r ∧ q ∈ expandFrom w onlyDirectories rest' r := by
  rw [expandFrom]
  by_cases hdeep : isAnyDepth ts = true
  · rw [if_pos hdeep]
    simp only [Step.deep_iff hdeep]
    split
    · next hrest =>
      rw [List.mem_filter]
      constructor
      · exact fun hq => .inl ⟨hdeep, hrest, hq⟩
      · rintro (⟨-, -, hq⟩ | ⟨rest', r, ⟨next, hsome, -⟩, -⟩)
        · exact hq
        · rw [hrest] at hsome
          cases hsome
    · next next rest'' hrest =>
      rw [List.mem_flatMap]
      constructor
      · rintro ⟨r, hr, hq⟩
        obtain ⟨hmatch, hq⟩ := List.mem_ite_nil_right.mp hq
        exact .inr ⟨_, r, ⟨next, hrest, hr, hmatch⟩, hq⟩
      · rintro (⟨-, hnone, -⟩ | ⟨rest', r, ⟨next', hsome, hr, hmatch⟩, hq⟩)
        · rw [hrest] at hnone
          cases hnone
        · rw [hrest] at hsome
          cases hsome
          exact ⟨r, hr, List.mem_ite_nil_right.mpr ⟨hmatch, hq⟩⟩
  · rw [if_neg hdeep, or_iff_right fun hand => hdeep hand.1]
    rw [Bool.not_eq_true] at hdeep
    split
    · next name hname =>
      simp only [Step.literal_iff hdeep hname]
      constructor
      · intro hq
        obtain ⟨hthere, hq⟩ := List.mem_ite_nil_right.mp hq
        exact ⟨rest, _, ⟨rfl, rfl, hthere⟩, hq⟩
      · rintro ⟨rest', r, ⟨rfl, rfl, hthere⟩, hq⟩
        exact List.mem_ite_nil_right.mpr ⟨hthere, hq⟩
    · next hnone =>
      simp only [Step.names_iff hdeep hnone]
      cases hnames : w.names? p with
      | none =>
          refine iff_of_false List.not_mem_nil ?_
          rintro ⟨rest', r, ⟨-, names, hsome, -⟩, -⟩
          cases hsome
      | some names =>
          dsimp only
          rw [List.mem_append, List.mem_flatMap, List.mem_flatMap]
          constructor
          · rintro (⟨name, hname, hq⟩ | ⟨n, hn, hq⟩)
            · obtain ⟨hpoint, hname⟩ := List.mem_ite_nil_right.mp hname
              obtain ⟨hname, hmatch⟩ := List.mem_filter.mp hname
              exact ⟨rest, _, ⟨rfl, names, rfl, .inl ⟨hpoint, name, hname, hmatch, rfl⟩⟩, hq⟩
            · obtain ⟨hmatch, hq⟩ := List.mem_ite_nil_right.mp hq
              exact ⟨rest, _, ⟨rfl, names, rfl, .inr ⟨n, hn, hmatch, rfl⟩⟩, hq⟩
          · rintro ⟨rest', r, ⟨rfl, names', hsome, hways⟩, hq⟩
            cases hsome
            rcases hways with ⟨hpoint, name, hname, hmatch, rfl⟩ | ⟨n, hn, hmatch, rfl⟩
            · exact .inl ⟨name, List.mem_ite_nil_right.mpr
                ⟨hpoint, List.mem_filter.mpr ⟨hname, hmatch⟩⟩, hq⟩
            · exact .inr ⟨n, hn, List.mem_ite_nil_right.mpr ⟨hmatch, hq⟩⟩

end

variable {cs cs' : List (List Token)} {p q : Path}

/-- Every step uses up a component. -/
theorem Step.suffix (h : Step w cs p cs' q) : cs' <:+ cs ∧ cs'.length < cs.length := by
  cases h with
  | @deep ts next rest _ _ _ _ hrest =>
      have hsuffix : next :: cs' <:+ rest := hrest ▸ List.dropWhile_suffix _
      have hcs : cs' <:+ rest := (List.suffix_cons next cs').trans hsuffix
      exact ⟨hcs.trans (List.suffix_cons ts rest), Nat.lt_succ_of_le hcs.length_le⟩
  | literal => exact ⟨List.suffix_cons _ cs', Nat.lt_succ_self _⟩
  | special => exact ⟨List.suffix_cons _ cs', Nat.lt_succ_self _⟩
  | name => exact ⟨List.suffix_cons _ cs', Nat.lt_succ_self _⟩

/-- What stands for one name has no slash in it. -/
def Slashless (cs : List (List Token)) : Prop :=
  ∀ ts ∈ cs, ∀ name, literal? ts = some name → '/' ∉ name

theorem Slashless.step (h : Slashless cs) (hstep : Step w cs p cs' q) : Slashless cs' :=
  fun ts hts => h ts (hstep.suffix.1.subset hts)

/-- No step leads on from where nothing lies below. -/
theorem Step.not_barren (h : Step w cs p cs' q) (hcs : Slashless cs) : ¬ Barren w p := by
  intro hp
  cases h with
  | deep _ _ hq =>
      rw [hp.below] at hq
      cases hq
  | @literal ts rest _ name _ hname hthere =>
      split at hthere
      · rw [hp.isDirectory] at hthere
        cases hthere
      · -- the name is joined to the path, which leads to no directory
        have hsame : p.same ⟨"."⟩ = false := by
          rw [← Bool.not_eq_true]
          exact fun hsame => hp.elsewhere (of_decide_eq_true hsame)
        rw [child, hsame, if_neg Bool.false_ne_true] at hthere
        obtain ⟨m, hm, -⟩ := exists?_iff.mp hthere
        have habs : (Path.mk (String.ofList name)).isAbsolute = false := by
          rw [← Bool.not_eq_true, Path.isAbsolute_iff]
          rintro ⟨t, ht⟩
          refine hcs ts List.mem_cons_self name hname ?_
          rw [String.toList_ofList] at ht
          rw [ht]
          exact List.mem_cons_self
        obtain ⟨l, hl, hd, -⟩ := locate_join hp.text habs hm
        exact hp.directory l hl hd
  | special _ _ hnames =>
      rw [hp.names?] at hnames
      cases hnames
  | name _ _ hn => exact hp.not_inside _ hn

/-- A step that was possible still is. -/
theorem Step.of_keeps (hk : Keeps w v) (hw : w.tree.Proper) (h : Step w cs p cs' q) :
    Step v cs p cs' q := by
  cases h with
  | deep hts hrest hq hmatch =>
      exact .deep hts hrest (mem_below_of_keeps names_child hk hw hq) hmatch
  | literal hts hname hthere =>
      refine .literal hts hname ?_
      split at hthere
      · next hpoint =>
        rw [if_pos hpoint, isDirectory_of_later hk.toLater]
        exact hthere
      · next hpoint =>
        rw [if_neg hpoint]
        exact exists?_of_keeps hk hthere
  | special hts hnone hnames hpoint hname hmatch =>
      obtain ⟨l, hl, hd, -⟩ := names?_eq_some.mp hnames
      exact .special hts hnone (names?_eq_some.mpr ⟨l, (locate_of_later hk.toLater p l).mpr hl,
        (hk.directory l).mpr hd, rfl⟩) hpoint hname hmatch
  | name hts hnone hn hmatch => exact .name hts hnone (hn.of_keeps hk) hmatch

/-- A step that could not be taken before ends where something is new. -/
theorem Step.old_or_fresh (hk : Keeps w v) (hw : w.tree.Proper) (hv : v.tree.Proper)
    (h : Step v cs p cs' q) : Step w cs p cs' q ∨ Fresh w v q := by
  cases h with
  | deep hts hrest hq hmatch =>
      exact (mem_below_or_fresh names_child hk hw hv hq).imp_left
        fun hq => .deep hts hrest hq hmatch
  | @literal ts rest _ name hts hname hthere =>
      split at hthere
      · next hpoint =>
        refine .inl (.literal hts hname ?_)
        rw [if_pos hpoint, ← isDirectory_of_later hk.toLater]
        exact hthere
      · next hpoint =>
        refine (exists?_old_or_fresh hk hthere).imp_left fun hold => .literal hts hname ?_
        rw [if_neg hpoint]
        exact hold
  | special hts hnone hnames hpoint hname hmatch =>
      obtain ⟨l, hl, hd, -⟩ := names?_eq_some.mp hnames
      exact .inl (.special hts hnone (names?_eq_some.mpr
        ⟨l, (locate_of_later hk.toLater p l).mp hl, (hk.directory l).mp hd, rfl⟩) hpoint hname
        hmatch)
  | name hts hnone hn hmatch =>
      exact (hn.old_or_fresh names_child hk hv).imp_left fun hold => .name hts hnone hold hmatch

/-- What a pattern names from a path with nothing below is that path. -/
theorem eq_of_mem_expandFrom (hp : Barren w p) (hcs : Slashless cs)
    (h : q ∈ expandFrom w onlyDirectories cs p) : q = p := by
  cases cs with
  | nil => exact (mem_expandFrom_nil.mp h).2
  | cons ts rest =>
      rcases mem_expandFrom_cons.mp h with ⟨-, -, hq, -⟩ | ⟨rest', r, hstep, -⟩
      · rw [hp.below] at hq
        cases hq
      · exact absurd hp (hstep.not_barren hcs)

/-- **THE SAME DIRECTORIES**: adding files changes nothing about the directories that a
    pattern names. -/
theorem mem_expandFrom_iff (hk : Keeps w v) (hw : w.tree.Proper) (hv : v.tree.Proper)
    (hcs : Slashless cs) :
    (q ∈ expandFrom v onlyDirectories cs p ∧ v.isDirectory q = true) ↔
      q ∈ expandFrom w onlyDirectories cs p ∧ w.isDirectory q = true := by
  rw [isDirectory_of_later hk.toLater]
  refine and_congr_left fun hd => ?_
  induction hlen : cs.length using Nat.strongRecOn generalizing cs p with
  | _ n ih =>
      cases cs with
      | nil => rw [mem_expandFrom_nil, mem_expandFrom_nil, isDirectory_of_later hk.toLater]
      | cons ts rest =>
          rw [mem_expandFrom_cons, mem_expandFrom_cons]
          refine or_congr ?_ ?_
          · -- all directories below
            rw [isDirectory_of_later hk.toLater]
            refine and_congr_right fun _ => and_congr_right fun _ => and_congr_left fun _ => ?_
            refine ⟨fun hq => ?_, mem_below_of_keeps names_child hk hw⟩
            refine (mem_below_or_fresh names_child hk hw hv hq).resolve_right fun hfresh => ?_
            rw [← isDirectory_of_later hk.toLater, hfresh.isDirectory] at hd
            cases hd
          · constructor
            · rintro ⟨rest', r, hstep, hq⟩
              rcases hstep.old_or_fresh hk hw hv with hold | hfresh
              · exact ⟨rest', r, hold,
                  (ih _ (hlen ▸ hstep.suffix.2) (hcs.step hstep) rfl).mp hq⟩
              · -- from what is new a pattern leads to no directory
                rw [eq_of_mem_expandFrom hfresh.toBarren (hcs.step hstep) hq,
                  ← isDirectory_of_later hk.toLater, hfresh.isDirectory] at hd
                cases hd
            · rintro ⟨rest', r, hstep, hq⟩
              exact ⟨rest', r, hstep.of_keeps hk hw,
                (ih _ (hlen ▸ hstep.suffix.2) (hcs.step hstep) rfl).mpr hq⟩

/-! ## Whole patterns -/

/-- A class is no character. -/
theorem class?_ne_char {text : List Char} {token : Token} {n : Nat}
    (h : class? text = some (token, n)) (c : Char) : token ≠ .char c := by
  rintro rfl
  unfold class? at h
  split at h
  · obtain ⟨⟨body, m⟩, -, he⟩ := Option.map_eq_some_iff.mp h
    cases he
  · obtain ⟨⟨body, m⟩, -, he⟩ := Option.map_eq_some_iff.mp h
    cases he

/-- A character among tokens that start with something else is among the others. -/
theorem mem_rest_of_mem {first : Token} {rest? : Option (List Token)} {ts : List Token} {c : Char}
    (hne : first ≠ .char c) (h : rest?.map (first :: ·) = some ts) (hc : .char c ∈ ts) :
    ∃ rest, rest? = some rest ∧ .char c ∈ rest := by
  obtain ⟨rest, hrest, rfl⟩ := Option.map_eq_some_iff.mp h
  exact ⟨rest, hrest, (List.mem_cons.mp hc).resolve_left fun he => hne he.symm⟩

/-- The characters among tokens are characters of the pattern. -/
theorem mem_of_char_mem_tokens {before : Option Char} {text : List Char} {ts : List Token}
    (h : tokensFrom before text = some ts) {c : Char} (hc : .char c ∈ ts) : c ∈ text := by
  fun_induction tokensFrom before text generalizing ts with
  | case1 => cases h; cases hc
  | case2 _ _ ih =>
      obtain ⟨rest, hrest, hmem⟩ := mem_rest_of_mem (by rintro ⟨⟩) h hc
      exact List.mem_cons_of_mem _ (ih hrest hmem)
  | case3 _ _ _ _ ih =>
      obtain ⟨rest, hrest, hmem⟩ := mem_rest_of_mem (by rintro ⟨⟩) h hc
      exact List.mem_cons_of_mem _ (ih hrest hmem)
  | case4 =>
      cases h
      cases List.mem_singleton.mp hc
  | case5 _ _ _ _ _ _ _ ih =>
      obtain ⟨rest, hrest, hmem⟩ := mem_rest_of_mem (by rintro ⟨⟩) h hc
      exact List.mem_cons_of_mem _ (List.mem_of_mem_drop (ih hrest hmem))
  | case6 => cases h
  | case7 => cases h
  | case8 => cases h
  | case9 => cases h
  | case10 _ _ _ _ hclass _ _ ih =>
      obtain ⟨rest, hrest, hmem⟩ := mem_rest_of_mem (class?_ne_char hclass c) h hc
      exact List.mem_cons_of_mem _ (List.mem_of_mem_drop (ih hrest hmem))
  | case11 _ d _ _ _ _ ih =>
      by_cases hd : d = c
      · subst hd
        exact List.mem_cons_self
      · obtain ⟨rest, hrest, hmem⟩ := mem_rest_of_mem (fun he => hd (Token.char.inj he)) h hc
        exact List.mem_cons_of_mem _ (ih hrest hmem)

theorem mem_of_mem_literal {ts : List Token} {cs : List Char} (h : literal? ts = some cs) {c : Char}
    (hc : c ∈ cs) : .char c ∈ ts := by
  induction ts generalizing cs with
  | nil => cases h; cases hc
  | cons t rest ih =>
      cases t with
      | char d =>
          obtain ⟨ds, hds, rfl⟩ := Option.map_eq_some_iff.mp h
          rcases List.mem_cons.mp hc with rfl | hc
          · exact List.mem_cons_self
          · exact List.mem_cons_of_mem _ (ih hds hc)
      | _ => cases h

/-- What is read of a list has a source in the list. -/
theorem exists_of_mem_mapM {α β : Type} {f : α → Option β} {xs : List α} {ys : List β}
    (h : xs.mapM f = some ys) {y : β} (hy : y ∈ ys) : ∃ x ∈ xs, f x = some y := by
  induction xs generalizing ys with
  | nil =>
      cases h
      cases hy
  | cons x rest ih =>
      rw [List.mapM_cons] at h
      obtain ⟨z, hz, h⟩ := Option.bind_eq_some_iff.mp h
      obtain ⟨zs, hzs, h⟩ := Option.bind_eq_some_iff.mp h
      cases h
      rcases List.mem_cons.mp hy with rfl | hy
      · exact ⟨x, List.mem_cons_self, hz⟩
      · obtain ⟨x', hx', hfx⟩ := ih hzs hy
        exact ⟨x', List.mem_cons_of_mem _ hx', hfx⟩

/-- No component that was read holds a separator. -/
theorem slashless_of_mapM {pattern : String} {cs : List (List Token)}
    (h : (componentTexts pattern).mapM tokens? = some cs) : Slashless cs := by
  intro ts hts name hname hslash
  obtain ⟨piece, hpiece, htokens⟩ := exists_of_mem_mapM h hts
  have hmem := mem_of_char_mem_tokens htokens (mem_of_mem_literal hname hslash)
  have hsub : componentTexts pattern ⊆ Text.split '/' pattern := by
    have htail : ∀ pieces : List String,
        (if pattern.startsWith "/" = true then pieces.tail else pieces) ⊆ pieces := by
      intro pieces
      split
      · exact (List.tail_sublist pieces).subset
      · exact List.Subset.refl pieces
    have hlast : ∀ pieces : List String,
        (if pieces.getLast? = some "" then pieces.dropLast else pieces) ⊆ pieces := by
      intro pieces
      split
      · exact List.dropLast_subset pieces
      · exact List.Subset.refl pieces
    exact List.Subset.trans (hlast _) (htail _)
  exact Text.not_mem_of_mem_split (hsub hpiece) hmem

/-- **THE SAME DIRECTORIES** are named by a whole pattern before and after files are added. -/
theorem mem_expand?_iff (hk : Keeps w v) (hw : w.tree.Proper) (hv : v.tree.Proper)
    (pattern : String) {q : Path} :
    (q ∈ (expand? v pattern).getD [] ∧ v.isDirectory q = true) ↔
      q ∈ (expand? w pattern).getD [] ∧ w.isDirectory q = true := by
  rw [expand?, expand?]
  cases tokens? pattern with
  | none => exact iff_of_false (fun h => List.not_mem_nil h.1) (fun h => List.not_mem_nil h.1)
  | some whole =>
      cases hcs : (componentTexts pattern).mapM tokens? with
      | none => exact iff_of_false (fun h => List.not_mem_nil h.1) (fun h => List.not_mem_nil h.1)
      | some cs => exact mem_expandFrom_iff hk hw hv (slashless_of_mapM hcs)

end Glob

end MessageKeys
