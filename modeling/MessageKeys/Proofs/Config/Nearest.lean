import MessageKeys.Config.Discovery
import MessageKeys.Proofs.Path.Parent
import MessageKeys.Proofs.Place
import Mathlib.Data.List.Induction

/-! # The nearest configuration — the search against the directories above

    The configuration of a directory is that of the nearest directory above it that has one,
    unless `.git` is nearer (`Governs`).  The search does not go up in the tree: it goes back
    along the steps of the path it is given.  A step back from a name leads up, a step back from
    `..` leads down, and a relative path ends in the current directory (`wayBack`).

    Each step leads to the next directory up or down, so on the way back no directory above the
    start is left out before one that lies above it (`mem_of_passed`).  Hence the search never
    takes the configuration of the wrong directory above: if it is wrong, what it found lies
    beside the way up, or it found nothing (`right_iff`). -/

namespace MessageKeys

/-! ## Looking for a name beside a path -/

namespace Workspace

open MessageKeys.Path (steps)

variable {w : Workspace} {p q : Path} {d : Location} {n : String}

/-- Where the segments of a path start. -/
def base (w : Workspace) (p : Path) : Location := if p.isAbsolute then [] else w.here

/-- The steps of a path lead to a directory, and no name in it that is at most as long as the
    given one makes the path too long. -/
structure Reaches (w : Workspace) (p : Path) (n : String) (d : Location) : Prop where
  start : w.tree.get? (w.base p) = some .directory
  follows : follow w.tree (w.base p) ((steps (Text.split '/' p.text)).map Path.Component.text)
    = .ok d
  directory : w.tree.get? d = some .directory
  noNul : Char.ofNat 0 ∉ p.text.toList
  fits : (p.join ⟨n⟩).text.utf8ByteSize ≤ maxPathSize

theorem Reaches.eq_place (h : w.Reaches p n d) :
    d = Path.place (w.base p) (steps (Text.split '/' p.text)) := by
  rw [follow_ok h.follows, Path.steps_texts fun c => Path.behind_steps]

theorem reaches_of_locate (hl : w.locate p = .ok d) (hd : w.tree.get? d = some .directory)
    (hfits : (p.join ⟨n⟩).text.utf8ByteSize ≤ maxPathSize) : w.Reaches p n d := by
  obtain ⟨hnul, -, -, hfollow⟩ := locate_eq_ok.mp hl
  refine ⟨?_, ?_, hd, hnul, hfits⟩
  · cases hsplit : Text.split '/' p.text with
    | nil => exact absurd hsplit (Text.split_ne_nil _ _)
    | cons s rest =>
        rw [hsplit] at hfollow
        exact follow_directory hfollow
  · rw [Path.texts_steps]
    exact follow_filter (fun s hs => by simpa using hs) hfollow

/-- A short name is looked for in the directory that a path reaches. -/
theorem Reaches.locate_join {m : String} (h : w.Reaches p n d) (hn : (Path.mk n).isAbsolute = false)
    (hm : Path.IsName m) (hnul : Char.ofNat 0 ∉ m.toList)
    (hshort : m.utf8ByteSize ≤ maxNameSize) (hsize : m.utf8ByteSize ≤ n.utf8ByteSize) :
    w.locate (p.join ⟨m⟩) = .ok (d ++ [m]) := by
  have hfits := (Path.join_size_le hm.isAbsolute hn hsize).trans h.fits
  by_cases hp : p.text = ""
  · -- the name alone, looked for in the current directory
    have hjoin : p.join ⟨m⟩ = ⟨m⟩ := by
      rw [Path.join, hm.isAbsolute, if_neg Bool.false_ne_true, if_pos (.inl hp), hp,
        String.empty_append]
    obtain ⟨text⟩ := p
    subst hp
    have hd : d = w.here := (Except.ok.inj h.follows).symm
    have hne : m ≠ "" := fun he => absurd hm.1 (by rw [he]; decide)
    rw [hjoin] at hfits ⊢
    refine locate_eq_ok.mpr ⟨hnul, hne, hfits, ?_⟩
    rw [hm.isAbsolute, if_neg Bool.false_ne_true, Text.split_of_not_mem hm.2.2, ← hd]
    exact enter_name hm hshort h.directory
  · have hfollows := h.follows
    rw [Path.texts_steps] at hfollows
    refine locate_join_name (locate_eq_ok.mpr ⟨h.noNul, hp, ?_, ?_⟩) h.directory hm hnul hshort hfits
    · exact (Path.size_le_join p hm.isAbsolute).trans hfits
    · exact follow_of_filter (fun s hs => by simpa using hs) h.start h.directory hfollows

/-- The parent of a path reaches a directory too. -/
theorem Reaches.parent? (h : w.Reaches p n d) (hn : (Path.mk n).isAbsolute = false)
    (hq : p.parent? = some q) : w.base q = w.base p ∧ ∃ e, w.Reaches q n e := by
  obtain ⟨habs, hsteps⟩ := Path.steps_parent? hq
  obtain ⟨more, -, htext⟩ := Path.text_parent? hq
  have hbase : w.base q = w.base p := by rw [base, base, habs]
  have hnoNul : Char.ofNat 0 ∉ q.text.toList := by
    have := h.noNul
    rw [htext, String.toList_append, List.mem_append, not_or] at this
    exact this.1
  have hfits := (Path.join_size_parent? hq hn).trans h.fits
  refine ⟨hbase, ?_⟩
  have hfollows := h.follows
  rcases List.eq_nil_or_concat (steps (Text.split '/' p.text)) with hnone | ⟨init, c, hlast⟩
  · rw [hnone] at hsteps hfollows
    exact ⟨d, hbase ▸ h.start, by rw [hsteps, hbase]; exact hfollows, h.directory, hnoNul, hfits⟩
  · -- the last step was made in a directory
    rw [List.concat_eq_append] at hlast
    rw [hlast, List.dropLast_concat] at hsteps
    rw [hlast, List.map_append, follow_append] at hfollows
    cases hinit : follow w.tree (w.base p) (init.map Path.Component.text) with
    | error fault => rw [hinit] at hfollows; cases hfollows
    | ok e =>
        rw [hinit] at hfollows
        exact ⟨e, hbase ▸ h.start, by rw [hsteps, hbase]; exact hinit, follow_directory hfollows,
          hnoNul, hfits⟩

end Workspace

namespace Config

open Workspace
open MessageKeys.Path (Component place steps)

variable {w : Workspace} {start p : Path} {l d e m : Location} {ds : List Location}

/-! ## The configuration of a directory -/

/-- Something of the name stands in the directory. -/
def Holds (w : Workspace) (d : Location) (n : String) : Prop := w.tree.get? (d ++ [n]) ≠ none

/-- Nothing in the directory ends the search. -/
def Bare (w : Workspace) (d : Location) : Prop := ¬ Holds w d fileName ∧ ¬ Holds w d ".git"

/-- The nearest directory from one up that has a configuration; no directory that is nearer
    holds `.git`. -/
structure Governs (w : Workspace) (l d : Location) : Prop where
  above : d <+: l
  holds : Holds w d fileName
  nearest : ∀ m, d <+: m → m <+: l → m ≠ d → Bare w m

/-- One directory at most governs. -/
theorem Governs.unique (hd : Governs w l d) (he : Governs w l e) : d = e := by
  by_contra hne
  rcases List.prefix_or_prefix_of_prefix hd.above he.above with h | h
  · exact (hd.nearest e h he.above (Ne.symm hne)).1 he.holds
  · exact (he.nearest d h hd.above hne).1 hd.holds

/-! ## The way back -/

/-- The directories from where components lead back to where they start. -/
def wayBack (d : Location) : List Component → List Location
  | [] => [d]
  | c :: rest => wayBack (c.from d) rest ++ [d]

theorem wayBack_concat (d : Location) (cs : List Component) (c : Component) :
    wayBack d (cs ++ [c]) = place d (cs ++ [c]) :: wayBack d cs := by
  induction cs generalizing d with
  | nil => rfl
  | cons first rest ih =>
      rw [List.cons_append, wayBack, ih, wayBack]
      rfl

theorem wayBack_head (d : Location) (cs : List Component) :
    ∃ rest, wayBack d cs = place d cs :: rest := by
  rcases List.eq_nil_or_concat cs with rfl | ⟨init, c, rfl⟩
  · exact ⟨[], rfl⟩
  · rw [List.concat_eq_append, wayBack_concat]
    exact ⟨_, rfl⟩

/-- The directories that the search passes if nothing ends it, in their order. -/
def passed (w : Workspace) (start : Path) : List Location :=
  wayBack (w.base start) (steps (Text.split '/' start.text))

/-- The first of some directories that has a configuration; none before it ends the search. -/
def Met (w : Workspace) (ds : List Location) (d : Location) : Prop :=
  ∃ nearer further, ds = nearer ++ d :: further ∧ Holds w d fileName ∧ ∀ m ∈ nearer, Bare w m

theorem met_cons : Met w (e :: ds) d ↔ Holds w e fileName ∧ d = e ∨ Bare w e ∧ Met w ds d := by
  constructor
  · rintro ⟨nearer, further, heq, hholds, hbare⟩
    cases nearer with
    | nil =>
        obtain ⟨rfl, -⟩ := List.cons.inj heq
        exact .inl ⟨hholds, rfl⟩
    | cons a nearer =>
        obtain ⟨rfl, hrest⟩ := List.cons.inj heq
        obtain ⟨ha, hbare⟩ := List.forall_mem_cons.mp hbare
        exact .inr ⟨ha, nearer, further, hrest, hholds, hbare⟩
  · rintro (⟨hholds, rfl⟩ | ⟨ha, nearer, further, heq, hholds, hbare⟩)
    · exact ⟨[], ds, rfl, hholds, fun _ hm => absurd hm List.not_mem_nil⟩
    · exact ⟨e :: nearer, further, congrArg (e :: ·) heq, hholds,
        List.forall_mem_cons.mpr ⟨ha, hbare⟩⟩

theorem not_met_nil : ¬ Met w [] d := by
  rintro ⟨nearer, further, heq, -⟩
  exact absurd heq.symm (List.append_ne_nil_of_right_ne_nil _ (List.cons_ne_nil _ _))

theorem Met.unique (hd : Met w ds d) (he : Met w ds e) : d = e := by
  induction ds with
  | nil => exact absurd hd not_met_nil
  | cons a ds ih =>
      rcases met_cons.mp hd with ⟨ha, rfl⟩ | ⟨hbare, hd⟩
      · rcases met_cons.mp he with ⟨-, rfl⟩ | ⟨hbare, -⟩
        · rfl
        · exact absurd ha hbare.1
      · rcases met_cons.mp he with ⟨ha, -⟩ | ⟨-, he⟩
        · exact absurd ha hbare.1
        · exact ih hd he

/-- The answer is the configuration of a directory of the kind, and none if there is no such
    directory. -/
def Answers (w : Workspace) (kind : Location → Prop) : Option Path → Prop
  | some f => ∃ d, kind d ∧ w.locate f = .ok (d ++ [fileName])
  | none => ∀ d, ¬ kind d

theorem answers_congr {kind kind' : Location → Prop} (h : ∀ d, kind d ↔ kind' d)
    (r : Option Path) : Answers w kind r ↔ Answers w kind' r := by
  cases r with
  | none => exact forall_congr' fun d => not_congr (h d)
  | some f => exact exists_congr fun d => and_congr_left' (h d)

theorem passed_of_reaches (h : w.Reaches p fileName d) : ∃ rest, passed w p = d :: rest := by
  rw [h.eq_place]
  exact wayBack_head _ _

/-- Only a path that goes no step has no parent. -/
theorem passed_of_parent?_eq_none (h : p.parent? = none) : passed w p = [w.base p] := by
  have hnone : steps (Text.split '/' p.text) = [] := by
    rcases Path.components_of_parent?_eq_none h with hp | hp
    · have hempty : p.components = Path.Anchor.components .none ++ [] := hp
      exact (Path.start_of_components (fun _ hc => absurd hc List.not_mem_nil) hempty).2
    · have hroot : p.components = Path.Anchor.components .root ++ [] := hp
      exact (Path.start_of_components (fun _ hc => absurd hc List.not_mem_nil) hroot).2
  rw [passed, hnone]
  rfl

/-- The way back from a parent is the rest of the way back, or the same if there are no steps. -/
theorem passed_parent? {q : Path} (h : p.parent? = some q) (hbase : w.base q = w.base p) :
    passed w q = passed w p ∨ ∃ d, passed w p = d :: passed w q := by
  obtain ⟨-, hsteps⟩ := Path.steps_parent? h
  rw [passed, passed, hbase, hsteps]
  rcases List.eq_nil_or_concat (steps (Text.split '/' p.text)) with hnone | ⟨init, c, hlast⟩
  · rw [hnone]
    exact .inl rfl
  · rw [hlast, List.concat_eq_append, List.dropLast_concat, wayBack_concat]
    exact .inr ⟨_, rfl⟩

/-- One look: what is found ends the search, and it goes on with the rest of the way if nothing
    ends it there. -/
theorem answers_look {r : Option Path} (h : w.Reaches p fileName d)
    (hr : Bare w d → Answers w (Met w (passed w p)) r) :
    Answers w (Met w (passed w p))
      (if w.exists? (p.join ⟨fileName⟩) then some (p.join ⟨fileName⟩)
        else if w.exists? (p.join ⟨".git"⟩) then none else r) := by
  have hname : Path.IsName fileName := by decide
  have hfile := h.locate_join hname.isAbsolute hname (by decide) (by decide) (by decide)
  have hgit := h.locate_join hname.isAbsolute (m := ".git") (by decide) (by decide) (by decide)
    (by decide)
  have hholds : ∀ {q : Path} {n : String}, w.locate q = .ok (d ++ [n]) →
      (w.exists? q = true ↔ Holds w d n) := by
    intro q n hq
    rw [exists?_iff, hq]
    exact ⟨fun ⟨_, hl, htaken⟩ => by rwa [← Except.ok.inj hl] at htaken, fun h => ⟨_, rfl, h⟩⟩
  obtain ⟨rest, hrest⟩ := passed_of_reaches h
  rw [hrest] at hr ⊢
  split
  · next hthere => exact ⟨d, met_cons.mpr (.inl ⟨(hholds hfile).mp hthere, rfl⟩), hfile⟩
  · next hnone =>
    rw [hholds hfile] at hnone
    split
    · next hthere =>
      intro e he
      rcases met_cons.mp he with ⟨hconfig, -⟩ | ⟨hbare, -⟩
      · exact hnone hconfig
      · exact hbare.2 ((hholds hgit).mp hthere)
    · next hnoGit => exact hr ⟨hnone, fun hgit' => hnoGit ((hholds hgit).mpr hgit')⟩

/-- Without a parent the first look is the only one. -/
theorem findFrom_of_parent?_eq_none (n : Nat) (h : w.Reaches p fileName d)
    (hq : p.parent? = none) : Answers w (Met w (passed w p)) (findFrom w n p) := by
  have hlook : findFrom w n p = if w.exists? (p.join ⟨fileName⟩) then some (p.join ⟨fileName⟩)
      else if w.exists? (p.join ⟨".git"⟩) then none else none := by
    unfold findFrom
    rw [hq]
    cases n <;> rfl
  rw [hlook]
  refine answers_look h fun hbare => ?_
  obtain ⟨rest, hrest⟩ := passed_of_reaches h
  have hlast : passed w p = [w.base p] := passed_of_parent?_eq_none hq
  rw [hrest] at hlast
  obtain ⟨-, rfl⟩ := List.cons.inj hlast
  rw [hrest]
  intro e he
  rcases met_cons.mp he with ⟨hconfig, -⟩ | ⟨-, hmet⟩
  · exact hbare.1 hconfig
  · exact not_met_nil hmet

/-- **ALONG THE WAY BACK**: the search answers with the first configuration on it. -/
theorem findFrom_answers (n : Nat) (h : w.Reaches p fileName d) (hn : p.components.length ≤ n) :
    Answers w (Met w (passed w p)) (findFrom w n p) := by
  induction n generalizing p d with
  | zero =>
      refine findFrom_of_parent?_eq_none 0 h (Option.eq_none_iff_forall_ne_some.mpr fun q hq => ?_)
      have := Path.length_parent? hq
      omega
  | succ n ih =>
      cases hq : p.parent? with
      | none => exact findFrom_of_parent?_eq_none (n + 1) h hq
      | some q =>
          unfold findFrom
          rw [hq]
          refine answers_look h fun hbare => ?_
          have hname : Path.IsName fileName := by decide
          obtain ⟨hbase, e, he⟩ := h.parent? hname.isAbsolute hq
          have hrec := ih he (by have := Path.length_parent? hq; omega)
          rcases passed_parent? hq hbase with hsame | ⟨d', hback⟩
          · rw [← hsame]
            exact hrec
          · obtain ⟨rest, hrest⟩ := passed_of_reaches h
            rw [hback] at hrest ⊢
            obtain rfl := (List.cons.inj hrest).1
            exact (answers_congr (fun e => by simp [met_cons, hbare, hbare.1]) _).mp hrec

/-! ## The way back and the way up -/

/-- What lies above a directory on the way back is this directory, or lies above the next one. -/
theorem prefix_of_step {c : Component} (hc : c ≠ .root) (h : m <+: c.from d) :
    m = c.from d ∨ m <+: d := by
  cases c with
  | root => exact absurd rfl hc
  | here => exact .inr h
  | up => exact .inr (h.trans (List.dropLast_prefix d))
  | name n => exact List.prefix_concat_iff.mp h

/-- **NO DIRECTORY IS LEFT OUT**: a directory above the start was passed before any one that it
    does not lie above. -/
theorem mem_of_passed {cs : List Component} {nearer further : List Location}
    (hcs : Component.root ∉ cs) (h : wayBack d cs = nearer ++ e :: further)
    (hm : m <+: place d cs) (hne : ¬ m <+: e) : m ∈ nearer := by
  induction cs using List.reverseRecOn generalizing nearer with
  | nil =>
      cases nearer with
      | nil =>
          obtain ⟨rfl, -⟩ := List.cons.inj h
          exact absurd hm hne
      | cons a nearer => cases nearer <;> cases h
  | append_singleton cs c ih =>
      rw [wayBack_concat] at h
      rw [Path.place_append] at hm h
      have hc : c ≠ .root := fun he => hcs (he ▸ List.mem_append_right _ List.mem_cons_self)
      cases nearer with
      | nil =>
          obtain ⟨rfl, -⟩ := List.cons.inj h
          exact absurd hm hne
      | cons a nearer =>
          obtain ⟨rfl, hrest⟩ := List.cons.inj h
          rcases prefix_of_step hc hm with hthis | hback
          · exact hthis ▸ List.mem_cons_self
          · exact List.mem_cons_of_mem _
              (ih (fun hroot => hcs (List.mem_append_left _ hroot)) hrest hback)

/-- What is found above the start is what governs it. -/
theorem Met.governs {cs : List Component} (hcs : Component.root ∉ cs)
    (h : Met w (wayBack d cs) e) (habove : e <+: place d cs) : Governs w (place d cs) e := by
  obtain ⟨nearer, further, hback, hholds, hbare⟩ := h
  refine ⟨habove, hholds, fun m hem hm hne => hbare m (mem_of_passed hcs hback hm fun hme => ?_)⟩
  exact hne (List.IsPrefix.eq_of_length hme (Nat.le_antisymm hme.length_le hem.length_le))

/-! ## The search against the way up -/

theorem root_not_mem_steps (p : Path) : Component.root ∉ steps (Text.split '/' p.text) :=
  fun h => (Path.behind_steps h).not_mem_anchor .root List.mem_cons_self

theorem governs_of_met (h : w.Reaches start fileName l) (hmet : Met w (passed w start) d)
    (habove : d <+: l) : Governs w l d := by
  rw [h.eq_place] at habove ⊢
  exact hmet.governs (root_not_mem_steps start) habove

/-- The search answers with the configuration that governs the directory. -/
def Right (w : Workspace) (start : Path) (l : Location) : Prop :=
  Answers w (Governs w l) (find? w start)

/-- **WHERE THE SEARCH IS RIGHT**: whatever it meets first lies above the start, and it meets
    something if a configuration governs the start. -/
theorem right_iff (h : w.Reaches start fileName l) :
    Right w start l ↔ (∀ d, Met w (passed w start) d → d <+: l) ∧
      ((∃ d, Governs w l d) → ∃ d, Met w (passed w start) d) := by
  have hanswer := findFrom_answers start.components.length h (Nat.le_refl _)
  rw [Right, find?]
  cases hfind : findFrom w start.components.length start with
  | none =>
      rw [hfind] at hanswer
      constructor
      · exact fun hright => ⟨fun d hd => absurd hd (hanswer d), fun ⟨d, hd⟩ => absurd hd (hright d)⟩
      · rintro ⟨-, hmeets⟩ d hd
        obtain ⟨e, he⟩ := hmeets ⟨d, hd⟩
        exact hanswer e he
  | some f =>
      rw [hfind] at hanswer
      obtain ⟨d, hmet, hf⟩ := hanswer
      constructor
      · rintro ⟨e, he, hf'⟩
        have hde : d = e := List.append_cancel_right (Except.ok.inj (hf.symm.trans hf'))
        refine ⟨fun d' hd' => ?_, fun _ => ⟨d, hmet⟩⟩
        rw [hd'.unique hmet, hde]
        exact he.above
      · rintro ⟨habove, -⟩
        exact ⟨d, governs_of_met h hmet (habove d hmet), hf⟩

/-! ### Paths without steps up -/

theorem mem_wayBack_names {ns : List String} (h : m ∈ wayBack d (ns.map Component.name)) :
    d <+: m ∧ m <+: d ++ ns := by
  induction ns generalizing d with
  | nil =>
      rw [List.mem_singleton.mp h, List.append_nil]
      exact ⟨List.prefix_rfl, List.prefix_rfl⟩
  | cons n rest ih =>
      rcases List.mem_append.mp h with h | h
      · obtain ⟨hd, hm⟩ := ih h
        refine ⟨(List.prefix_append d [n]).trans hd, ?_⟩
        have hm : m <+: d ++ [n] ++ rest := hm
        rwa [List.append_assoc] at hm
      · rw [List.mem_singleton.mp h]
        exact ⟨List.prefix_rfl, List.prefix_append d _⟩

/-- Along names, what governs is met if the way back goes so far up. -/
theorem Governs.met {ns : List String} (h : Governs w (d ++ ns) e) (hde : d <+: e) :
    Met w (wayBack d (ns.map Component.name)) e := by
  induction ns using List.reverseRecOn with
  | nil =>
      rw [List.append_nil] at h
      have hed : e = d := h.above.eq_of_length (Nat.le_antisymm h.above.length_le hde.length_le)
      exact met_cons.mpr (.inl ⟨hed ▸ h.holds, hed⟩)
  | append_singleton ns n ih =>
      rw [← List.append_assoc] at h
      rw [List.map_append, List.map_singleton, wayBack_concat, Path.place_name, Path.place_names,
        met_cons]
      rcases List.prefix_concat_iff.mp h.above with hlast | habove
      · exact .inl ⟨hlast ▸ h.holds, hlast⟩
      · refine .inr ⟨h.nearest _ h.above List.prefix_rfl fun he => ?_, ih ⟨habove, h.holds, ?_⟩⟩
        · have := (he ▸ habove).length_le
          rw [List.length_append, List.length_singleton] at this
          omega
        · exact fun m hem hm => h.nearest m hem (hm.trans (List.prefix_append _ _))

/-- **WITHOUT STEPS UP** the search is right unless what governs the start lies above the directory
    where the path starts. -/
theorem right_iff_of_names (h : w.Reaches start fileName l)
    (hup : Component.up ∉ start.components) :
    Right w start l ↔ ∀ d, Governs w l d → w.base start <+: d := by
  rw [Path.components_eq, List.mem_append, not_or] at hup
  obtain ⟨ns, -, hns⟩ := Path.names_of_behind (fun c => Path.behind_steps (p := start)) hup.2
  have hl : l = w.base start ++ ns := by rw [h.eq_place, hns, Path.place_names]
  have hpassed : passed w start = wayBack (w.base start) (ns.map Component.name) := by
    rw [passed, hns]
  have hbetween : ∀ d, Met w (passed w start) d → w.base start <+: d ∧ d <+: l := by
    rintro d ⟨nearer, further, hback, -⟩
    rw [hl]
    refine mem_wayBack_names ?_
    rw [← hpassed, hback]
    exact List.mem_append_right _ List.mem_cons_self
  rw [right_iff h]
  constructor
  · rintro ⟨-, hmeets⟩ d hd
    obtain ⟨e, he⟩ := hmeets ⟨d, hd⟩
    rw [hd.unique (governs_of_met h he (hbetween e he).2)]
    exact (hbetween e he).1
  · intro hbase
    refine ⟨fun d hd => (hbetween d hd).2, fun ⟨d, hd⟩ => ⟨d, ?_⟩⟩
    rw [hpassed]
    exact (hl ▸ hd).met (hbase d hd)

/-- From an absolute path without steps up the search is right. -/
theorem right_of_absolute (h : w.Reaches start fileName l)
    (hup : Component.up ∉ start.components) (habs : start.isAbsolute = true) :
    Right w start l := by
  refine (right_iff_of_names h hup).mpr fun d _ => ?_
  rw [base, if_pos habs]
  exact List.nil_prefix

/-- **THE NEAREST CONFIGURATION**: the search answers with the first configuration on the way back
    from the start.  That is the one that governs the start exactly if what is met first, if
    anything, lies above the start, and something is met if anything governs it.  For a path
    without `..` only what lies above the directory where the path starts is missed. -/
theorem nearest_configuration_iff (hl : w.locate start = .ok l)
    (hdir : w.tree.get? l = some .directory)
    (hfits : (start.join ⟨fileName⟩).text.utf8ByteSize ≤ maxPathSize) :
    Answers w (Met w (passed w start)) (find? w start) ∧
    (Right w start l ↔ (∀ d, Met w (passed w start) d → d <+: l) ∧
      ((∃ d, Governs w l d) → ∃ d, Met w (passed w start) d)) ∧
    (Component.up ∉ start.components →
      (Right w start l ↔ ∀ d, Governs w l d → w.base start <+: d)) := by
  have h := reaches_of_locate hl hdir hfits
  exact ⟨findFrom_answers _ h (Nat.le_refl _), right_iff h, right_iff_of_names h⟩

/-- Three spellings of one directory.  The first finds the configuration of a directory below it,
    the second finds none, and the third finds the one that governs it. -/
theorem nearest_configuration_sample :
    let w : Workspace := ⟨⟨[(["proj"], .directory), (["proj", "sub"], .directory),
      ([".nestkeyrc.json"], .file .empty false),
      (["proj", "sub", ".nestkeyrc.json"], .file .empty false)]⟩, ["proj"], fun _ => "T", 0⟩
    (find? w ⟨"sub/.."⟩ = some ⟨"sub/.nestkeyrc.json"⟩ ∧ ¬ Right w ⟨"sub/.."⟩ ["proj"]) ∧
      (find? w ⟨"."⟩ = none ∧ ¬ Right w ⟨"."⟩ ["proj"]) ∧
      (find? w ⟨"/proj"⟩ = some ⟨"/.nestkeyrc.json"⟩ ∧ Right w ⟨"/proj"⟩ ["proj"]) := by
  intro w
  have hdir : w.tree.get? ["proj"] = some .directory := by decide +kernel
  refine ⟨?_, ?_, ?_⟩
  · have hfind : find? w ⟨"sub/.."⟩ = some ⟨"sub/.nestkeyrc.json"⟩ := by decide +kernel
    have hl : w.locate ⟨"sub/.."⟩ = .ok ["proj"] := by decide +kernel
    have hf : w.locate ⟨"sub/.nestkeyrc.json"⟩ = .ok (["proj", "sub"] ++ [fileName]) := by
      decide +kernel
    obtain ⟨hanswer, hright, -⟩ := nearest_configuration_iff hl hdir (by decide +kernel)
    rw [hfind] at hanswer
    obtain ⟨d, hmet, hd⟩ := hanswer
    obtain rfl : d = ["proj", "sub"] := List.append_cancel_right (Except.ok.inj (hd.symm.trans hf))
    exact ⟨hfind, fun h => absurd ((hright.mp h).1 _ hmet) (by decide)⟩
  · have hl : w.locate ⟨"."⟩ = .ok ["proj"] := by decide +kernel
    obtain ⟨-, -, hright⟩ := nearest_configuration_iff hl hdir (by decide +kernel)
    have hgoverns : Governs w ["proj"] [] := by
      refine ⟨List.nil_prefix, by unfold Holds; decide +kernel, fun m _ hm hne => ?_⟩
      obtain rfl : m = ["proj"] := by
        rcases List.prefix_cons_iff.mp hm with rfl | ⟨rest, rfl, hrest⟩
        · exact absurd rfl hne
        · rw [List.prefix_nil.mp hrest]
      unfold Bare Holds
      decide +kernel
    exact ⟨by decide +kernel, fun h => absurd ((hright (by decide +kernel)).mp h [] hgoverns)
      (by decide +kernel)⟩
  · have hl : w.locate ⟨"/proj"⟩ = .ok ["proj"] := by decide +kernel
    obtain ⟨-, -, hright⟩ := nearest_configuration_iff hl hdir (by decide +kernel)
    exact ⟨by decide +kernel, (hright (by decide +kernel)).mpr fun d _ => by
      rw [base, if_pos (by decide +kernel)]
      exact List.nil_prefix⟩

end Config

end MessageKeys
