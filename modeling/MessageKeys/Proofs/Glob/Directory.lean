import MessageKeys.Proofs.Glob.Escaping

/-! # Searching a directory — a run below an escaped path

    The pattern of an escaped path and a run between escaped texts below it leads down to one
    directory and tries the names there (`expand?_runBelow`).  On the way it spells the path of
    the directory again, without its empty segments, which leads to the same place
    (`Workspace.locate_of_filter`). -/

namespace MessageKeys

namespace Glob

open Workspace
open MessageKeys.Path (dropTrailing)

/-! ## The pieces of the pattern -/

/-- Escaping goes character by character. -/
theorem escape_append (s t : String) : escape (s ++ t) = escape s ++ escape t := by
  rw [← String.toList_inj, String.toList_append, toList_escape, toList_escape, toList_escape,
    String.toList_append, escaped_append]

theorem escape_slash : escape "/" = "/" := by decide +kernel

/-- Separators are not special. -/
theorem slash_mem_escape {s : String} : '/' ∈ (escape s).toList ↔ '/' ∈ s.toList := by
  rw [toList_escape, escaped, List.mem_flatMap]
  constructor
  · rintro ⟨c, hc, hslash⟩
    split at hslash
    · next hspecial =>
      rcases List.mem_cons.mp hslash with h | hslash
      · exact absurd h (by decide)
      · rcases List.mem_cons.mp hslash with rfl | hslash
        · exact hc
        · exact absurd (List.mem_singleton.mp hslash) (by decide)
    · rw [List.mem_singleton.mp hslash]
      exact hc
  · intro h
    exact ⟨'/', h, by decide⟩

/-- So a path is escaped name by name. -/
theorem escape_join (ss : List String) :
    escape (Text.join '/' ss) = Text.join '/' (ss.map escape) := by
  induction ss with
  | nil => decide +kernel
  | cons s rest ih =>
      cases rest with
      | nil => rw [List.map_singleton, Text.join_singleton, Text.join_singleton]
      | cons t rest =>
          have hne : (t :: rest).map escape ≠ [] := List.cons_ne_nil _ _
          rw [Text.join_cons (List.cons_ne_nil t rest), escape_append, escape_append, ih,
            escape_slash]
          exact (Text.join_cons hne).symm

/-- The pieces of an escaped text are the escaped pieces. -/
theorem split_escape (s : String) :
    Text.split '/' (escape s) = (Text.split '/' s).map escape := by
  have htext : escape s = Text.join '/' ((Text.split '/' s).map escape) := by
    rw [← escape_join, Text.join_split]
  rw [htext, Text.split_join (by simpa using Text.split_ne_nil '/' s)]
  intro t ht
  obtain ⟨piece, hpiece, rfl⟩ := List.mem_map.mp ht
  rw [slash_mem_escape]
  exact Text.not_mem_of_mem_split hpiece

theorem escape_eq_empty {s : String} : escape s = "" ↔ s = "" := by
  rw [← String.toList_eq_nil_iff, ← String.toList_eq_nil_iff, toList_escape]
  cases s.toList with
  | nil => simp [escaped]
  | cons c cs =>
      rw [escaped, List.flatMap_cons]
      split <;> simp

/-- The pattern for names with a front and an end in a directory. -/
def runBelow (dir front back : String) : String :=
  escape dir ++ "/" ++ escape front ++ "*" ++ escape back

section

variable {front back u v : String} {init rest : List String}

/-- The components of a run: escaped names, one with the asterisk, and escaped names again. -/
theorem split_run (hfront : Text.split '/' front = init ++ [u])
    (hback : Text.split '/' back = v :: rest) :
    Text.split '/' (escape front ++ "*" ++ escape back)
      = init.map escape ++ (escape u ++ "*" ++ escape v) :: rest.map escape := by
  have hstar : Text.split '/' ("*" ++ escape back) = ("*" ++ escape v) :: rest.map escape := by
    have hone : Text.split '/' "*" = [] ++ ["*"] := by decide +kernel
    exact Text.split_concat hone (by rw [split_escape, hback, List.map_cons])
  rw [String.append_assoc, String.append_assoc]
  refine Text.split_concat ?_ hstar
  rw [split_escape, hfront, List.map_append, List.map_singleton]

variable {dir : Path}

/-- Below a directory, the names of the directory come first. -/
theorem split_runBelow (hfront : Text.split '/' front = init ++ [u])
    (hback : Text.split '/' back = v :: rest) :
    Text.split '/' (runBelow dir.text front back) = (Text.split '/' dir.text).map escape
      ++ (init.map escape ++ (escape u ++ "*" ++ escape v) :: rest.map escape) := by
  rw [← split_run hfront hback, ← split_escape, ← Text.split_append_slash, runBelow,
    String.append_assoc, String.append_assoc, String.append_assoc, String.append_assoc,
    String.append_assoc]

/-- The pattern is always well formed. -/
theorem tokens?_runBelow (dir front back : String) :
    ∃ ts, tokens? (runBelow dir front back) = some ts := by
  refine ⟨_, (congrArg tokens? ?_).trans (tokens?_run (dir ++ "/" ++ front) back)⟩
  rw [runBelow, escape_append, escape_append, escape_slash]

/-- The pattern starts at the root with the directory. -/
theorem startsWith_runBelow (hdir : dir.text ≠ "") :
    (runBelow dir.text front back).startsWith "/" = dir.isAbsolute := by
  have hwhole : (Path.mk (runBelow dir.text front back)).isAbsolute = dir.isAbsolute := by
    rw [Bool.eq_iff_iff, Path.isAbsolute_iff, Path.isAbsolute_iff]
    show (∃ t, (runBelow dir.text front back).toList = '/' :: t) ↔ _
    rw [runBelow, String.toList_append, String.toList_append, String.toList_append,
      String.toList_append, toList_escape]
    cases hchars : dir.text.toList with
    | nil => exact absurd (String.toList_eq_nil_iff.mp hchars) hdir
    | cons c cs =>
        rw [escaped, List.flatMap_cons]
        split
        · next hspecial =>
          have hc : c ≠ '/' := by
            rintro rfl
            exact absurd hspecial (by decide)
          simp [hc]
        · simp
  exact hwhole

theorem runBelow_ne_empty (dir front back : String) : runBelow dir front back ≠ "" := by
  rw [runBelow, Ne, ← String.toList_eq_nil_iff, String.toList_append, String.toList_append]
  simp

/-- The pattern ends with a slash if its end does. -/
theorem endsWith_runBelow (hfront : Text.split '/' front = init ++ [u])
    (hback : Text.split '/' back = v :: rest) :
    (runBelow dir.text front back).endsWith "/" = true ↔ rest.getLast? = some "" := by
  rw [Path.endsWith_iff_getLast? (runBelow_ne_empty _ _ _), split_runBelow hfront hback, ← List.append_assoc,
    List.getLast?_append_cons]
  cases hlast : rest.getLast? with
  | none =>
      rw [List.getLast?_eq_none_iff.mp hlast]
      refine iff_of_false ?_ (by rintro ⟨⟩)
      simp
  | some last =>
      obtain ⟨more, hmore⟩ := List.getLast?_eq_some_iff.mp hlast
      rw [hmore, List.map_append, List.map_singleton, ← List.cons_append, List.getLast?_concat,
        Option.some.injEq, Option.some.injEq, escape_eq_empty]

/-- The components of the pattern: those of the directory, escaped, and what is below. -/
theorem componentTexts_runBelow (hdir : dir.Grounded)
    (hfront : Text.split '/' front = init ++ [u]) (hback : Text.split '/' back = v :: rest)
    (hend : rest.getLast? ≠ some "") :
    componentTexts (runBelow dir.text front back) = (dir.body ++ init).map escape
      ++ (escape u ++ "*" ++ escape v) :: rest.map escape := by
  have hpieces : Text.split '/' (runBelow dir.text front back) = _ := split_runBelow hfront hback
  have hlast : (Text.split '/' (runBelow dir.text front back)).getLast? ≠ some "" := by
    intro hlast
    exact hend ((endsWith_runBelow hfront hback).mp
      ((Path.endsWith_iff_getLast? (runBelow_ne_empty _ _ _)).mpr hlast))
  rw [componentTexts, startsWith_runBelow hdir.text_ne]
  rcases dir.start_cases with ⟨habs, -, s, more, hsplit, hbody⟩ | ⟨habs, ⟨ha, -⟩ | ⟨-, hbody, -⟩⟩
  · rw [habs, if_pos rfl]
    have htail : (Text.split '/' (runBelow dir.text front back)).tail
        = (dir.body ++ init).map escape ++ (escape u ++ "*" ++ escape v) :: rest.map escape := by
      rw [hpieces, hsplit, hbody, List.map_cons, List.cons_append, List.tail_cons, List.map_append,
        List.append_assoc]
    rw [if_neg, htail]
    intro htaillast
    refine hlast ?_
    rw [List.getLast?_tail] at htaillast
    split at htaillast
    · cases htaillast
    · exact htaillast
  · exact absurd ha hdir.anchor_ne
  · rw [habs, if_neg Bool.false_ne_true, if_neg hlast, hpieces, hbody, List.map_append,
      List.append_assoc]

/-! ## The way to the directory -/

theorem mapM_of_forall {α β : Type} {f : α → Option β} {g : α → β} {xs : List α}
    (h : ∀ x ∈ xs, f x = some (g x)) : xs.mapM f = some (xs.map g) := by
  induction xs with
  | nil => rfl
  | cons x xs ih =>
      obtain ⟨hx, hxs⟩ := List.forall_mem_cons.mp h
      rw [List.mapM_cons, hx, ih hxs]
      rfl

theorem tokens?_components (ss : List String) (u v : String) (rest : List String) :
    (ss.map escape ++ (escape u ++ "*" ++ escape v) :: rest.map escape).mapM tokens?
      = some (ss.map (fun s => spelled s.toList)
        ++ run u.toList v.toList :: rest.map fun s => spelled s.toList) := by
  have hescaped : ∀ ss : List String,
      (ss.map escape).mapM tokens? = some (ss.map fun s => spelled s.toList) := by
    intro ss
    rw [mapM_of_forall (g := fun t => (tokens? t).getD []), List.map_map]
    · congr 1
      exact List.map_congr_left fun s _ => by
        show (tokens? (escape s)).getD [] = _
        rw [tokens?_escape]
        rfl
    · intro t ht
      obtain ⟨s, -, rfl⟩ := List.mem_map.mp ht
      rw [tokens?_escape]
      rfl
  rw [List.mapM_append, hescaped, List.mapM_cons, tokens?_run, hescaped]
  rfl

/-- The path of segments below a directory, spelled without the empty ones. -/
structure Respelled (dir : Path) (init : List String) (q : Path) : Prop where
  departed : Departed q
  split_down : ∀ {more : List String} {s : String}, (∀ t ∈ more, '/' ∉ t.toList) → '/' ∉ s.toList →
    Text.split '/' (q.down (more ++ [s])).text
      = Path.lead dir ++ (dir.body ++ init ++ more).filter (· ≠ "") ++ [s]

/-- A first segment that means something leaves the current directory. -/
theorem departed_of_solid {s : String} (hsolid : Path.isVoid s = false) (hs : '/' ∉ s.toList) :
    Departed ⟨s⟩ := by
  have hpoint : s ≠ "." := by
    rintro rfl
    exact absurd hsolid (by decide)
  refine ⟨?_, ?_⟩
  · rintro rfl
    exact absurd hsolid (by decide)
  · rw [Path.components_eq, Path.anchor_eq (Text.split_of_not_mem hs),
      Path.isAbsolute_of_not_mem hs, if_neg Bool.false_ne_true, if_neg hpoint,
      Text.split_of_not_mem hs, Path.steps_cons, if_neg (by simp [hsolid]), Path.Component.ofSegment]
    split <;> simp [Path.Anchor.components]

/-- What stands at a name that stands alone lies in the current directory. -/
theorem isDirectory_here {w : Workspace} {s : String} (hs : '/' ∉ s.toList)
    (h : w.exists? ⟨s⟩ = true) : w.isDirectory ⟨"."⟩ = true := by
  obtain ⟨m, hm, -⟩ := exists?_iff.mp h
  obtain ⟨-, -, -, hfollow⟩ := locate_eq_ok.mp hm
  rw [Path.isAbsolute_of_not_mem hs, if_neg Bool.false_ne_true, Text.split_of_not_mem hs] at hfollow
  have hhere := follow_directory hfollow
  have hvoid : ∀ s ∈ Text.split '/' ".", Path.isVoid s = true := by decide +kernel
  refine isDirectory_eq_true.mpr ⟨w.here, locate_eq_ok.mpr ⟨by decide, by decide, by decide, ?_⟩,
    hhere⟩
  rw [if_neg (by decide +kernel)]
  exact follow_void hvoid hhere

/-- **A RUN IN A DIRECTORY**: the pattern tries the names in the directory that an escaped path
    leads to, and it leads nowhere only if nothing is there. -/
theorem expand?_runBelow {w : Workspace} (hdistinct : w.tree.Distinct) (hdir : dir.Grounded)
    (hfront : Text.split '/' front = init ++ [u]) (hback : Text.split '/' back = v :: rest)
    (hend : rest.getLast? ≠ some "") :
    ∃ q, Respelled dir init q ∧
      (expand? w (runBelow dir.text front back)
          = some ((candidates w u.toList v.toList q).flatMap fun x =>
              expandFrom w false (rest.map fun s => spelled s.toList) (q.join ⟨x⟩)) ∨
        expand? w (runBelow dir.text front back) = some [] ∧ w.exists? q = false) := by
  obtain ⟨ts, hts⟩ := tokens?_runBelow dir.text front back
  have hends : (runBelow dir.text front back).endsWith "/" = false := by
    rw [← Bool.not_eq_true]
    intro h
    exact hend ((endsWith_runBelow hfront hback).mp h)
  have hinit : ∀ s ∈ init, '/' ∉ s.toList := fun s hs =>
    Text.not_mem_of_mem_split (hfront ▸ List.mem_append_left [u] hs)
  have hbody : ∀ s ∈ dir.body, '/' ∉ s.toList := fun s => Path.mem_body_slash
  rw [expand?, hts, componentTexts_runBelow hdir hfront hback hend, tokens?_components]
  dsimp only
  rw [hends, startsWith_runBelow hdir.text_ne]
  rcases dir.start_cases with ⟨habs, -, -⟩ | ⟨habs, ⟨ha, -⟩ | ⟨-, hsplit, hstart⟩⟩
  · -- from the root
    have hroot : Departed ⟨"/"⟩ := ⟨by decide, by decide +kernel⟩
    have hss : ∀ s ∈ dir.body ++ init, '/' ∉ s.toList :=
      List.forall_mem_append.mpr ⟨hbody, hinit⟩
    refine ⟨(Path.mk "/").down (dir.body ++ init), ⟨hroot.down hss, ?_⟩, ?_⟩
    · intro more s hmore hs
      have hall : ∀ t ∈ dir.body ++ init ++ more, '/' ∉ t.toList :=
        List.forall_mem_append.mpr ⟨hss, hmore⟩
      rw [← Path.down_append, ← List.append_assoc, Path.split_down (by decide) hall hs, Path.lead, habs,
        if_pos rfl]
      rfl
    · rw [habs, if_pos rfl]
      rcases expandFrom_spelled_append hdistinct hroot hss with hlead | ⟨hlead, hnot⟩
      · exact .inl (by rw [hlead, expandFrom_run (hroot.down hss)])
      · exact .inr ⟨by rw [hlead], hnot⟩
  · exact absurd ha hdir.anchor_ne
  · -- from the current directory, by a first segment that stands alone
    obtain ⟨d, below, hd, hsolid⟩ := hstart.resolve_right hdir.text_ne
    rw [← hsplit] at hd
    rw [hd] at hbody
    obtain ⟨hslash, hbelow⟩ := List.forall_mem_cons.mp hbody
    have hfirst : Departed ⟨d⟩ := departed_of_solid hsolid hslash
    have hss : ∀ s ∈ below ++ init, '/' ∉ s.toList := List.forall_mem_append.mpr ⟨hbelow, hinit⟩
    have hnonempty : d ≠ "" := hfirst.1
    refine ⟨(Path.mk d).down (below ++ init), ⟨hfirst.down hss, ?_⟩, ?_⟩
    · intro more s hmore hs
      have hall : ∀ t ∈ below ++ init ++ more, '/' ∉ t.toList :=
        List.forall_mem_append.mpr ⟨hss, hmore⟩
      have htrailing : dropTrailing [d] = [d] := if_neg (by simpa using hnonempty)
      rw [← Path.down_append, ← List.append_assoc, Path.split_down hfirst.1 hall hs, Path.lead, habs,
        if_neg Bool.false_ne_true, Text.split_of_not_mem hslash, htrailing, hd]
      simp [hnonempty]
    · rw [habs, if_neg Bool.false_ne_true, hd, List.cons_append, List.map_cons, List.cons_append]
      have hchild : child ⟨"."⟩ d = ⟨d⟩ := if_pos (by decide +kernel)
      rcases expandFrom_spelled hdistinct hslash false ((below ++ init).map (fun s =>
        spelled s.toList) ++ run u.toList v.toList :: rest.map fun s => spelled s.toList) ⟨"."⟩ with
        hstep | ⟨hstep, hnot⟩
      · rw [hstep, hchild]
        rcases expandFrom_spelled_append hdistinct hfirst hss with hlead | ⟨hlead, hnot⟩
        · exact .inl (by rw [hlead, expandFrom_run (hfirst.down hss)])
        · exact .inr ⟨by rw [hlead], hnot⟩
      · refine .inr ⟨by rw [hstep], ?_⟩
        rw [← Bool.not_eq_true]
        intro hthere
        have hexists := exists?_of_down hfirst hss hthere
        rw [hchild] at hnot
        exact hnot ⟨isDirectory_here hslash hexists, hexists⟩

/-- A pattern that ends with a slash names directories. -/
theorem isDirectory_of_mem_expandFrom {w : Workspace} {cs : List (List Token)} {p q : Path}
    (h : q ∈ expandFrom w true cs p) : w.isDirectory q = true := by
  induction hlength : cs.length using Nat.strongRecOn generalizing cs p with
  | ind n ih =>
      cases cs with
      | nil =>
          obtain ⟨hdirectory, rfl⟩ := mem_expandFrom_nil.mp h
          exact hdirectory
      | cons ts rest =>
          rcases mem_expandFrom_cons.mp h with ⟨-, -, -, hdirectory⟩ | ⟨rest', r, hstep, hq⟩
          · exact hdirectory
          · exact ih _ (hlength ▸ hstep.suffix.2) hq rfl

/-- A pattern that ends in a separator matches directories only. -/
theorem isDirectory_of_mem_expand? {w : Workspace} {pattern : String}
    (hends : pattern.endsWith "/" = true) {q : Path} (h : q ∈ (expand? w pattern).getD []) :
    w.isDirectory q = true := by
  rw [expand?] at h
  split at h
  · rw [hends] at h
    exact isDirectory_of_mem_expandFrom h
  · cases h

end

end Glob

/-! ## Files at paths spelled another way -/

namespace Workspace

variable {w : Workspace} {p q : Path}

/-- **ANOTHER SPELLING**: without some empty segments a path leads where it led. -/
theorem locate_of_filter {front ss : List String} {l : Location} (hq : q.text ≠ "")
    (habs : q.isAbsolute = p.isAbsolute) (hp : Text.split '/' p.text = front ++ ss)
    (hqs : Text.split '/' q.text = front ++ ss.filter (· ≠ "")) (h : w.locate p = .ok l) :
    w.locate q = .ok l := by
  obtain ⟨hnul, -, hsize, hfollow⟩ := locate_eq_ok.mp h
  have hsub : q.text.toList.Sublist p.text.toList := by
    rw [← Text.join_split '/' q.text, ← Text.join_split '/' p.text, hp, hqs]
    exact Text.join_sublist ((List.Sublist.refl front).append List.filter_sublist)
  refine locate_eq_ok.mpr ⟨fun hmem => hnul (hsub.subset hmem), hq,
    (Text.utf8ByteSize_le_of_sublist hsub).trans hsize, ?_⟩
  rw [hp, follow_append] at hfollow
  rw [habs, hqs, follow_append]
  cases hfront : follow w.tree (if p.isAbsolute then [] else w.here) front with
  | error fault => rw [hfront] at hfollow; cases hfollow
  | ok d =>
      rw [hfront] at hfollow
      refine follow_filter (fun s hs => ?_) hfollow
      simpa [Path.isVoid] using Or.inl hs

/-- Empty names in a path do not matter to whether it is a file. -/
theorem isFile_of_filter {front ss : List String} (hq : q.text ≠ "")
    (habs : q.isAbsolute = p.isAbsolute) (hp : Text.split '/' p.text = front ++ ss)
    (hqs : Text.split '/' q.text = front ++ ss.filter (· ≠ "")) (h : w.isFile p = true) :
    w.isFile q = true := by
  obtain ⟨l, bytes, readOnly, hl, hheld⟩ := isFile_eq_true.mp h
  exact isFile_eq_true.mpr ⟨l, bytes, readOnly, locate_of_filter hq habs hp hqs hl, hheld⟩

end Workspace

end MessageKeys
