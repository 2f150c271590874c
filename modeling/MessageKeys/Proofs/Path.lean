import MessageKeys.Path
import Mathlib.Data.List.Basic

/-! # Paths by component — what joining, stripping and renaming do to components

    A path is known by what it starts from and by its segments; segments that mean nothing
    drop out, wherever they stand (`Path.components_eq`).  So joining appends components,
    stripping a prefix drops them, and the name of a path seen from a base, joined to the base
    again, has the components of the path (`Path.components_join_relativeText`), whatever
    spelling either had. -/

namespace MessageKeys

namespace Text

/-- At a separator, a text is split on either side alone. -/
theorem split_append_slash (s t : String) : split '/' (s ++ "/" ++ t) = split '/' s ++ split '/' t :=
  split_append '/' s t

theorem join_cons_cons (s t : String) (rest : List String) :
    join '/' (s :: t :: rest) = s ++ "/" ++ join '/' (t :: rest) := by
  have hglue : join '/' (s :: t :: rest) = String.ofList
      (s.toList ++ '/' :: glue '/' ((t :: rest).map String.toList)) := rfl
  rw [hglue, join, ← String.toList_inj]
  simp only [String.toList_append, String.toList_ofList, List.append_assoc]
  rfl

end Text

namespace Path

/-! ## Segments -/

/-- The components that segments are behind the start of a path. -/
def steps (segments : List String) : List Component :=
  (segments.filter fun s => !isVoid s).map Component.ofSegment

theorem steps_append (ss ts : List String) : steps (ss ++ ts) = steps ss ++ steps ts := by
  rw [steps, List.filter_append, List.map_append, steps, steps]

/-- Void segments are no steps, and all others are one. -/
theorem steps_cons (s : String) (ss : List String) :
    steps (s :: ss) = if isVoid s then steps ss else Component.ofSegment s :: steps ss := by
  cases hs : isVoid s <;> simp [steps, hs]

theorem steps_cons_void {s : String} (hs : isVoid s = true) (ss : List String) :
    steps (s :: ss) = steps ss := by
  rw [steps_cons, if_pos hs]

theorem steps_eq_nil {ss : List String} (h : ∀ s ∈ ss, isVoid s = true) : steps ss = [] := by
  rw [steps, List.filter_eq_nil_iff.mpr, List.map_nil]
  intro s hs
  simp [h s hs]

/-- Without void segments every segment is a step. -/
theorem steps_of_solid {ss : List String} (h : ∀ s ∈ ss, isVoid s = false) :
    steps ss = ss.map Component.ofSegment := by
  rw [steps, List.filter_eq_self.mpr]
  intro s hs
  simp [h s hs]

/-- Leading void segments can be left out. -/
theorem steps_dropWhile (ss : List String) : steps (ss.dropWhile isVoid) = steps ss := by
  induction ss with
  | nil => rfl
  | cons s rest ih =>
      rw [List.dropWhile_cons]
      split
      · next hs => rw [ih, steps_cons_void hs]
      · rfl

/-- Steps backwards are the steps of the segments backwards. -/
theorem steps_reverse (ss : List String) : steps ss.reverse = (steps ss).reverse := by
  rw [steps, List.filter_reverse, List.map_reverse, steps]

/-- Trailing void segments can be left out. -/
theorem steps_trimEnd (ss : List String) : steps (trimEnd ss) = steps ss := by
  rw [trimEnd, steps_reverse, steps_dropWhile, steps_reverse, List.reverse_reverse]

/-- Void segments do not count when segments are dropped. -/
theorem steps_dropSegments (n : Nat) (ss : List String) :
    steps (dropSegments n ss) = (steps ss).drop n := by
  induction n generalizing ss with
  | zero => rw [dropSegments, steps_dropWhile, List.drop_zero]
  | succ n ih =>
      rw [dropSegments, ih, ← steps_dropWhile ss]
      -- the first segment that is left means something
      cases hdrop : ss.dropWhile isVoid with
      | nil => simp [steps]
      | cons s rest =>
          have hs : isVoid s = false := by
            have := List.head?_dropWhile_not isVoid ss
            rw [hdrop] at this
            simpa using this
          rw [steps_cons, if_neg (by simp [hs]), List.tail_cons, List.drop_succ_cons]

theorem dropSegments_sublist (n : Nat) (ss : List String) : (dropSegments n ss).Sublist ss := by
  induction n generalizing ss with
  | zero => exact List.dropWhile_sublist _
  | succ n ih => exact (ih _).trans ((List.tail_sublist _).trans (List.dropWhile_sublist _))

/-- The first segment that is left means something. -/
theorem dropSegments_head {n : Nat} {ss rest : List String} {s : String}
    (h : s :: rest <+: dropSegments n ss) : isVoid s = false := by
  induction n generalizing ss with
  | zero =>
      have hhead := List.head?_dropWhile_not isVoid ss
      obtain ⟨more, hmore⟩ := h
      rw [dropSegments] at hmore
      rw [← hmore] at hhead
      simpa using hhead
  | succ n ih => exact ih h

/-- Trimmed segments are the first ones. -/
theorem trimEnd_front (ss : List String) : trimEnd ss <+: ss := by
  rw [trimEnd]
  have hsuffix := List.dropWhile_suffix isVoid (l := ss.reverse)
  rw [← List.reverse_prefix] at hsuffix
  rwa [List.reverse_reverse] at hsuffix

/-- What is left when segments are trimmed ends with one that means something. -/
theorem trimEnd_getLast {ss init : List String} {s : String} (h : trimEnd ss = init ++ [s]) :
    isVoid s = false := by
  rw [trimEnd, List.reverse_eq_iff, List.reverse_append] at h
  have := List.head?_dropWhile_not isVoid ss.reverse
  rw [h] at this
  simpa using this

/-! ## Components -/

/-- An absolute path starts with a separator. -/
theorem isAbsolute_iff (p : Path) : p.isAbsolute = true ↔ ∃ t, p.text.toList = '/' :: t := by
  rw [isAbsolute]
  rw [String.startsWith_string_iff]
  constructor
  · rintro ⟨t, ht⟩
    exact ⟨t, ht.symm⟩
  · rintro ⟨t, ht⟩
    exact ⟨t, ht.symm⟩

/-- The ways a path can start: at the root, with a point, with a segment that means
    something, or not at all. -/
theorem start_cases (p : Path) :
    (p.isAbsolute = true ∧ p.anchor = .root ∧
      ∃ s rest, Text.split '/' p.text = "" :: s :: rest ∧ p.body = s :: rest) ∨
    p.isAbsolute = false ∧
      ((p.anchor = .here ∧ ∃ rest, Text.split '/' p.text = "." :: rest ∧ p.body = rest) ∨
      (p.anchor = .none ∧ p.body = Text.split '/' p.text ∧
        ((∃ s rest, Text.split '/' p.text = s :: rest ∧ isVoid s = false) ∨ p.text = ""))) := by
  -- only the first character can make the first segment empty before another one
  have habs : p.isAbsolute = true ↔ ∃ s rest, Text.split '/' p.text = "" :: s :: rest := by
    rw [isAbsolute_iff, Text.split]
    cases p.text.toList with
    | nil => simp [Text.cut]
    | cons c cs =>
        rw [Text.cut]
        cases hcut : Text.cut '/' cs with
        | nil => exact absurd hcut (Text.cut_ne_nil _ _)
        | cons t rest =>
            by_cases hc : c = '/'
            · simp [hc]
            · rw [if_neg hc]
              simp [hc]
  cases hsplit : Text.split '/' p.text with
  | nil => exact absurd hsplit (Text.split_ne_nil _ _)
  | cons s rest =>
      rw [hsplit] at habs
      unfold anchor body
      rw [hsplit]
      by_cases hpoint : s = "."
      · subst hpoint
        refine .inr ⟨?_, .inl ⟨rfl, rest, rfl, rfl⟩⟩
        rw [← Bool.not_eq_true, habs]
        rintro ⟨t, more, he⟩
        exact absurd (List.cons.inj he).1 (by decide)
      · by_cases hempty : s = ""
        · subst hempty
          cases rest with
          | nil =>
              refine .inr ⟨?_, .inr ⟨rfl, rfl, .inr ?_⟩⟩
              · rw [← Bool.not_eq_true, habs]
                rintro ⟨t, more, he⟩
                cases (List.cons.inj he).2
              · rw [← Text.join_split '/' p.text, hsplit]
                rfl
          | cons t more => exact .inl ⟨habs.mpr ⟨t, more, rfl⟩, rfl, t, more, rfl, rfl⟩
        · have hsolid : isVoid s = false := by simp [isVoid, hpoint, hempty]
          refine .inr ⟨?_, .inr ?_⟩
          · rw [← Bool.not_eq_true, habs]
            rintro ⟨t, more, he⟩
            exact hempty (List.cons.inj he).1
          · split
            · next he => exact absurd (List.cons.inj he).1 hempty
            · next he => exact absurd (List.cons.inj he).1 hpoint
            · exact ⟨rfl, rfl, .inl ⟨s, rest, rfl, hsolid⟩⟩

/-- **COMPONENTS**: where a path starts, and its segments that mean something. -/
theorem components_eq (p : Path) :
    p.components = p.anchor.components ++ steps (Text.split '/' p.text) := by
  show p.anchor.components ++ steps p.body = _
  rcases start_cases p with ⟨-, -, s, rest, hsplit, hbody⟩ | ⟨-, ⟨-, rest, hsplit, hbody⟩ | ⟨-, hbody, -⟩⟩
  · rw [hbody, hsplit, steps_cons_void (s := "") rfl]
  · rw [hbody, hsplit, steps_cons_void (s := ".") rfl]
  · rw [hbody]

/-- Only the empty path has no components. -/
theorem components_eq_nil_iff (p : Path) : p.components = [] ↔ p.text = "" := by
  constructor
  · intro h
    rw [components_eq, List.append_eq_nil_iff] at h
    obtain ⟨hanchor, hsteps⟩ := h
    rcases start_cases p with ⟨-, ha, -⟩ | ⟨-, ⟨ha, -⟩ | ⟨-, -, ⟨s, rest, hsplit, hs⟩ | htext⟩⟩
    · rw [ha] at hanchor
      cases hanchor
    · rw [ha] at hanchor
      cases hanchor
    · rw [hsplit, steps_cons, if_neg (by simp [hs])] at hsteps
      cases hsteps
    · exact htext
  · intro h
    obtain ⟨text⟩ := p
    subst h
    rfl

/-- A path from an anchor and segments has these components, if the first segment cannot be
    taken for an anchor. -/
theorem components_ofBody {a : Anchor} {segments : List String}
    (hslash : ∀ s ∈ segments, '/' ∉ s.toList)
    (hfirst : a = .none → ∀ s rest, segments = s :: rest → isVoid s = false) :
    (ofBody a segments).components = a.components ++ steps segments := by
  have hsplit : segments ≠ [] → Text.split '/' (Text.join '/' segments) = segments :=
    fun hne => Text.split_join hne hslash
  cases a with
  | root =>
      have htext : Text.split '/' ("/" ++ Text.join '/' segments)
          = "" :: Text.split '/' (Text.join '/' segments) := by
        have := Text.split_append_slash "" (Text.join '/' segments)
        rw [String.empty_append] at this
        rw [this]
        rfl
      show Path.components ⟨"/" ++ Text.join '/' segments⟩ = _
      unfold components anchor body
      dsimp only
      rw [htext]
      cases segments with
      | nil => rfl
      | cons s rest =>
          rw [hsplit (List.cons_ne_nil _ _)]
          rfl
  | here =>
      cases segments with
      | nil => rfl
      | cons s rest =>
          have htext : Text.split '/' ("./" ++ Text.join '/' (s :: rest)) = "." :: s :: rest := by
            have := Text.split_append_slash "." (Text.join '/' (s :: rest))
            rw [hsplit (List.cons_ne_nil _ _)] at this
            exact this
          show Path.components ⟨"./" ++ Text.join '/' (s :: rest)⟩ = _
          unfold components anchor body
          dsimp only
          rw [htext]
          rfl
  | none =>
      cases segments with
      | nil => rfl
      | cons s rest =>
          have hs := hfirst rfl s rest rfl
          show Path.components ⟨Text.join '/' (s :: rest)⟩ = _
          unfold components anchor body
          dsimp only
          rw [hsplit (List.cons_ne_nil _ _)]
          split
          · next he =>
            exact absurd ((List.cons.inj he).1 ▸ hs) (by decide)
          · next he =>
            exact absurd ((List.cons.inj he).1 ▸ hs) (by decide)
          · rfl

/-- The first segment and a leading slash tell where a path starts. -/
theorem anchor_eq {p : Path} {s : String} {rest : List String}
    (h : Text.split '/' p.text = s :: rest) :
    p.anchor = if p.isAbsolute then .root else if s = "." then .here else .none := by
  rcases start_cases p with ⟨habs, ha, -⟩ | ⟨habs, hstart⟩
  · rw [ha, habs, if_pos rfl]
  · rw [habs, if_neg Bool.false_ne_true]
    rcases hstart with ⟨ha, _, hs, -⟩ | ⟨ha, -, ⟨t, _, hs, hsolid⟩ | htext⟩
    · rw [h] at hs
      rw [ha, if_pos (List.cons.inj hs).1]
    · rw [h] at hs
      rw [ha, if_neg]
      rintro rfl
      exact absurd ((List.cons.inj hs).1 ▸ hsolid) (by decide)
    · rw [htext] at h
      rw [ha, if_neg]
      rintro rfl
      exact absurd (List.cons.inj h).1 (by decide)

/-! ## Joining -/

theorem endsWith_slash_iff {text : String} :
    text.endsWith "/" = true ↔ ∃ front : String, text = front ++ "/" := by
  constructor
  · intro h
    have hslice : text.toSlice.endsWith "/" = true := h
    have hsuffix := String.Slice.endsWith_string_iff.mp hslice
    rw [String.copy_toSlice] at hsuffix
    obtain ⟨cs, hcs⟩ := hsuffix
    refine ⟨String.ofList cs, ?_⟩
    rw [← String.toList_inj, String.toList_append, String.toList_ofList]
    exact hcs.symm
  · rintro ⟨front, rfl⟩
    show (front ++ "/").toSlice.endsWith "/" = true
    refine String.Slice.endsWith_string_iff.mpr ?_
    rw [String.copy_toSlice, String.toList_append]
    exact List.suffix_append _ _

/-- The characters of a joined path are slashes or those of its parts. -/
theorem not_mem_join {p : Path} {n : String} {c : Char} (hp : c ∉ p.text.toList)
    (hn : c ∉ n.toList) (hc : c ≠ '/') : c ∉ (p.join ⟨n⟩).text.toList := by
  rw [join]
  split
  · exact hn
  · split
    · rw [String.toList_append, List.mem_append, not_or]
      exact ⟨hp, hn⟩
    · rw [String.toList_append, String.toList_append, List.mem_append, List.mem_append, not_or,
        not_or]
      exact ⟨⟨hp, fun hmem => hc (List.mem_singleton.mp hmem)⟩, hn⟩

/-- A path is no longer than one that is joined to it. -/
theorem size_le_join (p : Path) {n : String} (hn : (Path.mk n).isAbsolute = false) :
    p.text.utf8ByteSize ≤ (p.join ⟨n⟩).text.utf8ByteSize := by
  rw [join, hn, if_neg Bool.false_ne_true]
  split <;> simp only [String.utf8ByteSize_append] <;> omega

/-- Joining puts the segments of the second path behind those of the first. -/
theorem split_join_path {p q : Path} (hp : p.text ≠ "") (hq : q.isAbsolute = false) :
    ∃ init last, Text.split '/' p.text = init ++ last ∧ init ≠ [] ∧ (∀ s ∈ last, isVoid s = true) ∧
      Text.split '/' (p.join q).text = init ++ Text.split '/' q.text ∧
      (p.join q).isAbsolute = p.isAbsolute := by
  have habs : ∀ more : String, (Path.mk (p.text ++ more)).isAbsolute = p.isAbsolute := by
    intro more
    rw [Bool.eq_iff_iff, isAbsolute_iff, isAbsolute_iff]
    show (∃ t, (p.text ++ more).toList = '/' :: t) ↔ ∃ t, p.text.toList = '/' :: t
    rw [String.toList_append]
    cases hcs : p.text.toList with
    | nil => exact absurd (String.toList_eq_nil_iff.mp hcs) hp
    | cons c cs => simp
  rw [join, hq, if_neg Bool.false_ne_true]
  by_cases hend : p.text.endsWith "/" = true
  · rw [if_pos (.inr hend)]
    -- the slash at the end ends the first path in an empty segment
    obtain ⟨front, htext⟩ := endsWith_slash_iff.mp hend
    refine ⟨Text.split '/' front, [""], ?_, Text.split_ne_nil _ _, by simp [isVoid],
      ?_, habs q.text⟩
    · rw [htext]
      have := Text.split_append_slash front ""
      rw [String.append_empty] at this
      exact this
    · show Text.split '/' (p.text ++ q.text) = _
      rw [htext, Text.split_append_slash]
  · rw [if_neg (by simp [hp, hend])]
    refine ⟨Text.split '/' p.text, [], (List.append_nil _).symm, Text.split_ne_nil _ _,
      fun _ hs => absurd hs List.not_mem_nil, Text.split_append_slash _ _, ?_⟩
    have := habs ("/" ++ q.text)
    rwa [← String.append_assoc] at this

/-- **JOINING** appends components. -/
theorem components_join {p q : Path} (hp : p.text ≠ "") (hq : q.isAbsolute = false) :
    (p.join q).components = p.components ++ steps (Text.split '/' q.text) := by
  obtain ⟨init, last, hsplit, hne, hlast, hjoined, habs⟩ := split_join_path hp hq
  rw [components_eq, components_eq, hsplit, hjoined, steps_append, steps_append,
    steps_eq_nil hlast, List.append_nil, List.append_assoc]
  -- both start with the same segment, and so in the same way
  cases init with
  | nil => exact absurd rfl hne
  | cons s rest => rw [anchor_eq hsplit, anchor_eq hjoined, habs]

/-- A name that can stand in a directory. -/
def IsName (n : String) : Prop := isVoid n = false ∧ n ≠ ".." ∧ '/' ∉ n.toList

instance (n : String) : Decidable (IsName n) := inferInstanceAs (Decidable (_ ∧ _ ∧ _))

/-- A name is one step. -/
theorem IsName.steps_split {n : String} (h : IsName n) :
    steps (Text.split '/' n) = [.name n] := by
  rw [Text.split_of_not_mem h.2.2, steps_cons, if_neg (by simp [h.1]), Component.ofSegment,
    if_neg h.2.1]
  rfl

theorem IsName.isAbsolute {n : String} (h : IsName n) : (Path.mk n).isAbsolute = false := by
  rw [← Bool.not_eq_true, isAbsolute_iff]
  rintro ⟨t, ht⟩
  refine h.2.2 ?_
  rw [show n.toList = '/' :: t from ht]
  exact List.mem_cons_self

/-- A name is joined as one more component, also to the path without text. -/
theorem components_join_name (p : Path) {n : String} (h : IsName n) :
    (p.join ⟨n⟩).components = p.components ++ [.name n] := by
  by_cases hp : p.text = ""
  · rw [join, h.isAbsolute, if_neg Bool.false_ne_true, if_pos (.inl hp),
      (components_eq_nil_iff p).mpr hp, hp, String.empty_append, List.nil_append, components_eq,
      anchor_eq (Text.split_of_not_mem h.2.2), h.isAbsolute, h.steps_split,
      if_neg Bool.false_ne_true, if_neg]
    · rfl
    · rintro rfl
      exact absurd h.1 (by decide)
  · rw [components_join hp h.isAbsolute, h.steps_split]

/-! ## The last component -/

/-- A path has a file name if its last component is one. -/
theorem fileName?_eq_some_iff {p : Path} {n : String} :
    p.fileName? = some n ↔ p.components.getLast? = some (.name n) := by
  rw [fileName?]
  split
  · next m hm => rw [hm]; simp
  · next hm => exact iff_of_false (by rintro ⟨⟩) (hm n)

theorem fileName?_congr {p q : Path} (h : p.components = q.components) :
    p.fileName? = q.fileName? := by
  rw [fileName?, fileName?, h]

theorem extension?_congr {p q : Path} (h : p.fileName? = q.fileName?) :
    p.extension? = q.extension? := by
  rw [extension?, extension?, h]

/-- What ends in a point and an extension has that extension, unless it is only these. -/
theorem extension?_of_fileName {p : Path} {stem e : String} (he : '.' ∉ e.toList)
    (h : p.fileName? = some (stem ++ "." ++ e)) : p.extension? = none ∨ p.extension? = some e := by
  have hsplit : ∃ init last, Text.split '.' (stem ++ "." ++ e) = init ++ [last, e] := by
    have hlist : (stem ++ "." ++ e).toList = stem.toList ++ '.' :: e.toList := by
      rw [String.toList_append, String.toList_append, List.append_assoc]
      rfl
    have hcut : Text.split '.' (stem ++ "." ++ e) = Text.split '.' stem ++ [e] := by
      rw [Text.split, hlist, Text.cut_append, Text.cut_of_not_mem he, List.map_append,
        List.map_singleton, String.ofList_toList, Text.split]
    obtain ⟨init, last, hstem⟩ := List.eq_nil_or_concat (Text.split '.' stem)
      |>.resolve_left (Text.split_ne_nil _ _)
    exact ⟨init, last, by rw [hcut, hstem]; simp⟩
  obtain ⟨init, last, hsplit⟩ := hsplit
  have hreverse : (Text.split '.' (stem ++ "." ++ e)).reverse = e :: last :: init.reverse := by
    rw [hsplit, List.reverse_append]
    rfl
  rw [extension?, h]
  dsimp only
  rw [hreverse]
  dsimp only
  split
  · exact .inl rfl
  · exact .inr rfl

/-! ## Another last name -/

theorem mem_body_slash {p : Path} {s : String} (h : s ∈ p.body) : '/' ∉ s.toList := by
  suffices hmem : s ∈ Text.split '/' p.text from Text.not_mem_of_mem_split hmem
  rcases start_cases p with ⟨-, -, t, rest, hsplit, hbody⟩ | ⟨-, ⟨-, rest, hsplit, hbody⟩ | ⟨-, hbody, -⟩⟩
  · rw [hsplit, ← hbody]
    exact List.mem_cons_of_mem _ h
  · rw [hsplit, ← hbody]
    exact List.mem_cons_of_mem _ h
  · rw [← hbody]
    exact h

/-- First segments of a path make a path with the same start. -/
theorem components_ofBody_front {p : Path} {segments : List String}
    (h : segments <+: trimEnd p.body) :
    (ofBody p.anchor segments).components = p.anchor.components ++ steps segments := by
  have hbody : segments <+: p.body := h.trans (trimEnd_front p.body)
  refine components_ofBody (fun s hs => mem_body_slash (hbody.subset hs)) ?_
  intro ha s rest hsegments
  rcases start_cases p with ⟨-, hr, -⟩ | ⟨-, ⟨hr, -⟩ | ⟨-, hb, ⟨t, more, hsplit, ht⟩ | htext⟩⟩
  · rw [ha] at hr
    cases hr
  · rw [ha] at hr
    cases hr
  · rw [hb, hsplit, hsegments] at hbody
    rw [(List.cons_prefix_cons.mp hbody).1]
    exact ht
  · -- trimming leaves nothing of the path without text
    rw [hb, htext, hsegments, show trimEnd (Text.split '/' "") = [] from rfl] at h
    exact absurd (List.prefix_nil.mp h) (List.cons_ne_nil s rest)

/-- **PARENTS** have all components but the last, and that is not the root. -/
theorem components_parent? {p q : Path} (h : p.parent? = some q) :
    p.components ≠ [] ∧ p.components ≠ [.root] ∧ q.components = p.components.dropLast := by
  have hcomponents : p.components = p.anchor.components ++ steps (trimEnd p.body) := by
    rw [steps_trimEnd]
    rfl
  rw [parent?] at h
  cases htrim : trimEnd p.body with
  | nil =>
      rw [htrim] at h hcomponents
      cases ha : p.anchor with
      | here =>
          rw [ha] at h hcomponents
          rw [hcomponents, ← Option.some.inj h]
          exact ⟨List.cons_ne_nil _ _, by rintro ⟨⟩, rfl⟩
      | root => rw [ha] at h; cases h
      | none => rw [ha] at h; cases h
  | cons s rest =>
      rw [htrim] at h
      have hne : s :: rest ≠ [] := List.cons_ne_nil s rest
      have hinit : (s :: rest).dropLast <+: trimEnd p.body := by
        rw [htrim]
        exact List.dropLast_prefix _
      have hsolid : isVoid ((s :: rest).getLast hne) = false :=
        trimEnd_getLast (htrim.trans (List.dropLast_append_getLast hne).symm)
      rw [htrim, ← List.dropLast_append_getLast hne, steps_append, steps_cons,
        if_neg (by simp [hsolid]), show steps [] = [] from rfl, ← List.append_assoc]
        at hcomponents
      rw [hcomponents]
      refine ⟨List.append_ne_nil_of_right_ne_nil _ (List.cons_ne_nil _ _), ?_, ?_⟩
      · intro hroot
        have hlast := congrArg List.getLast? hroot
        rw [List.getLast?_concat, Component.ofSegment] at hlast
        split at hlast <;> cases hlast
      rw [← Option.some.inj h, components_ofBody_front ((trimEnd_front _).trans hinit),
        steps_trimEnd, List.dropLast_concat]

/-- A path without a parent is the root, or has no text. -/
theorem components_of_parent?_eq_none {p : Path} (h : p.parent? = none) :
    p.components = [] ∨ p.components = [.root] := by
  have hcomponents : p.components = p.anchor.components ++ steps (trimEnd p.body) := by
    rw [steps_trimEnd]
    rfl
  rw [parent?] at h
  split at h
  · next htrim =>
    rw [htrim] at hcomponents
    cases ha : p.anchor with
    | here => rw [ha] at h; cases h
    | root =>
        rw [ha] at hcomponents
        exact .inr hcomponents
    | none =>
        rw [ha] at hcomponents
        exact .inl hcomponents
  · cases h

/-- **ANOTHER NAME**: the last component is replaced. -/
theorem components_withFileName {p : Path} {m n : String} (hm : p.fileName? = some m)
    (hn : IsName n) :
    (p.withFileName n).components = p.components.dropLast ++ [.name n] := by
  have hlast := fileName?_eq_some_iff.mp hm
  cases hparent : p.parent? with
  | none =>
      -- the last component would be the start
      rcases components_of_parent?_eq_none hparent with h | h
      · rw [h] at hlast; cases hlast
      · rw [h] at hlast; cases hlast
  | some parent =>
      rw [withFileName, hm, hparent]
      dsimp only
      rw [components_join_name parent hn, (components_parent? hparent).2.2]

/-! ## Names seen from a base -/

/-- Components that stand behind the start of some path: `..` and names. -/
def Behind (c : Component) : Prop := ∃ s, isVoid s = false ∧ '/' ∉ s.toList ∧ c = Component.ofSegment s

theorem text_ofSegment (s : String) : (Component.ofSegment s).text = s := by
  rw [Component.ofSegment]
  split
  · next h => exact h.symm
  · rfl

/-- Whatever comes from a text stands behind the root. -/
theorem behind_steps {p : Path} {c : Component} (h : c ∈ steps (Text.split '/' p.text)) :
    Behind c := by
  obtain ⟨s, hs, rfl⟩ := List.mem_map.mp h
  obtain ⟨hs, hsolid⟩ := List.mem_filter.mp hs
  exact ⟨s, by simpa using hsolid, Text.not_mem_of_mem_split hs, rfl⟩

theorem Behind.text {c : Component} (h : Behind c) :
    Component.ofSegment c.text = c ∧ isVoid c.text = false ∧ '/' ∉ c.text.toList := by
  obtain ⟨s, hsolid, hslash, rfl⟩ := h
  rw [text_ofSegment]
  exact ⟨rfl, hsolid, hslash⟩

/-- Components are read off their texts again. -/
theorem steps_texts {cs : List Component} (h : ∀ c ∈ cs, Behind c) :
    steps (cs.map Component.text) = cs := by
  rw [steps_of_solid, List.map_map]
  · refine (List.map_congr_left fun c hc => (h c hc).text.1).trans (List.map_id cs)
  · intro s hs
    obtain ⟨c, hc, rfl⟩ := List.mem_map.mp hs
    exact (h c hc).text.2.1

theorem not_mem_texts {cs : List Component} (h : ∀ c ∈ cs, Behind c) :
    ∀ s ∈ cs.map Component.text, '/' ∉ s.toList := by
  intro s hs
  obtain ⟨c, hc, rfl⟩ := List.mem_map.mp hs
  exact (h c hc).text.2.2

/-- Such components are read back from their joined text. -/
theorem steps_split_slashed {cs : List Component} (h : ∀ c ∈ cs, Behind c) :
    steps (Text.split '/' (slashed cs)) = cs := by
  cases cs with
  | nil => rfl
  | cons c rest => rw [slashed, Text.split_join (by simp) (not_mem_texts h), steps_texts h]

/-- The joined text of all components of a path is a path with these components. -/
theorem components_slashed {a : Anchor} {cs : List Component} (h : ∀ c ∈ cs, Behind c) :
    (Path.mk (slashed (a.components ++ cs))).components = a.components ++ cs := by
  have hslash := not_mem_texts h
  cases a with
  | none =>
      show (ofBody .none (cs.map Component.text)).components = _
      rw [components_ofBody hslash, steps_texts h]
      intro _ s rest hcs
      cases cs with
      | nil => cases hcs
      | cons c more => exact (List.cons.inj hcs).1 ▸ (h c List.mem_cons_self).text.2.1
  | here =>
      have htext : Path.mk (slashed ([.here] ++ cs)) = ofBody .here (cs.map Component.text) := by
        cases cs with
        | nil => rfl
        | cons c rest => exact congrArg Path.mk (Text.join_cons_cons "." c.text _)
      rw [show Anchor.components .here = [.here] from rfl, htext,
        components_ofBody hslash (by rintro ⟨⟩), steps_texts h]
      rfl
  | root =>
      -- the slash of the root and the one that joins
      have htext : Path.mk (slashed ([.root] ++ cs))
          = ofBody .root ("" :: cs.map Component.text) := by
        cases cs with
        | nil => rfl
        | cons c rest =>
            refine congrArg Path.mk ((Text.join_cons_cons "/" c.text _).trans ?_)
            rw [List.map_cons, Text.join_cons_cons "" c.text, String.empty_append,
              String.append_assoc]
      rw [show Anchor.components .root = [.root] from rfl, htext,
        components_ofBody _ (by rintro ⟨⟩), steps_cons_void (by rfl), steps_texts h]
      · rfl
      · intro s hs
        rcases List.mem_cons.mp hs with rfl | hs
        · exact List.not_mem_nil
        · exact hslash s hs

/-- **STRIPPING** drops the components of the base. -/
theorem components_stripPrefix {base p r : Path} (h : p.stripPrefix? base = some r) :
    base.components <+: p.components ∧
      r.components = p.components.drop base.components.length := by
  rw [stripPrefix?] at h
  split at h
  · next hstarts =>
    refine ⟨List.isPrefixOf_iff_prefix.mp hstarts, ?_⟩
    dsimp only at h
    split at h
    · next hnone =>
      rw [← Option.some.inj h, hnone, List.drop_zero, components_ofBody_front List.prefix_rfl, steps_trimEnd]
      rfl
    · next hsome =>
      rw [← Option.some.inj h]
      have hfront := trimEnd_front (dropSegments
        (base.components.length - p.anchor.components.length) p.body)
      rw [components_ofBody, steps_trimEnd, steps_dropSegments]
      · -- the start of the path is among the components dropped
        have hone : p.anchor.components.length ≤ 1 := by cases p.anchor <;> decide
        have hdropped : p.anchor.components.drop base.components.length = [] :=
          List.drop_eq_nil_of_le (by omega)
        rw [show p.components = p.anchor.components ++ steps p.body from rfl, List.drop_append,
          hdropped]
        rfl
      · intro s hs
        exact mem_body_slash ((dropSegments_sublist _ _).subset (hfront.subset hs))
      · intro _ s rest hsegments
        rw [hsegments] at hfront
        exact dropSegments_head hfront
  · cases h

/-- A path relative to a base is what its components have more than those of the base. -/
theorem relativeText?_eq (base p : Path) :
    relativeText? base p = if base.components <+: p.components then
      some (slashed (p.components.drop base.components.length)) else none := by
  rw [relativeText?]
  cases hstrip : p.stripPrefix? base with
  | none =>
      rw [if_neg]
      · rfl
      · intro hfront
        have hstarts : p.startsWith base = true := List.isPrefixOf_iff_prefix.mpr hfront
        rw [stripPrefix?, if_pos hstarts] at hstrip
        dsimp only at hstrip
        split at hstrip <;> cases hstrip
  | some r =>
      obtain ⟨hfront, hdrop⟩ := components_stripPrefix hstrip
      rw [if_pos hfront, Option.map_some, hdrop]

/-- What lies behind a base is behind the start of the path, unless the base is empty. -/
theorem behind_drop {p : Path} {n : Nat} (hn : n ≠ 0) {c : Component}
    (h : c ∈ p.components.drop n) : Behind c := by
  have hone : p.anchor.components.length ≤ 1 := by cases p.anchor <;> decide
  rw [components_eq, List.drop_append, List.drop_eq_nil_of_le (by omega), List.nil_append] at h
  exact behind_steps (List.mem_of_mem_drop h)

/-- **A NAME SEEN FROM A BASE**, joined to the base again, spells the components of the
    path. -/
theorem components_join_relativeText {base p : Path} {name : String}
    (h : relativeText? base p = some name) : (base.join ⟨name⟩).components = p.components := by
  rw [relativeText?_eq] at h
  split at h
  · next hfront =>
    obtain rfl := Option.some.inj h
    obtain ⟨below, hbelow⟩ := hfront
    by_cases hbase : base.text = ""
    · have hnone := (components_eq_nil_iff base).mpr hbase
      rw [hnone, List.length_nil, List.drop_zero]
      have hjoin : ∀ q : Path, base.join q = q := by
        intro q
        rw [join]
        split
        · rfl
        · rw [if_pos (.inl hbase), hbase, String.empty_append]
      rw [hjoin, components_eq p]
      exact components_slashed fun c hc => behind_steps hc
    · have hne : base.components.length ≠ 0 := fun h =>
        hbase ((components_eq_nil_iff base).mp (List.length_eq_zero_iff.mp h))
      have hbehind := fun c hc => behind_drop (p := p) hne (c := c) hc
      have habs : (Path.mk (slashed (p.components.drop base.components.length))).isAbsolute
          = false := by
        -- otherwise the root would be among them
        rw [← Bool.not_eq_true]
        intro habs
        have hcomponents := components_slashed (a := .none) hbehind
        have hroot : Component.root ∈ p.components.drop base.components.length := by
          rw [← List.nil_append (List.drop _ _)]
          refine hcomponents ▸ ?_
          rcases start_cases _ with ⟨-, ha, -⟩ | ⟨habs', -⟩
          · rw [components_eq]
            exact List.mem_append_left _ (ha ▸ List.mem_cons_self)
          · rw [show Anchor.none.components ++ p.components.drop base.components.length
              = p.components.drop base.components.length from rfl, habs] at habs'
            cases habs'
        exact (hbehind _ hroot).text.2.2 (by decide)
      rw [components_join hbase habs, steps_split_slashed hbehind, ← hbelow, List.drop_left]
  · cases h

end Path

end MessageKeys
