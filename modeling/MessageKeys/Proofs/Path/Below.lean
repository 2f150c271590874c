import Mathlib.Data.String.Basic
import MessageKeys.Proofs.Path

/-! # Paths below a path — names joined one after the other

    Names that are joined to a path become its last components (`components_down`), and names
    joined by slashes are read back (`components_slashed_names`).

    Segments in general are spelled out behind the path one by one, but for empty ones, which
    the next slash swallows (`split_down`).  Seen from a base, a path has the segments behind those
    of the base, from the first to the last that means something (`stripPrefix?_of_body`). -/

namespace MessageKeys

/-! ## Texts of pieces -/

namespace Text

theorem join_cons {s : String} {ss : List String} (h : ss ≠ []) :
    join '/' (s :: ss) = s ++ "/" ++ join '/' ss := by
  cases ss with
  | nil => exact absurd rfl h
  | cons t rest => exact join_cons_cons s t rest

theorem join_singleton (s : String) : join '/' [s] = s := by simp [join, glue]

theorem join_append {ss ts : List String} (hs : ss ≠ []) (ht : ts ≠ []) :
    join '/' (ss ++ ts) = join '/' ss ++ "/" ++ join '/' ts := by
  induction ss with
  | nil => exact absurd rfl hs
  | cons s rest ih =>
      cases rest with
      | nil => rw [join_singleton, List.singleton_append, join_cons ht]
      | cons t rest =>
          have hrest := ih (List.cons_ne_nil t rest)
          rw [List.cons_append, join_cons (List.append_ne_nil_of_left_ne_nil (List.cons_ne_nil _ _) _),
            hrest, join_cons_cons s t rest, ← String.append_assoc, ← String.append_assoc]

/-- Texts that are put together share a piece. -/
theorem join_concat (init : List String) (a b : String) (rest : List String) :
    join '/' (init ++ [a]) ++ join '/' (b :: rest) = join '/' (init ++ (a ++ b) :: rest) := by
  have hfirst : a ++ join '/' (b :: rest) = join '/' ((a ++ b) :: rest) := by
    cases rest with
    | nil => simp [join, glue]
    | cons t rest => rw [join_cons_cons, join_cons_cons, ← String.append_assoc, ← String.append_assoc]
  cases init with
  | nil => rw [List.nil_append, List.nil_append, join_singleton, hfirst]
  | cons s init =>
      rw [join_append (List.cons_ne_nil s init) (List.cons_ne_nil a []),
        join_append (List.cons_ne_nil s init) (List.cons_ne_nil _ rest), join_singleton,
        String.append_assoc, hfirst]

/-- A piece is put in between. -/
theorem join_around (init : List String) (a m b : String) (rest : List String) :
    join '/' (init ++ (a ++ m ++ b) :: rest)
      = join '/' (init ++ [a]) ++ m ++ join '/' (b :: rest) := by
  have hinit := join_concat init a m []
  rw [join_singleton] at hinit
  rw [← join_concat, ← hinit]

/-- The characters of a joined text are slashes or those of its pieces. -/
theorem mem_join {c : Char} {ss : List String} (h : c ∈ (join '/' ss).toList) :
    c = '/' ∨ ∃ s ∈ ss, c ∈ s.toList := by
  induction ss with
  | nil => cases h
  | cons s rest ih =>
      by_cases hrest : rest = []
      · subst hrest
        rw [join_singleton] at h
        exact .inr ⟨s, List.mem_cons_self, h⟩
      · rw [join_cons hrest, String.toList_append, String.toList_append, List.mem_append,
          List.mem_append] at h
        rcases h with (h | h) | h
        · exact .inr ⟨s, List.mem_cons_self, h⟩
        · exact .inl (List.mem_singleton.mp h)
        · obtain hslash | ⟨t, ht, hc⟩ := ih h
          · exact .inl hslash
          · exact .inr ⟨t, List.mem_cons_of_mem s ht, hc⟩

/-- Put together, two texts share a segment where they meet. -/
theorem split_concat {s t a b : String} {init rest : List String} (hs : split '/' s = init ++ [a])
    (ht : split '/' t = b :: rest) : split '/' (s ++ t) = init ++ (a ++ b) :: rest := by
  have htext : s ++ t = join '/' (init ++ (a ++ b) :: rest) := by
    rw [← join_concat, ← hs, ← ht, join_split, join_split]
  rw [htext, split_join (by simp)]
  intro x hx
  have hsplit : ∀ y ∈ init ++ [a], '/' ∉ y.toList := fun y hy => not_mem_of_mem_split (hs ▸ hy)
  have hsplit' : ∀ y ∈ b :: rest, '/' ∉ y.toList := fun y hy => not_mem_of_mem_split (ht ▸ hy)
  rcases List.mem_append.mp hx with hx | hx
  · exact hsplit x (List.mem_append_left _ hx)
  · rcases List.mem_cons.mp hx with rfl | hx
    · rw [String.toList_append, List.mem_append, not_or]
      exact ⟨hsplit a (List.mem_append_right _ List.mem_cons_self), hsplit' b List.mem_cons_self⟩
    · exact hsplit' x (List.mem_cons_of_mem b hx)

/-- Fewer pieces make a text of fewer characters. -/
theorem join_sublist {ss ts : List String} (h : ss.Sublist ts) :
    (join '/' ss).toList.Sublist (join '/' ts).toList := by
  induction h with
  | slnil => exact List.Sublist.refl _
  | @cons ss ts t h ih =>
      by_cases hts : ts = []
      · subst hts
        rw [List.sublist_nil.mp h]
        exact List.nil_sublist _
      · rw [join_cons hts, String.toList_append]
        exact ih.trans (List.sublist_append_right _ _)
  | @cons_cons ss ts s h ih =>
      by_cases hss : ss = []
      · subst hss
        by_cases hts : ts = []
        · subst hts
          exact List.Sublist.refl _
        · rw [join_cons hts, join_singleton, String.toList_append, String.toList_append,
            List.append_assoc]
          exact List.sublist_append_left _ _
      · have hts : ts ≠ [] := by
          rintro rfl
          exact hss (List.sublist_nil.mp h)
        rw [join_cons hss, join_cons hts, String.toList_append, String.toList_append (s := s ++ "/")]
        exact (List.Sublist.refl _).append ih

theorem utf8ByteSize_le_of_sublist {s t : String} (h : s.toList.Sublist t.toList) :
    s.utf8ByteSize ≤ t.utf8ByteSize := by
  rw [← String.utf8Len_toList, ← String.utf8Len_toList]
  exact String.utf8Len_le_of_sublist h

end Text

/-! ## Down by names -/

namespace Path

/-- The path of names below a path. -/
def down (p : Path) (ns : List String) : Path := ns.foldl (fun q n => q.join ⟨n⟩) p

/-- Going down names in a row is going down in two goes. -/
theorem down_append (p : Path) (ms ns : List String) : p.down (ms ++ ns) = (p.down ms).down ns :=
  List.foldl_append

/-- Each name gone down is one component more. -/
theorem components_down (p : Path) {ns : List String} (h : ∀ n ∈ ns, IsName n) :
    (p.down ns).components = p.components ++ ns.map Component.name := by
  induction ns generalizing p with
  | nil => exact (List.append_nil _).symm
  | cons n rest ih =>
      obtain ⟨hn, hrest⟩ := List.forall_mem_cons.mp h
      show ((p.join ⟨n⟩).down rest).components = _
      rw [ih _ hrest, components_join_name p hn, List.append_assoc]
      rfl

/-- Going down makes a path no shorter. -/
theorem size_le_down (p : Path) {ns : List String} (h : ∀ n ∈ ns, IsName n) :
    p.text.utf8ByteSize ≤ (p.down ns).text.utf8ByteSize := by
  induction ns generalizing p with
  | nil => exact Nat.le_refl _
  | cons n rest ih =>
      obtain ⟨hn, hrest⟩ := List.forall_mem_cons.mp h
      exact (size_le_join p hn.isAbsolute).trans (ih (p.join ⟨n⟩) hrest)

/-- The components of the path are those of the base and names after them. -/
def LiesBelow (base p : Path) : Prop :=
  ∃ ns : List String, (∀ n ∈ ns, IsName n) ∧ p.components = base.components ++ ns.map Component.name

/-- What lies below stays there further down. -/
theorem LiesBelow.down {base p : Path} (h : LiesBelow base p) {ns : List String}
    (hns : ∀ n ∈ ns, IsName n) : LiesBelow base (p.down ns) := by
  obtain ⟨ms, hms, hp⟩ := h
  refine ⟨ms ++ ns, List.forall_mem_append.mpr ⟨hms, hns⟩, ?_⟩
  rw [components_down p hns, hp, List.append_assoc, List.map_append]

theorem behind_name {n : String} (h : IsName n) : Behind (.name n) :=
  ⟨n, h.1, h.2.2, by rw [Component.ofSegment, if_neg h.2.1]⟩

/-- Components behind the start of a path that do not go up are names. -/
theorem names_of_behind {cs : List Component} (h : ∀ c ∈ cs, Behind c) (hup : Component.up ∉ cs) :
    ∃ ns : List String, (∀ n ∈ ns, IsName n) ∧ cs = ns.map Component.name := by
  induction cs with
  | nil => exact ⟨[], by simp, rfl⟩
  | cons c rest ih =>
      obtain ⟨hc, hrest⟩ := List.forall_mem_cons.mp h
      obtain ⟨hne, hup⟩ := not_or.mp fun h => hup (List.mem_cons.mpr h)
      obtain ⟨ns, hns, rfl⟩ := ih hrest hup
      obtain ⟨s, hsolid, hslash, rfl⟩ := hc
      rw [Component.ofSegment] at hne ⊢
      split at hne
      · exact absurd rfl hne
      · next hs =>
        rw [if_neg hs]
        exact ⟨s :: ns, List.forall_mem_cons.mpr ⟨⟨hsolid, hs, hslash⟩, hns⟩, rfl⟩

/-- What a path has after some of its components is read back from its joined text. -/
theorem components_slashed_drop (p : Path) (n : Nat) :
    (Path.mk (slashed (p.components.drop n))).components = p.components.drop n := by
  have hbehind : ∀ c ∈ steps (Text.split '/' p.text), Behind c := fun c => behind_steps
  cases n with
  | zero =>
      rw [List.drop_zero, components_eq p]
      exact components_slashed hbehind
  | succ n => exact components_slashed (a := .none) fun c hc => behind_drop (Nat.succ_ne_zero n) hc

/-- Joined names are read back from their text. -/
theorem components_slashed_names {ns : List String} (h : ∀ n ∈ ns, IsName n) :
    (Path.mk (slashed (ns.map Component.name))).components = ns.map Component.name := by
  refine components_slashed (a := .none) fun c hc => ?_
  obtain ⟨n, hn, rfl⟩ := List.mem_map.mp hc
  exact behind_name (h n hn)

/-- No segment is the start of a path. -/
theorem ofSegment_not_mem_anchor (s : String) (a : Anchor) :
    Component.ofSegment s ∉ a.components := by
  rw [Component.ofSegment]
  cases a <;> split <;> simp [Anchor.components]

/-! ## Spelling -/

/-- The segments without an empty one at their end. -/
def dropTrailing (segments : List String) : List String :=
  if segments.getLast? = some "" then segments.dropLast else segments

theorem dropTrailing_concat (init : List String) (s : String) :
    dropTrailing (init ++ [s]) = init ++ [s].filter (· ≠ "") := by
  rw [dropTrailing, List.getLast?_concat, List.dropLast_concat]
  by_cases hs : s = "" <;> simp [hs]

theorem dropTrailing_append (ss : List String) {ts : List String} (h : ts ≠ []) :
    dropTrailing (ss ++ ts) = ss ++ dropTrailing ts := by
  rw [dropTrailing, dropTrailing, List.getLast?_append_of_ne_nil _ h,
    List.dropLast_append_of_ne_nil h]
  split <;> rfl

theorem filter_dropTrailing (ss : List String) :
    (dropTrailing ss).filter (· ≠ "") = ss.filter (· ≠ "") := by
  rcases List.eq_nil_or_concat ss with rfl | ⟨init, s, rfl⟩
  · rfl
  · rw [List.concat_eq_append, dropTrailing_concat]
    by_cases hs : s = "" <;> simp [hs]

theorem isAbsolute_of_not_mem {s : String} (h : '/' ∉ s.toList) :
    (Path.mk s).isAbsolute = false := by
  rw [← Bool.not_eq_true, isAbsolute_iff]
  rintro ⟨t, ht⟩
  exact h (by rw [show s.toList = '/' :: t from ht]; exact List.mem_cons_self)

/-- A text ends with a slash if its last piece is empty. -/
theorem endsWith_iff_getLast? {text : String} (h : text ≠ "") :
    text.endsWith "/" = true ↔ (Text.split '/' text).getLast? = some "" := by
  rw [endsWith_slash_iff]
  constructor
  · rintro ⟨front, rfl⟩
    have hsplit := Text.split_append_slash front ""
    rw [String.append_empty] at hsplit
    rw [hsplit]
    exact List.getLast?_concat
  · intro hlast
    obtain ⟨init, hinit⟩ := List.getLast?_eq_some_iff.mp hlast
    have htext : text = Text.join '/' (init ++ [""]) := by rw [← hinit, Text.join_split]
    have hne : init ≠ [] := by
      rintro rfl
      exact h htext
    rw [Text.join_append hne (List.cons_ne_nil _ _), Text.join_singleton, String.append_empty] at htext
    exact ⟨_, htext⟩

/-- **SPELLING OF JOINED PATHS**: the segments of both, without an empty one between them. -/
theorem split_join {p q : Path} (hp : p.text ≠ "") (hq : q.isAbsolute = false) :
    Text.split '/' (p.join q).text
      = dropTrailing (Text.split '/' p.text) ++ Text.split '/' q.text := by
  have hsplit : ∀ front : String,
      Text.split '/' (front ++ "/") = Text.split '/' front ++ [""] := by
    intro front
    have h := Text.split_append_slash front ""
    rwa [String.append_empty] at h
  rw [join, hq, if_neg Bool.false_ne_true]
  by_cases hends : p.text.endsWith "/" = true
  · rw [if_pos (.inr hends)]
    obtain ⟨front, hfront⟩ := endsWith_slash_iff.mp hends
    show Text.split '/' (p.text ++ q.text) = _
    rw [hfront, Text.split_append_slash, hsplit, dropTrailing_concat]
    simp
  · rw [if_neg (not_or.mpr ⟨hp, hends⟩)]
    show Text.split '/' (p.text ++ "/" ++ q.text) = _
    rw [Text.split_append_slash, dropTrailing, if_neg]
    exact fun hlast => hends ((endsWith_iff_getLast? hp).mpr hlast)

/-- Joined one after the other, segments are spelled out but for empty ones before the last. -/
theorem split_down {p : Path} (hp : p.text ≠ "") {ss : List String}
    (hss : ∀ s ∈ ss, '/' ∉ s.toList) {s : String} (hs : '/' ∉ s.toList) :
    Text.split '/' (p.down (ss ++ [s])).text
      = dropTrailing (Text.split '/' p.text) ++ ss.filter (· ≠ "") ++ [s] := by
  induction ss generalizing p with
  | nil =>
      show Text.split '/' (p.join ⟨s⟩).text = _
      rw [split_join hp (isAbsolute_of_not_mem hs), Text.split_of_not_mem hs, List.filter_nil,
        List.append_nil]
  | cons t rest ih =>
      obtain ⟨ht, hrest⟩ := List.forall_mem_cons.mp hss
      have hjoined := split_join hp (q := ⟨t⟩) (isAbsolute_of_not_mem ht)
      rw [Text.split_of_not_mem ht] at hjoined
      have hne : (p.join ⟨t⟩).text ≠ "" := by
        rw [join, isAbsolute_of_not_mem ht, if_neg Bool.false_ne_true]
        split <;> simp [hp]
      show Text.split '/' ((p.join ⟨t⟩).down (rest ++ [s])).text = _
      rw [ih hne hrest, hjoined, dropTrailing_concat]
      by_cases ht : t = "" <;> simp [ht]

/-! ## Starts -/

/-- What the segments of a path start with: an empty one for the root. -/
def lead (p : Path) : List String := if p.isAbsolute then [""] else []

variable {base p : Path}

/-- A base to stand on: it has a text and does not start with a point. -/
structure Grounded (base : Path) : Prop where
  text_ne : base.text ≠ ""
  anchor_ne : base.anchor ≠ .here

/-- A grounded base is split into what leads it and its body. -/
theorem Grounded.split_eq (h : Grounded base) :
    Text.split '/' base.text = lead base ++ base.body := by
  rw [lead]
  rcases base.start_cases with ⟨habs, -, s, rest, hsplit, hbody⟩ | ⟨habs, ⟨ha, -⟩ | ⟨-, hbody, -⟩⟩
  · rw [habs, if_pos rfl, hsplit, hbody]
    rfl
  · exact absurd ha h.anchor_ne
  · rw [habs, if_neg Bool.false_ne_true, hbody]
    rfl

theorem Grounded.body_ne_nil (h : Grounded base) : base.body ≠ [] := by
  rcases base.start_cases with ⟨-, -, s, rest, -, hbody⟩ | ⟨-, ⟨ha, -⟩ | ⟨-, hbody, -⟩⟩
  · rw [hbody]
    exact List.cons_ne_nil s rest
  · exact absurd ha h.anchor_ne
  · rw [hbody]
    exact Text.split_ne_nil _ _

/-- Where there is no root, the first segment means something. -/
theorem Grounded.exists_first (h : Grounded base) (habs : base.isAbsolute = false) :
    ∃ s rest, base.body = s :: rest ∧ isVoid s = false := by
  rcases base.start_cases with ⟨habs', -⟩ | ⟨-, ⟨ha, -⟩ | ⟨-, hbody, hstart⟩⟩
  · rw [habs] at habs'
    cases habs'
  · exact absurd ha h.anchor_ne
  · rw [hbody]
    exact hstart.resolve_right h.text_ne

/-- A path whose segments start like those of a base starts from the same. -/
theorem Grounded.start_eq (h : Grounded base) {segments : List String}
    (hsplit : Text.split '/' p.text = lead base ++ segments) (hne : segments ≠ [])
    (hfirst : base.isAbsolute = false → ∃ s rest, segments = s :: rest ∧ isVoid s = false) :
    p.isAbsolute = base.isAbsolute ∧ p.anchor = base.anchor ∧ p.body = segments := by
  rw [lead] at hsplit
  rcases base.start_cases with ⟨habs, ha, -⟩ | ⟨habs, ⟨ha, -⟩ | ⟨ha, -⟩⟩
  · rw [habs, if_pos rfl, List.singleton_append] at hsplit
    obtain ⟨t, more, rfl⟩ := List.exists_cons_of_ne_nil hne
    rw [habs, ha]
    rcases p.start_cases with ⟨hp, hpa, s, rest, hps, hbody⟩ | ⟨-, ⟨-, rest, hps, -⟩ | ⟨-, -, hstart⟩⟩
    · rw [hps] at hsplit
      exact ⟨hp, hpa, hbody.trans (List.cons.inj hsplit).2⟩
    · rw [hps] at hsplit
      exact absurd (List.cons.inj hsplit).1 (by decide)
    · rcases hstart with ⟨s, rest, hps, hs⟩ | htext
      · rw [hps] at hsplit
        rw [(List.cons.inj hsplit).1] at hs
        exact absurd hs (by decide)
      · rw [htext] at hsplit
        cases (List.cons.inj hsplit).2
  · exact absurd ha h.anchor_ne
  · rw [habs, if_neg Bool.false_ne_true, List.nil_append] at hsplit
    obtain ⟨t, more, rfl, ht⟩ := hfirst habs
    rw [habs, ha]
    rcases p.start_cases with ⟨-, -, s, rest, hps, -⟩ | ⟨hp, ⟨-, rest, hps, -⟩ | ⟨hpa, hbody, -⟩⟩
    · rw [hps] at hsplit
      rw [← (List.cons.inj hsplit).1] at ht
      exact absurd ht (by decide)
    · rw [hps] at hsplit
      rw [← (List.cons.inj hsplit).1] at ht
      exact absurd ht (by decide)
    · exact ⟨hp, hpa, hbody.trans hsplit⟩

/-- What is joined to a base has the segments of both after the start of the base. -/
theorem Grounded.start_join (h : Grounded base) {q : Path} (hq : q.isAbsolute = false) :
    Text.split '/' (base.join q).text
        = lead base ++ (dropTrailing base.body ++ Text.split '/' q.text) ∧
      (base.join q).isAbsolute = base.isAbsolute := by
  have hsplit : Text.split '/' (base.join q).text
      = lead base ++ (dropTrailing base.body ++ Text.split '/' q.text) := by
    rw [split_join h.text_ne hq, h.split_eq, dropTrailing_append _ h.body_ne_nil, List.append_assoc]
  refine ⟨hsplit, (h.start_eq hsplit ?_ fun habs => ?_).1⟩
  · exact List.append_ne_nil_of_right_ne_nil _ (Text.split_ne_nil _ _)
  · obtain ⟨s, rest, hbody, hs⟩ := h.exists_first habs
    have hnonempty : s ≠ "" := by
      rintro rfl
      exact absurd hs (by decide)
    have htrailing : ∃ more, dropTrailing (s :: rest) = s :: more := by
      rcases List.eq_nil_or_concat rest with rfl | ⟨init, last, rfl⟩
      · exact ⟨[], if_neg (by simpa using hnonempty)⟩
      · rw [List.concat_eq_append, ← List.cons_append, dropTrailing_concat]
        exact ⟨_, rfl⟩
    obtain ⟨more, hmore⟩ := htrailing
    rw [hbody, hmore]
    exact ⟨s, _, rfl, hs⟩

/-! ## Segments seen from a base -/

theorem dropSegments_cons_void {s : String} (hs : isVoid s = true) (n : Nat) (ss : List String) :
    dropSegments n (s :: ss) = dropSegments n ss := by
  cases n <;> rw [dropSegments, List.dropWhile_cons_of_pos hs, dropSegments]

/-- What is left after the segments of a base are those behind them. -/
theorem dropSegments_append (ss ts : List String) :
    dropSegments (steps ss).length (ss ++ ts) = ts.dropWhile isVoid := by
  induction ss with
  | nil => rfl
  | cons s ss ih =>
      rw [List.cons_append]
      by_cases hs : isVoid s = true
      · rw [steps_cons_void hs, dropSegments_cons_void hs, ih]
      · rw [steps_cons, if_neg hs, List.length_cons, dropSegments, List.dropWhile_cons_of_neg hs,
          List.tail_cons, ih]

/-- **SEEN FROM A BASE**, a path is spelled by the segments it has after those of the base, from
    the first to the last that means something. -/
theorem stripPrefix?_of_body {ss ts : List String} (hbase : base.text ≠ "")
    (ha : p.anchor = base.anchor) (hbody : p.body = ss ++ ts) (hss : steps ss = steps base.body) :
    p.stripPrefix? base = some (ofBody .none (trimEnd (ts.dropWhile isVoid))) := by
  have hbasecs : base.components = base.anchor.components ++ steps base.body := rfl
  have hstarts : p.startsWith base = true := by
    refine List.isPrefixOf_iff_prefix.mpr ⟨steps ts, ?_⟩
    show _ = p.anchor.components ++ steps p.body
    rw [hbody, steps_append, hss, ha, ← List.append_assoc]
    rfl
  have hne : base.components.length ≠ 0 := fun h =>
    hbase ((components_eq_nil_iff base).mp (List.length_eq_zero_iff.mp h))
  rw [stripPrefix?, if_pos hstarts]
  dsimp only
  rw [if_neg hne, ha, hbasecs, List.length_append, Nat.add_sub_cancel_left, hbody, ← hss,
    dropSegments_append]

end Path

end MessageKeys
