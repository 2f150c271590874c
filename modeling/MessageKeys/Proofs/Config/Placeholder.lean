import MessageKeys.Config.Catalogs
import MessageKeys.Proofs.Path.Below
import MessageKeys.Proofs.Text

/-! # Places for the locale — a pattern of catalog files filled in

    A pattern that can be used is divided at its first place for the locale
    (`splitAtPlaceholder?_eq_some`).  The places do not reach over slashes, so a pattern is filled
    in segment by segment (`cut_fill`). -/

namespace MessageKeys.Config

variable {l cs front back : List Char}

theorem fill_skip (l : List Char) (n : Nat) (cs : List Char) :
    fillPlaceholders l n cs = fillPlaceholders l 0 (cs.drop n) := by
  induction cs generalizing n with
  | nil => rw [List.drop_nil, fillPlaceholders, fillPlaceholders]
  | cons c cs ih =>
      cases n with
      | zero => rfl
      | succ n => rw [fillPlaceholders, ih, List.drop_succ_cons]

/-- A placeholder is filled with the locale. -/
theorem fill_placeholder (l cs : List Char) :
    fillPlaceholders l 0 (placeholder.toList ++ cs) = l ++ fillPlaceholders l 0 cs := by
  have hplace : placeholder.toList = '\x7b' :: "locale\x7d".toList := by decide +kernel
  have hafter : Text.after? placeholder.toList (placeholder.toList ++ cs) = some cs :=
    Text.after?_eq_some.mpr rfl
  rw [hplace, List.cons_append, fillPlaceholders, ← List.cons_append, ← hplace, hafter,
    Option.isSome_some, if_pos rfl, fill_skip]
  rfl

/-- Any other character is kept. -/
theorem fill_char {c : Char} (h : Text.after? placeholder.toList (c :: cs) = none) :
    fillPlaceholders l 0 (c :: cs) = c :: fillPlaceholders l 0 cs := by
  rw [fillPlaceholders, h, Option.isSome_none, if_neg Bool.false_ne_true]

/-- **DIVIDING A PATTERN** at its first place for the locale. -/
theorem splitAtPlaceholder?_eq_some (h : splitAtPlaceholder? cs = some (front, back)) :
    cs = front ++ placeholder.toList ++ back ∧
      ∀ l, fillPlaceholders l 0 cs = front ++ l ++ fillPlaceholders l 0 back := by
  induction cs generalizing front with
  | nil => cases h
  | cons c cs ih =>
      rw [splitAtPlaceholder?] at h
      split at h
      · next rest hafter =>
        cases h
        have hcs := Text.after?_eq_some.mp hafter
        refine ⟨hcs, fun l => ?_⟩
        rw [hcs, fill_placeholder]
        rfl
      · next hafter =>
        obtain ⟨⟨front', back'⟩, hsplit, he⟩ := Option.map_eq_some_iff.mp h
        cases he
        obtain ⟨hcs, hfill⟩ := ih hsplit
        refine ⟨congrArg (c :: ·) hcs, fun l => ?_⟩
        rw [fill_char hafter, hfill]
        rfl

/-- A configuration that can be used has a place for the locale. -/
theorem exists_split_of_validate {c : Config} (h : c.validate = .ok ()) :
    ∃ front back, splitAtPlaceholder? c.catalogPattern.toList = some (front, back) := by
  rw [validate] at h
  split at h
  · cases h
  · split at h
    · cases h
    · split at h
      · cases h
      · next hsome =>
        rw [Bool.not_eq_true, Option.isNone_eq_false_iff, Option.isSome_iff_exists] at hsome
        obtain ⟨⟨front, back⟩, hsplit⟩ := hsome
        exact ⟨front, back, hsplit⟩

/-- What is filled in are characters of the locale or of the pattern. -/
theorem mem_fill {n : Nat} {c : Char} (h : c ∈ fillPlaceholders l n cs) : c ∈ l ∨ c ∈ cs := by
  induction cs generalizing n with
  | nil => cases n <;> cases h
  | cons d cs ih =>
      cases n with
      | succ n => exact (ih h).imp_right (List.mem_cons_of_mem d)
      | zero =>
          rw [fillPlaceholders] at h
          split at h
          · rcases List.mem_append.mp h with h | h
            · exact .inl h
            · exact (ih h).imp_right (List.mem_cons_of_mem d)
          · rcases List.mem_cons.mp h with rfl | h
            · exact .inr List.mem_cons_self
            · exact (ih h).imp_right (List.mem_cons_of_mem d)

/-- Characters that are no slash make the first piece longer. -/
theorem cut_append_first {ds : List Char} (h : '/' ∉ ds) {first : List Char}
    {rest : List (List Char)} (hcs : Text.cut '/' cs = first :: rest) :
    Text.cut '/' (ds ++ cs) = (ds ++ first) :: rest := by
  induction ds with
  | nil => exact hcs
  | cons d ds ih =>
      obtain ⟨hd, hds⟩ := not_or.mp fun h' => h (List.mem_cons.mpr h')
      rw [List.cons_append, Text.cut, if_neg (Ne.symm hd), ih hds]
      rfl

/-- A text starts with its first piece. -/
theorem exists_append_of_cut {first : List Char} {rest : List (List Char)}
    (h : Text.cut '/' cs = first :: rest) : ∃ more, cs = first ++ more := by
  rw [← Text.glue_cut '/' cs, h]
  cases rest with
  | nil => exact ⟨[], (List.append_nil _).symm⟩
  | cons second rest => exact ⟨_, rfl⟩

/-- A text has no front that does not start a longer one either. -/
theorem after?_eq_none_of_append {ds more : List Char}
    (h : Text.after? ds (cs ++ more) = none) : Text.after? ds cs = none := by
  cases hafter : Text.after? ds cs with
  | none => rfl
  | some rest =>
      have hcs := Text.after?_eq_some.mp hafter
      have hwhole : Text.after? ds (cs ++ more) = some (rest ++ more) := by
        rw [Text.after?_eq_some, hcs, List.append_assoc]
      rw [h] at hwhole
      cases hwhole

/-- **FILLING IN** goes segment by segment. -/
theorem cut_fill (hl : '/' ∉ l) (cs : List Char) :
    Text.cut '/' (fillPlaceholders l 0 cs) = (Text.cut '/' cs).map (fillPlaceholders l 0) := by
  -- a place is read at once, so the induction is on the length of the text
  induction hlength : cs.length using Nat.strongRecOn generalizing cs with
  | ind n ih =>
      cases cs with
      | nil => rfl
      | cons c cs =>
          cases hafter : Text.after? placeholder.toList (c :: cs) with
          | some rest =>
              have hcs := Text.after?_eq_some.mp hafter
              have hshort : rest.length < n := by
                rw [← hlength, hcs, List.length_append]
                have : placeholder.toList.length = 8 := by decide +kernel
                omega
              have hrest := ih _ hshort rest rfl
              obtain ⟨first, more, hcut⟩ := List.exists_cons_of_ne_nil (Text.cut_ne_nil '/' rest)
              rw [hcut, List.map_cons] at hrest
              rw [hcs, fill_placeholder, cut_append_first hl hrest,
                cut_append_first (by decide +kernel) hcut, List.map_cons, fill_placeholder]
          | none =>
              have hrest := ih _ (by rw [← hlength]; exact Nat.lt_succ_self _) cs rfl
              rw [fill_char hafter]
              by_cases hslash : c = '/'
              · rw [hslash, Text.cut, if_pos rfl, Text.cut, if_pos rfl, hrest, List.map_cons]
                rfl
              · obtain ⟨first, more, hcut⟩ := List.exists_cons_of_ne_nil (Text.cut_ne_nil '/' cs)
                rw [hcut, List.map_cons] at hrest
                have hone : '/' ∉ [c] := by simpa using Ne.symm hslash
                -- a place for the locale in the first segment would be one in the whole
                have hfirst : Text.after? placeholder.toList (c :: first) = none := by
                  obtain ⟨tail, rfl⟩ := exists_append_of_cut hcut
                  exact after?_eq_none_of_append hafter
                have hwhole := cut_append_first hone hrest
                have hplain := cut_append_first hone hcut
                rw [List.singleton_append, List.singleton_append] at hwhole hplain
                rw [hwhole, hplain, List.map_cons, fill_char hfirst]

/-! ## Segments -/

/-- The parts of a pattern around the first place for the locale, by segment: the place stands
    between `u` and `v`. -/
structure Segments (front back : List Char) (init : List String) (u v : String)
    (rest : List String) : Prop where
  front_eq : Text.split '/' (String.ofList front) = init ++ [u]
  back_eq : Text.split '/' (String.ofList back) = v :: rest

/-- Every pattern has a segment that its first placeholder stands in. -/
theorem exists_segments (front back : List Char) :
    ∃ init u v rest, Segments front back init u v rest := by
  obtain ⟨init, u, hfront⟩ := (List.eq_nil_or_concat (Text.split '/' (String.ofList front)))
    |>.resolve_left (Text.split_ne_nil _ _)
  obtain ⟨v, rest, hback⟩ := List.exists_cons_of_ne_nil (Text.split_ne_nil '/' (String.ofList back))
  exact ⟨init, u, v, rest, hfront.trans List.concat_eq_append, hback⟩

variable {init rest : List String} {u v : String}

theorem Segments.slashless (h : Segments front back init u v rest) :
    ∀ s ∈ init ++ u :: v :: rest, '/' ∉ s.toList := by
  have hfront : ∀ s ∈ init ++ [u], '/' ∉ s.toList := fun s hs =>
    Text.not_mem_of_mem_split (h.front_eq ▸ hs)
  have hback : ∀ s ∈ v :: rest, '/' ∉ s.toList := fun s hs =>
    Text.not_mem_of_mem_split (h.back_eq ▸ hs)
  intro s hs
  rw [← List.singleton_append, ← List.append_assoc] at hs
  exact (List.mem_append.mp hs).elim (hfront s) (hback s)

/-- What is put in the place stands between the parts of the pattern. -/
theorem Segments.join_place (h : Segments front back init u v rest) (m : String) :
    Text.join '/' (init ++ (u ++ m ++ v) :: rest) = String.ofList front ++ m ++ String.ofList back := by
  rw [Text.join_around, ← h.front_eq, ← h.back_eq, Text.join_split, Text.join_split]

/-- A name without separators fills the gap in one segment. -/
theorem Segments.split_place (h : Segments front back init u v rest) {m : String}
    (hm : '/' ∉ m.toList) :
    Text.split '/' (String.ofList front ++ m ++ String.ofList back) = init ++ (u ++ m ++ v) :: rest := by
  have hslashless := h.slashless
  rw [← h.join_place, Text.split_join (by simp)]
  intro s hs
  rcases List.mem_append.mp hs with hs | hs
  · exact hslashless s (List.mem_append_left _ hs)
  · rcases List.mem_cons.mp hs with rfl | hs
    · rw [String.toList_append, String.toList_append, List.mem_append, List.mem_append]
      rintro ((hmem | hmem) | hmem)
      · exact hslashless u (by simp) hmem
      · exact hm hmem
      · exact hslashless v (by simp) hmem
    · exact hslashless s (by simp [hs])

/-- A text with its places for the locale filled in. -/
def fillText (l : List Char) (s : String) : String := String.ofList (fillPlaceholders l 0 s.toList)

/-- Filling further placeholders does not move the separators. -/
theorem Segments.fill (hl : '/' ∉ l) (h : Segments front back init u v rest) :
    Segments front (fillPlaceholders l 0 back) init u (fillText l v) (rest.map (fillText l)) := by
  refine ⟨h.front_eq, ?_⟩
  have hback := h.back_eq
  rw [Text.split, String.toList_ofList] at hback ⊢
  rw [cut_fill hl, ← List.map_cons, ← hback, List.map_map, List.map_map]
  refine List.map_congr_left fun s _ => ?_
  rw [Function.comp_apply, Function.comp_apply, fillText, String.toList_ofList]

end MessageKeys.Config
