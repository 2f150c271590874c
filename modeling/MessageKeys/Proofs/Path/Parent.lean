import MessageKeys.Proofs.Path.Below

/-! # Parents — one component less

    A parent starts as its path does and goes all steps but the last one (`steps_parent?`).  It
    is spelled like the front of its path (`text_parent?`), so what is too long below a parent
    is too long below the path. -/

namespace MessageKeys

namespace Text

/-- The front of some pieces is the front of their text. -/
theorem join_front {ss ts : List String} {s : String} (hs : s ∈ ts) (hne : s ≠ "") :
    ∃ more, more ≠ "" ∧ join '/' (ss ++ ts) = join '/' ss ++ more := by
  have hts : ts ≠ [] := List.ne_nil_of_mem hs
  cases ss with
  | nil =>
      refine ⟨join '/' ts, ?_, by rw [List.nil_append, show join '/' [] = "" from rfl,
        String.empty_append]⟩
      intro hempty
      have hsub := join_sublist (List.singleton_sublist.mpr hs)
      rw [join_singleton, hempty] at hsub
      exact hne (String.toList_eq_nil_iff.mp (List.sublist_nil.mp hsub))
  | cons t rest =>
      refine ⟨"/" ++ join '/' ts, ?_, ?_⟩
      · intro hempty
        have := congrArg String.toList hempty
        rw [String.toList_append] at this
        cases this
      · rw [join_append (List.cons_ne_nil t rest) hts, String.append_assoc]

end Text

namespace Path

variable {p q : Path}

/-! ## Steps -/

/-- The texts of steps are the segments that mean something. -/
theorem texts_steps (ss : List String) :
    (steps ss).map Component.text = ss.filter fun s => !isVoid s := by
  rw [steps, List.map_map]
  exact (List.map_congr_left fun s _ => text_ofSegment s).trans (List.map_id _)

theorem Behind.not_mem_anchor {c : Component} (h : Behind c) (a : Anchor) :
    c ∉ a.components := by
  obtain ⟨s, -, -, rfl⟩ := h
  exact ofSegment_not_mem_anchor s a

theorem isAbsolute_eq (p : Path) : p.isAbsolute = true ↔ p.anchor = .root := by
  rcases p.start_cases with ⟨habs, ha, -⟩ | ⟨habs, ⟨ha, -⟩ | ⟨ha, -⟩⟩
  · exact iff_of_true habs ha
  · rw [habs, ha]
    exact iff_of_false Bool.false_ne_true (by rintro ⟨⟩)
  · rw [habs, ha]
    exact iff_of_false Bool.false_ne_true (by rintro ⟨⟩)

/-- Components tell where a path starts and which steps it goes. -/
theorem start_of_components {a : Anchor} {cs : List Component} (hcs : ∀ c ∈ cs, Behind c)
    (h : p.components = a.components ++ cs) :
    p.anchor = a ∧ steps (Text.split '/' p.text) = cs := by
  rw [components_eq] at h
  have hsteps : ∀ c ∈ steps (Text.split '/' p.text), Behind c := fun c => behind_steps
  -- what a path starts from is no step, so it is the same on both sides
  cases hp : p.anchor <;> cases a <;> rw [hp] at h
  case root.root => exact ⟨rfl, (List.cons.inj h).2⟩
  case here.here => exact ⟨rfl, (List.cons.inj h).2⟩
  case none.none => exact ⟨rfl, h⟩
  case root.here => cases h
  case here.root => cases h
  case root.none =>
    have h : .root :: steps (Text.split '/' p.text) = cs := h
    exact absurd List.mem_cons_self ((hcs .root (h ▸ List.mem_cons_self)).not_mem_anchor .root)
  case here.none =>
    have h : .here :: steps (Text.split '/' p.text) = cs := h
    exact absurd List.mem_cons_self ((hcs .here (h ▸ List.mem_cons_self)).not_mem_anchor .here)
  case none.root =>
    have h : steps (Text.split '/' p.text) = .root :: cs := h
    exact absurd List.mem_cons_self ((hsteps .root (h ▸ List.mem_cons_self)).not_mem_anchor .root)
  case none.here =>
    have h : steps (Text.split '/' p.text) = .here :: cs := h
    exact absurd List.mem_cons_self ((hsteps .here (h ▸ List.mem_cons_self)).not_mem_anchor .here)

/-- **ONE STEP LESS**: a parent starts where its path does, and does not go the last step. -/
theorem steps_parent? (h : p.parent? = some q) : q.isAbsolute = p.isAbsolute ∧
    steps (Text.split '/' q.text) = (steps (Text.split '/' p.text)).dropLast := by
  obtain ⟨-, hroot, hq⟩ := components_parent? h
  rw [components_eq p] at hroot hq
  have hsteps : ∀ c ∈ (steps (Text.split '/' p.text)).dropLast, Behind c :=
    fun c hc => behind_steps ((List.dropLast_sublist _).subset hc)
  rw [Bool.eq_iff_iff, isAbsolute_eq, isAbsolute_eq]
  by_cases hnone : steps (Text.split '/' p.text) = []
  · -- the path was a point, and its parent has no text
    rw [hnone, List.append_nil] at hroot hq
    rw [hnone]
    have hempty : q.components = Anchor.components .none ++ [] := by
      rw [hq]
      cases p.anchor <;> rfl
    obtain ⟨ha, hno⟩ := start_of_components (fun _ hc => absurd hc List.not_mem_nil) hempty
    refine ⟨?_, hno⟩
    rw [ha]
    exact iff_of_false (by rintro ⟨⟩) fun hp => hroot (by rw [hp]; rfl)
  · rw [List.dropLast_append_of_ne_nil hnone] at hq
    obtain ⟨ha, hrest⟩ := start_of_components hsteps hq
    rw [ha]
    exact ⟨Iff.rfl, hrest⟩

/-- A path has fewer components than its parents. -/
theorem length_parent? (h : p.parent? = some q) :
    q.components.length < p.components.length := by
  obtain ⟨hne, -, hq⟩ := components_parent? h
  rw [hq, List.length_dropLast]
  have := List.length_pos_iff.mpr hne
  omega

/-! ## Spelling -/

/-- A path is spelled by its start and its segments. -/
theorem ofBody_body (p : Path) : ofBody p.anchor p.body = p := by
  obtain ⟨text⟩ := p
  have hsplit := Text.join_split '/' text
  rcases (Path.mk text).start_cases with
    ⟨-, ha, s, rest, hp, hb⟩ | ⟨-, ⟨ha, rest, hp, hb⟩ | ⟨ha, hb, -⟩⟩
  · change Text.split '/' text = _ at hp
    rw [hp, Text.join_cons_cons, String.empty_append] at hsplit
    rw [ha, hb, ofBody, hsplit]
  · change Text.split '/' text = _ at hp
    rw [ha, hb, ofBody]
    cases rest with
    | nil =>
        rw [hp, Text.join_singleton] at hsplit
        rw [← hsplit]
        rfl
    | cons s rest =>
        rw [hp, Text.join_cons_cons] at hsplit
        rw [← hsplit]
        rfl
  · rw [ha, hb, ofBody, hsplit]

/-- More segments are spelled behind the first ones. -/
theorem text_ofBody_append (a : Anchor) {ss ts : List String} {s : String} (hs : s ∈ ts)
    (hne : s ≠ "") :
    ∃ more, more ≠ "" ∧ (ofBody a (ss ++ ts)).text = (ofBody a ss).text ++ more := by
  obtain ⟨more, hmore, hjoin⟩ := @Text.join_front ss ts s hs hne
  have hts : ss ++ ts ≠ [] := List.append_ne_nil_of_right_ne_nil ss (List.ne_nil_of_mem hs)
  cases a with
  | root => exact ⟨more, hmore, by rw [ofBody, ofBody, hjoin, String.append_assoc]⟩
  | none => exact ⟨more, hmore, by rw [ofBody, ofBody, hjoin]⟩
  | here =>
      rw [ofBody, ofBody, if_neg (by simpa using hts), hjoin]
      by_cases hss : ss = []
      · subst hss
        refine ⟨"/" ++ more, ?_, rfl⟩
        intro hempty
        have := congrArg String.toList hempty
        rw [String.toList_append] at this
        cases this
      · rw [if_neg (by simpa using hss)]
        exact ⟨more, hmore, String.append_assoc.symm⟩

/-- **SPELLED LIKE THE FRONT**: a parent has the text of its path up to some character. -/
theorem text_parent? (h : p.parent? = some q) : ∃ more, more ≠ "" ∧ p.text = q.text ++ more := by
  obtain ⟨hne, -⟩ := components_parent? h
  rw [parent?] at h
  split at h
  · -- the path is a point, and its parent has no text
    split at h
    · obtain rfl := Option.some.inj h
      exact ⟨p.text, fun he => hne ((components_eq_nil_iff p).mpr he), String.empty_append.symm⟩
    · cases h
  · next s rest htrim =>
    obtain rfl := Option.some.inj h
    -- the last segment that means something does not belong to the parent
    obtain ⟨last, hlast⟩ : ∃ last, s :: rest = (s :: rest).dropLast ++ [last] :=
      ⟨_, (List.dropLast_append_getLast (List.cons_ne_nil s rest)).symm⟩
    have hnonempty : last ≠ "" := by
      rintro rfl
      exact absurd (trimEnd_getLast (htrim.trans hlast)) (by decide)
    obtain ⟨voids, hvoids⟩ := trimEnd_front p.body
    obtain ⟨trimmed, htrimmed⟩ := trimEnd_front (s :: rest).dropLast
    have hbody : p.body = trimEnd (s :: rest).dropLast ++ (trimmed ++ [last] ++ voids) := by
      rw [← List.append_assoc, ← List.append_assoc, htrimmed, ← hlast, ← htrim, hvoids]
    have hp := ofBody_body p
    rw [hbody] at hp
    have hmem : last ∈ trimmed ++ [last] ++ voids :=
      List.mem_append_left voids (List.mem_append_right trimmed List.mem_cons_self)
    obtain ⟨more, hmore, htext⟩ :=
      @text_ofBody_append p.anchor (trimEnd (s :: rest).dropLast) _ last hmem hnonempty
    exact ⟨more, hmore, (congrArg Path.text hp).symm.trans htext⟩

/-- The path of a name gets no shorter with a longer name. -/
theorem join_size_le {m n : String} (hm : (Path.mk m).isAbsolute = false)
    (hn : (Path.mk n).isAbsolute = false) (h : m.utf8ByteSize ≤ n.utf8ByteSize) :
    (p.join ⟨m⟩).text.utf8ByteSize ≤ (p.join ⟨n⟩).text.utf8ByteSize := by
  rw [join, join, hm, hn, if_neg Bool.false_ne_true, if_neg Bool.false_ne_true]
  split <;> simp only [String.utf8ByteSize_append] <;> omega

/-- The path of a name below a parent is not longer. -/
theorem join_size_parent? (h : p.parent? = some q) {n : String}
    (hn : (Path.mk n).isAbsolute = false) :
    (q.join ⟨n⟩).text.utf8ByteSize ≤ (p.join ⟨n⟩).text.utf8ByteSize := by
  obtain ⟨more, hmore, htext⟩ := text_parent? h
  have hsize : more.utf8ByteSize ≠ 0 := fun h => hmore (String.utf8ByteSize_eq_zero_iff.mp h)
  rw [join, join, hn, if_neg Bool.false_ne_true, if_neg Bool.false_ne_true, htext]
  have hslash : "/".utf8ByteSize = 1 := rfl
  split <;> split <;> simp only [String.utf8ByteSize_append, hslash] <;> omega

end Path

end MessageKeys
