import MessageKeys.Text.CharacterClass
import MessageKeys.Text.Split

/-! # Texts — runs of characters, blanks and lines

    A text splits in one way only into a run of characters of a class and the rest that starts
    outside of the class (`run_unique`); all readers of the grammar of references rest on that.

    What is matched line by line is stated on the whole text: a place in a line is a place in
    the text, and what can be read from there is the first line of what follows
    (`place_of_mem_lines`, `mem_lines_of_place`, `firstLine`). -/

namespace MessageKeys.Text

/-! ## Fronts -/

@[simp] theorem after?_eq_some {front cs rest : List Char} :
    after? front cs = some rest ↔ cs = front ++ rest := by
  induction front generalizing cs with
  | nil => exact ⟨fun h => Option.some.inj h, fun h => congrArg some h⟩
  | cons p ps ih =>
      cases cs with
      | nil => exact iff_of_false (by rintro ⟨⟩) (by rintro ⟨⟩)
      | cons c cs =>
          rw [after?]
          by_cases h : p = c
          · rw [if_pos h, ih, h, List.cons_append, List.cons.injEq]
            exact ⟨fun hcs => ⟨rfl, hcs⟩, fun hcs => hcs.2⟩
          · rw [if_neg h]
            refine iff_of_false (by rintro ⟨⟩) fun he => ?_
            exact h (List.cons.inj he).1.symm

/-- A run of a class and what follows it are determined by the whole. -/
theorem run_unique {p : Char → Bool} {xs ys : List Char} {c d : Char} {cs ds : List Char}
    (hx : ∀ x ∈ xs, p x = true) (hy : ∀ y ∈ ys, p y = true) (hc : p c = false) (hd : p d = false)
    (h : xs ++ c :: cs = ys ++ d :: ds) : xs = ys ∧ c = d ∧ cs = ds := by
  induction xs generalizing ys with
  | nil =>
      cases ys with
      | nil => exact ⟨rfl, List.cons.inj h⟩
      | cons y ys =>
          have hcy : c = y := (List.cons.inj h).1
          rw [hcy, hy y List.mem_cons_self] at hc
          cases hc
  | cons x xs ih =>
      cases ys with
      | nil =>
          have hxd : x = d := (List.cons.inj h).1
          rw [← hxd, hx x List.mem_cons_self] at hd
          cases hd
      | cons y ys =>
          obtain ⟨rfl, htail⟩ := List.cons.inj h
          obtain ⟨rfl, hrest⟩ := ih (fun z hz => hx z (List.mem_cons_of_mem _ hz))
            (fun z hz => hy z (List.mem_cons_of_mem _ hz)) htail
          exact ⟨rfl, hrest⟩

/-- The character at a place of a part of the text is one of that part. -/
theorem mem_of_place {before cs start block rest : List Char} {c : Char}
    (he : before ++ c :: cs = start ++ (block ++ rest)) (hlow : start.length ≤ before.length)
    (hhigh : before.length < start.length + block.length) : c ∈ block := by
  have hget : (before ++ c :: cs)[before.length]? = some c := by simp
  rw [he, List.getElem?_append_right hlow, List.getElem?_append_left (by omega)] at hget
  exact List.mem_of_getElem? hget

/-- Dropping a class leaves the text from the first character outside of it. -/
theorem dropWhile_eq_cons {p : Char → Bool} {cs : List Char} {c : Char} {rest : List Char} :
    cs.dropWhile p = c :: rest ↔
      ∃ run, (∀ x ∈ run, p x = true) ∧ p c = false ∧ cs = run ++ c :: rest := by
  constructor
  · intro h
    induction cs with
    | nil => cases h
    | cons d ds ih =>
        rw [List.dropWhile_cons] at h
        split at h
        · next hd =>
          obtain ⟨run, hrun, hc, rfl⟩ := ih h
          refine ⟨d :: run, ?_, hc, rfl⟩
          intro x hx
          rcases List.mem_cons.mp hx with rfl | hx
          · exact hd
          · exact hrun x hx
        · next hd =>
          obtain ⟨rfl, rfl⟩ := List.cons.inj h
          exact ⟨[], fun _ hx => absurd hx List.not_mem_nil, by simpa using hd, rfl⟩
  · rintro ⟨run, hrun, hc, rfl⟩
    induction run with
    | nil => rw [List.nil_append, List.dropWhile_cons, if_neg (by simp [hc])]
    | cons d ds ih =>
        rw [List.cons_append, List.dropWhile_cons, if_pos (hrun d List.mem_cons_self)]
        exact ih fun x hx => hrun x (List.mem_cons_of_mem _ hx)

/-- White space and nothing else. -/
def Blanks (cs : List Char) : Prop := ∀ c ∈ cs, isBlank c = true

/-! ## Lines -/

/-- What stands before the first line feed, without a carriage return that belongs to it. -/
def firstLine (cs : List Char) : List Char := (lines cs).headD []

/-- The characters end with a line feed, or there are none. -/
def EndsLine (cs : List Char) : Prop := cs = [] ∨ cs.getLast? = some '\n'

/-- A text is one line, or has a first one. -/
theorem line_cases (cs : List Char) :
    '\n' ∉ cs ∨ ∃ line rest, '\n' ∉ line ∧ cs = line ++ '\n' :: rest := by
  by_cases h : '\n' ∈ cs
  · obtain ⟨line, rest, hcs, hline⟩ := List.eq_append_cons_of_mem h
    exact .inr ⟨line, rest, hline, hcs⟩
  · exact .inl h

/-- Texts line by line: the last line ends no line, the others do. -/
@[elab_as_elim] theorem line_induction {motive : List Char → Prop}
    (last : ∀ line, '\n' ∉ line → motive line)
    (feed : ∀ line rest, '\n' ∉ line → motive rest → motive (line ++ '\n' :: rest))
    (cs : List Char) : motive cs := by
  obtain ⟨n, hn⟩ : ∃ n, cs.length ≤ n := ⟨_, Nat.le_refl _⟩
  -- the rest is shorter than the text, but no tail of it
  induction n generalizing cs with
  | zero =>
      rw [List.length_eq_zero_iff.mp (Nat.le_zero.mp hn)]
      exact last [] List.not_mem_nil
  | succ n ih =>
      rcases line_cases cs with hcs | ⟨line, rest, hline, rfl⟩
      · exact last cs hcs
      · refine feed line rest hline (ih rest ?_)
        simp only [List.length_append, List.length_cons] at hn
        omega

theorem lines_of_not_mem {line : List Char} (h : '\n' ∉ line) :
    lines line = if line.isEmpty then [] else [line] := by
  rw [lines, cut_of_not_mem h, linesOfPieces]

theorem lines_append {line : List Char} (h : '\n' ∉ line) (rest : List Char) :
    lines (line ++ '\n' :: rest) = dropReturn line :: lines rest := by
  rw [lines, cut_append_sep h, lines]
  cases hcut : cut '\n' rest with
  | nil => exact absurd hcut (cut_ne_nil _ _)
  | cons next more => rfl

theorem firstLine_of_not_mem {line : List Char} (h : '\n' ∉ line) : firstLine line = line := by
  rw [firstLine, lines_of_not_mem h]
  cases line with
  | nil => rfl
  | cons c cs => rfl

theorem firstLine_append_feed {line : List Char} (h : '\n' ∉ line) (rest : List Char) :
    firstLine (line ++ '\n' :: rest) = dropReturn line := by
  rw [firstLine, lines_append h]
  rfl

/-- A carriage return is all that a line can lose. -/
theorem dropReturn_spec (line : List Char) :
    line = dropReturn line ∨ line = dropReturn line ++ ['\r'] := by
  rw [dropReturn]
  split
  · next h =>
    obtain ⟨init, rfl⟩ := List.getLast?_eq_some_iff.mp h
    rw [List.dropLast_concat]
    exact .inr rfl
  · exact .inl rfl

theorem dropReturn_append (pre : List Char) {post : List Char} (h : post ≠ []) :
    dropReturn (pre ++ post) = pre ++ dropReturn post := by
  have hlast : (pre ++ post).getLast? = post.getLast? := by
    rw [List.getLast?_append, List.getLast?_eq_some_getLast h]
    rfl
  rw [dropReturn, hlast, dropReturn]
  split
  · exact List.dropLast_append_of_ne_nil h
  · rfl

/-- The return that a line has lost stands behind all places of the line. -/
theorem dropReturn_eq_append {line pre post : List Char} (h : dropReturn line = pre ++ post)
    (hpost : post ≠ []) : ∃ more, line = pre ++ more ∧ dropReturn more = post := by
  rcases dropReturn_spec line with he | he
  · have hsplit := he.trans h
    refine ⟨post, hsplit, ?_⟩
    have hdrop := dropReturn_append pre hpost
    rw [← hsplit, h] at hdrop
    exact (List.append_cancel_left hdrop).symm
  · refine ⟨post ++ ['\r'], ?_, ?_⟩
    · rw [h, List.append_assoc] at he
      exact he
    · rw [dropReturn, if_pos List.getLast?_concat, List.dropLast_concat]

/-- A place in the first line is a place in the text. -/
theorem firstLine_eq_append {cs pre post : List Char} (h : firstLine cs = pre ++ post)
    (hpost : post ≠ []) : ∃ rest, cs = pre ++ rest ∧ firstLine rest = post := by
  rcases line_cases cs with hcs | ⟨line, rest, hline, rfl⟩
  · rw [firstLine_of_not_mem hcs] at h
    refine ⟨post, h, firstLine_of_not_mem ?_⟩
    exact fun hmem => hcs (h ▸ List.mem_append_right _ hmem)
  · rw [firstLine_append_feed hline] at h
    obtain ⟨more, rfl, hmore⟩ := dropReturn_eq_append h hpost
    refine ⟨more ++ '\n' :: rest, List.append_assoc _ _ _, ?_⟩
    rw [firstLine_append_feed fun hmem => hline (List.mem_append_right _ hmem), hmore]

/-- A line goes on in the text with nothing, or with what ends it. -/
theorem firstLine_spec (cs : List Char) :
    ∃ more, cs = firstLine cs ++ more ∧ ∀ c, more.head? = some c → c = '\r' ∨ c = '\n' := by
  rcases line_cases cs with h | ⟨line, rest, h, rfl⟩
  · exact ⟨[], by rw [firstLine_of_not_mem h, List.append_nil], fun _ he => by cases he⟩
  · rw [firstLine_append_feed h]
    rcases dropReturn_spec line with hline | hline
    · refine ⟨'\n' :: rest, by rw [← hline], ?_⟩
      rintro c he
      cases he
      exact .inr rfl
    · refine ⟨'\r' :: '\n' :: rest, ?_, ?_⟩
      · have := congrArg (· ++ '\n' :: rest) hline
        rwa [List.append_assoc] at this
      · rintro c he
        cases he
        exact .inl rfl

/-- Characters that end no line stay in front of it. -/
theorem firstLine_append {front : List Char} (hfeed : '\n' ∉ front) (hreturn : '\r' ∉ front)
    (cs : List Char) : firstLine (front ++ cs) = front ++ firstLine cs := by
  -- where the line ends right behind the front, there is no return that it could lose
  have hfront : dropReturn front = front := by
    rcases dropReturn_spec front with h | h
    · exact h.symm
    · rw [h] at hreturn
      exact absurd (List.mem_append_right _ (List.mem_singleton_self _)) hreturn
  rcases line_cases cs with h | ⟨line, rest, h, rfl⟩
  · rw [firstLine_of_not_mem h, firstLine_of_not_mem]
    exact fun hmem => (List.mem_append.mp hmem).elim hfeed h
  · rw [firstLine_append_feed h, ← List.append_assoc, firstLine_append_feed]
    · cases line with
      | nil => rw [List.append_nil, hfront]; exact (List.append_nil _).symm
      | cons c cs => exact dropReturn_append _ (List.cons_ne_nil _ _)
    · exact fun hmem => (List.mem_append.mp hmem).elim hfeed h

theorem EndsLine.append_feed {cs : List Char} (h : EndsLine cs) (line : List Char) :
    EndsLine (line ++ '\n' :: cs) := by
  rcases h with rfl | h
  · exact .inr List.getLast?_concat
  · refine .inr ?_
    rw [List.getLast?_append, List.getLast?_cons, h]
    rfl

/-- A place in a line is a place in the text. -/
theorem place_of_mem_lines {cs line pre post : List Char} (h : line ∈ lines cs)
    (hline : line = pre ++ post) (hpost : post ≠ []) :
    ∃ before after, cs = before ++ (pre ++ after) ∧ EndsLine before ∧ firstLine after = post := by
  induction cs using line_induction with
  | last cs hcs =>
      rw [lines_of_not_mem hcs] at h
      split at h
      · cases h
      · rw [List.mem_singleton.mp h] at hline
        refine ⟨[], post, hline, .inl rfl, firstLine_of_not_mem ?_⟩
        exact fun hmem => hcs (hline ▸ List.mem_append_right _ hmem)
  | feed first rest hfirst ih =>
      rw [lines_append hfirst] at h
      rcases List.mem_cons.mp h with rfl | h
      · obtain ⟨more, rfl, hmore⟩ := dropReturn_eq_append hline hpost
        refine ⟨[], more ++ '\n' :: rest, ?_, .inl rfl, ?_⟩
        · rw [List.append_assoc]
          rfl
        · rw [firstLine_append_feed fun hmem => hfirst (List.mem_append_right _ hmem), hmore]
      · obtain ⟨before, after, rfl, hbefore, hafter⟩ := ih h
        refine ⟨first ++ '\n' :: before, after, ?_, hbefore.append_feed first, hafter⟩
        rw [List.append_assoc]
        rfl

/-- A place in the text is a place in a line, if the line goes on there; the line feeds before it
    count the lines. -/
theorem getElem?_lines_of_place {cs pre post : List Char} (h : cs = pre ++ post)
    (hpost : firstLine post ≠ []) :
    ∃ before within, pre = before ++ within ∧ EndsLine before ∧ '\n' ∉ within ∧
      (lines cs)[before.count '\n']? = some (within ++ firstLine post) := by
  induction cs using line_induction generalizing pre with
  | last cs hcs =>
      have hfeed : '\n' ∉ post := fun hmem => hcs (h ▸ List.mem_append_right _ hmem)
      rw [firstLine_of_not_mem hfeed] at hpost ⊢
      refine ⟨[], pre, rfl, .inl rfl, fun hmem => hcs (h ▸ List.mem_append_left _ hmem), ?_⟩
      rw [lines_of_not_mem hcs, if_neg]
      · rw [h]
        rfl
      · rw [h, List.isEmpty_iff, List.append_eq_nil_iff]
        exact fun hnil => hpost hnil.2
  | feed first rest hfirst ih =>
      rcases List.append_eq_append_iff.mp h with ⟨more, rfl, hmore⟩ | ⟨more, rfl, rfl⟩
      · cases more with
        | nil =>
            -- the place is that of the line feed
            rw [List.nil_append] at hmore
            rw [← hmore] at hpost
            exact absurd (firstLine_append_feed (List.not_mem_nil) rest) hpost
        | cons c more =>
            obtain ⟨rfl, hrest⟩ := List.cons.inj hmore
            obtain ⟨before, within, rfl, hbefore, hwithin, hline⟩ := ih hrest
            refine ⟨first ++ '\n' :: before, within, ?_, hbefore.append_feed first, hwithin, ?_⟩
            · rw [List.append_assoc]
              rfl
            · rw [lines_append hfirst, List.count_append, List.count_eq_zero_of_not_mem hfirst,
                Nat.zero_add, List.count_cons_self, List.getElem?_cons_succ]
              exact hline
      · have hmore : '\n' ∉ more := fun hmem => hfirst (List.mem_append_right _ hmem)
        have hne : more ≠ [] := by
          rintro rfl
          exact hpost (firstLine_append_feed List.not_mem_nil rest)
        refine ⟨[], pre, rfl, .inl rfl, fun hmem => hfirst (List.mem_append_left _ hmem), ?_⟩
        rw [lines_append hfirst, firstLine_append_feed hmore, dropReturn_append _ hne]
        rfl

theorem mem_lines_of_place {cs pre post : List Char} (h : cs = pre ++ post)
    (hpost : firstLine post ≠ []) :
    ∃ line ∈ lines cs, ∃ before within,
      pre = before ++ within ∧ EndsLine before ∧ line = within ++ firstLine post := by
  obtain ⟨before, within, hpre, hbefore, -, hline⟩ := getElem?_lines_of_place h hpost
  exact ⟨_, List.mem_of_getElem? hline, before, within, hpre, hbefore, rfl⟩

end MessageKeys.Text
