/-! # Splitting — texts cut at a separating character

    `cut` splits a text before and after each separator, `glue` joins pieces by it.  They
    are inverse: `glue_cut` for every text, `cut_glue` for every non-empty list of pieces
    that hold no separator.  A separator between two texts separates their pieces
    (`split_append`).

    The lines of a text are its pieces between line feeds.  One carriage return before a line
    feed belongs to the line end, and what follows the last line feed is a line only if there
    is something. -/

namespace MessageKeys.Text

/-- The pieces between separators; there is always at least one. -/
def cut (sep : Char) : List Char → List (List Char)
  | [] => [[]]
  | c :: cs =>
    if c = sep then [] :: cut sep cs
    else match cut sep cs with
      | [] => [[c]]
      | s :: rest => (c :: s) :: rest

/-- Joins pieces by the separator. -/
def glue (sep : Char) : List (List Char) → List Char
  | [] => []
  | [s] => s
  | s :: t :: rest => s ++ sep :: glue sep (t :: rest)

/-- The pieces of a text between separators. -/
def split (sep : Char) (text : String) : List String :=
  (cut sep text.toList).map String.ofList

/-- The text of pieces joined by the separator. -/
def join (sep : Char) (pieces : List String) : String :=
  String.ofList (glue sep (pieces.map String.toList))

/-! ## Splitting and joining are inverse -/

theorem cut_ne_nil (sep : Char) (cs : List Char) : cut sep cs ≠ [] := by
  cases cs with
  | nil => simp [cut]
  | cons c cs =>
    rw [cut]
    split
    · simp
    · split <;> simp

/-- The pieces glued together are the text. -/
theorem glue_cut (sep : Char) (cs : List Char) : glue sep (cut sep cs) = cs := by
  induction cs with
  | nil => rfl
  | cons c cs ih =>
    rw [cut]
    split
    · next h =>
      subst h
      cases hs : cut c cs with
      | nil => exact absurd hs (cut_ne_nil c cs)
      | cons s rest => rw [glue, ← hs, ih]; rfl
    · cases hs : cut sep cs with
      | nil => exact absurd hs (cut_ne_nil sep cs)
      | cons s rest =>
        rw [hs] at ih
        cases rest with
        | nil => simpa [glue] using ih
        | cons t rest => simpa [glue] using ih

/-- Without a separator a text is one piece. -/
theorem cut_of_not_mem {sep : Char} {s : List Char} (h : sep ∉ s) : cut sep s = [s] := by
  induction s with
  | nil => rfl
  | cons c s ih =>
    rw [List.mem_cons, not_or] at h
    rw [cut, if_neg (Ne.symm h.1), ih h.2]

/-- The first piece goes up to the first separator. -/
theorem cut_append_sep {sep : Char} {s : List Char} (h : sep ∉ s) (cs : List Char) :
    cut sep (s ++ sep :: cs) = s :: cut sep cs := by
  induction s with
  | nil => simp [cut]
  | cons c s ih =>
    rw [List.mem_cons, not_or] at h
    rw [List.cons_append, cut, if_neg (Ne.symm h.1), ih h.2]

/-- Pieces without the separator are found again. -/
theorem cut_glue {sep : Char} {ss : List (List Char)} (hne : ss ≠ [])
    (h : ∀ s ∈ ss, sep ∉ s) : cut sep (glue sep ss) = ss := by
  induction ss with
  | nil => exact absurd rfl hne
  | cons s rest ih =>
    cases rest with
    | nil => exact cut_of_not_mem (h s List.mem_cons_self)
    | cons t rest =>
      rw [glue, cut_append_sep (h s List.mem_cons_self),
        ih (by simp) fun x hx => h x (List.mem_cons_of_mem _ hx)]

/-- No piece holds the separator. -/
theorem not_mem_of_mem_cut {sep : Char} {cs s : List Char} (h : s ∈ cut sep cs) : sep ∉ s := by
  induction cs generalizing s with
  | nil => simp only [cut, List.mem_singleton] at h; simp [h]
  | cons c cs ih =>
    rw [cut] at h
    split at h
    · rcases List.mem_cons.mp h with h | h
      · simp [h]
      · exact ih h
    · next hc =>
      cases hs : cut sep cs with
      | nil => exact absurd hs (cut_ne_nil sep cs)
      | cons t rest =>
        rw [hs] at h ih
        rcases List.mem_cons.mp h with h | h
        · subst h
          rw [List.mem_cons, not_or]
          exact ⟨Ne.symm hc, ih List.mem_cons_self⟩
        · exact ih (List.mem_cons_of_mem _ h)

theorem split_ne_nil (sep : Char) (text : String) : split sep text ≠ [] := by
  simp [split, cut_ne_nil]

/-- The parts joined are the text. -/
theorem join_split (sep : Char) (text : String) : join sep (split sep text) = text := by
  simp [join, split, Function.comp_def, glue_cut]

/-- Parts without the separator are found again, unless there are none at all. -/
theorem split_join {sep : Char} {ss : List String} (hne : ss ≠ [])
    (h : ∀ s ∈ ss, sep ∉ s.toList) : split sep (join sep ss) = ss := by
  rw [split, join, String.toList_ofList, cut_glue (by simpa using hne)]
  · simp [Function.comp_def]
  · intro s hs
    obtain ⟨t, ht, rfl⟩ := List.mem_map.mp hs
    exact h t ht

/-! ## Texts that are put together -/

/-- At a separator, a text is cut on either side alone. -/
theorem cut_append (sep : Char) (cs ds : List Char) :
    cut sep (cs ++ sep :: ds) = cut sep cs ++ cut sep ds := by
  induction cs with
  | nil => simp [cut]
  | cons c cs ih =>
      rw [List.cons_append, cut, cut, ih]
      split
      · rfl
      · cases hcut : cut sep cs with
        | nil => exact absurd hcut (cut_ne_nil sep cs)
        | cons s rest => rfl

/-- A separator between two texts separates their pieces. -/
theorem split_append (sep : Char) (s t : String) :
    split sep (s ++ String.singleton sep ++ t) = split sep s ++ split sep t := by
  have hlist : (s ++ String.singleton sep ++ t).toList = s.toList ++ sep :: t.toList := by
    rw [String.toList_append, String.toList_append, String.toList_singleton, List.append_assoc]
    rfl
  rw [split, hlist, cut_append, List.map_append, split, split]

theorem not_mem_of_mem_split {sep : Char} {s text : String} (h : s ∈ split sep text) :
    sep ∉ s.toList := by
  obtain ⟨cs, hcs, rfl⟩ := List.mem_map.mp h
  rw [String.toList_ofList]
  exact not_mem_of_mem_cut hcs

theorem split_of_not_mem {sep : Char} {s : String} (h : sep ∉ s.toList) : split sep s = [s] := by
  rw [split, cut_of_not_mem h, List.map_singleton, String.ofList_toList]

/-! ## Lines -/

/-- A line without the carriage return of its line end. -/
def dropReturn (line : List Char) : List Char :=
  if line.getLast? = some '\r' then line.dropLast else line

/-- The lines among the pieces between line feeds. -/
def linesOfPieces : List (List Char) → List (List Char)
  | [] => []
  | [last] => if last.isEmpty then [] else [last]
  | line :: next :: rest => dropReturn line :: linesOfPieces (next :: rest)

/-- The lines of a text. -/
def lines (cs : List Char) : List (List Char) := linesOfPieces (cut '\n' cs)

/-- What follows a text at the front of another one. -/
def after? : List Char → List Char → Option (List Char)
  | [], cs => some cs
  | _ :: _, [] => none
  | p :: ps, c :: cs => if p = c then after? ps cs else none

end MessageKeys.Text
