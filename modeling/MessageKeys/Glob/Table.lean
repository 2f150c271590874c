import MessageKeys.Glob.Pattern

/-! # Match tables — one answer for every rest of a text

    A pattern with many runs asks about the same rest of a text again and again.  A table
    holds the answers of one list of tokens for a text and all its rests, longest first, and
    each token makes its table out of the one of the tokens after it.  So the work grows with
    the product of the two lengths, and the answers are those of `matchesChars`
    (`matchTable_eq`, `isMatch_eq`). -/

namespace MessageKeys.Glob

/-- The table of one character of a class before tokens with the table `after`. -/
def tableOfOne (holds : Char → Bool) : List Char → List Bool → List Bool
  | c :: cs, _ :: after => (holds c && after.headD false) :: tableOfOne holds cs after
  | _, _ => [false]

/-- The table of a run before tokens with the table `after`. -/
def tableOfRun : List Bool → List Bool
  | [] => []
  | b :: after =>
    let shorter := tableOfRun after
    (b || shorter.headD false) :: shorter

/-- Whether tokens with the table `after` match at the start of a later component or at the
    end, for every rest. -/
def tableOfStarts : List Char → List Bool → List Bool
  | c :: cs, _ :: after =>
    let shorter := tableOfStarts cs after
    (c = '/' && after.headD false || shorter.headD false) :: shorter
  | _, after => after

/-- The answers of tokens for a text and all its rests. -/
def matchTable : List Token → List Char → List Bool
  | [], cs => (suffixes cs).map List.isEmpty
  | .anyRun :: ts, cs => tableOfRun (matchTable ts cs)
  | .anyDepth :: ts, cs =>
    let after := matchTable ts cs
    List.zipWith (· || ·) after (tableOfStarts cs after)
  | .char d :: ts, cs => tableOfOne (fun c => c = d) cs (matchTable ts cs)
  | .anyChar :: ts, cs => tableOfOne (fun _ => true) cs (matchTable ts cs)
  | .oneOf rs :: ts, cs => tableOfOne (fun c => rs.any (Range.holds c)) cs (matchTable ts cs)
  | .noneOf rs :: ts, cs => tableOfOne (fun c => !rs.any (Range.holds c)) cs (matchTable ts cs)

/-- The pattern stands for the text. -/
def isMatch (ts : List Token) (text : String) : Bool :=
  (matchTable ts text.toList).headD false

/-! ## The answers of a table -/

/-- The first answer of a table is the one for the whole text. -/
theorem headD_map_suffixes (f : List Char → Bool) (cs : List Char) :
    ((suffixes cs).map f).headD false = f cs := by
  cases cs <;> rfl

theorem tableOfOne_map (holds : Char → Bool) (f g : List Char → Bool) (hnil : g [] = false)
    (hcons : ∀ c cs, g (c :: cs) = (holds c && f cs)) (cs : List Char) :
    tableOfOne holds cs ((suffixes cs).map f) = (suffixes cs).map g := by
  induction cs with
  | nil => simp [tableOfOne, suffixes, hnil]
  | cons c cs ih => simp only [suffixes, List.map_cons, tableOfOne, ih, headD_map_suffixes, hcons]

theorem tableOfRun_map (f : List Char → Bool) (cs : List Char) :
    tableOfRun ((suffixes cs).map f) = (suffixes cs).map fun s => (suffixes s).any f := by
  induction cs with
  | nil => simp [tableOfRun, suffixes]
  | cons c cs ih =>
    simp only [suffixes, List.map_cons, tableOfRun, ih, headD_map_suffixes, List.any_cons]

theorem tableOfStarts_map (f : List Char → Bool) (cs : List Char) :
    tableOfStarts cs ((suffixes cs).map f)
      = (suffixes cs).map fun s => (componentStarts s).any f := by
  induction cs with
  | nil => simp [tableOfStarts, suffixes, componentStarts]
  | cons c cs ih =>
    simp only [suffixes, List.map_cons, tableOfStarts, ih, headD_map_suffixes, componentStarts]
    by_cases hc : c = '/' <;> simp [hc]

/-- A table holds the answers for the text and all its rests. -/
theorem matchTable_eq (ts : List Token) (cs : List Char) :
    matchTable ts cs = (suffixes cs).map (matchesChars ts) := by
  induction ts with
  | nil => exact List.map_congr_left fun s _ => by rw [matchesChars]
  | cons t ts ih =>
    cases t with
    | anyRun =>
      rw [matchTable, ih, tableOfRun_map]
      exact List.map_congr_left fun s _ => by rw [matchesChars]
    | anyDepth =>
      rw [matchTable, ih, tableOfStarts_map, List.zipWith_map, List.zipWith_self]
      exact List.map_congr_left fun s _ => by rw [matchesChars]
    | char d =>
      rw [matchTable, ih]
      exact tableOfOne_map _ _ _ rfl (fun c cs => by rw [matchesChars]) cs
    | anyChar =>
      rw [matchTable, ih]
      exact tableOfOne_map _ _ _ rfl (fun c cs => by simp [matchesChars]) cs
    | oneOf rs =>
      rw [matchTable, ih]
      exact tableOfOne_map _ _ _ rfl (fun c cs => by rw [matchesChars]) cs
    | noneOf rs =>
      rw [matchTable, ih]
      exact tableOfOne_map _ _ _ rfl (fun c cs => by rw [matchesChars]) cs

/-- The table of a pattern answers as its tokens do. -/
theorem isMatch_eq (ts : List Token) (text : String) :
    isMatch ts text = matchesChars ts text.toList := by
  rw [isMatch, matchTable_eq, headD_map_suffixes]

end MessageKeys.Glob
