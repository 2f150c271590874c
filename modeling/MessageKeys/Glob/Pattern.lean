import MessageKeys.Text.Split

/-! # Wildcard patterns — texts that stand for many texts

    `?` stands for one character, `*` for any run, `[abc]`, `[a-z]` and `[!a]` for one
    character of a class, where a `]` in the first place is meant literally.  `**` is a path
    component of its own and stands for any number of components; three stars, or two beside
    other characters, are no pattern, and neither is a class without end. -/

namespace MessageKeys.Glob

/-- The text is meant as a pattern: it has a wildcard other than a class. -/
def isPattern (text : String) : Bool := text.toList.any fun c => c = '*' || c = '?'

/-- Characters named by a class. -/
inductive Range where
  | single (c : Char)
  | between (first last : Char)
  deriving DecidableEq, Repr

/-- One part of a pattern. -/
inductive Token where
  | char (c : Char)
  | anyChar
  | anyRun
  /-- Any number of components. -/
  | anyDepth
  | oneOf (ranges : List Range)
  | noneOf (ranges : List Range)
  deriving DecidableEq, Repr

/-! ## Reading -/

/-- The ranges inside of a class. -/
def ranges : List Char → List Range
  | a :: '-' :: b :: rest => .between a b :: ranges rest
  | c :: rest => .single c :: ranges rest
  | [] => []

/-- The characters of a class, at least one, up to its end, and how many characters that is,
    the end included. -/
def classBody? : List Char → Option (List Char × Nat)
  | [] => none
  | c :: rest =>
    let body := rest.takeWhile (· ≠ ']')
    if body.length < rest.length then some (c :: body, body.length + 2) else none

/-- A class after its opening bracket, and how many characters it takes. -/
def class? (cs : List Char) : Option (Token × Nat) :=
  match cs with
  | '!' :: rest => (classBody? rest).map fun (body, n) => (.noneOf (ranges body), n + 1)
  | _ => (classBody? cs).map fun (body, n) => (.oneOf (ranges body), n)

/-- The tokens of the rest of a pattern after a character. -/
def tokensFrom (before : Option Char) : List Char → Option (List Token)
  | [] => some []
  | c :: cs =>
    if c = '?' then (tokensFrom (some c) cs).map (.anyChar :: ·)
    else if c = '*' then
      match (cs.takeWhile (· = '*')).length with
      | 0 => (tokensFrom (some c) cs).map (.anyRun :: ·)
      | 1 =>
        if before = none ∨ before = some '/' then
          match cs.drop 1 with
          | [] => some [.anyDepth]
          | next :: _ =>
            if next = '/' then (tokensFrom (some '/') (cs.drop 2)).map (.anyDepth :: ·) else none
        else none
      | _ => none
    else if c = '[' then
      match class? cs with
      | none => none
      | some (token, n) => (tokensFrom (some ']') (cs.drop n)).map (token :: ·)
    else (tokensFrom (some c) cs).map (.char c :: ·)
termination_by cs => cs.length
decreasing_by all_goals (simp only [List.length_cons, List.length_drop]; omega)

/-- The tokens of a pattern. -/
def tokens? (pattern : String) : Option (List Token) := tokensFrom none pattern.toList

/-- A pattern for exactly this text. -/
def escape (text : String) : String :=
  String.ofList (text.toList.flatMap fun c =>
    if c = '?' ∨ c = '*' ∨ c = '[' ∨ c = ']' then ['[', c, ']'] else [c])

/-! ## Matching -/

/-- The character is in the range. -/
def Range.holds (c : Char) : Range → Bool
  | .single d => c = d
  | .between first last => first ≤ c && c ≤ last

/-- A text and all that remains of it from some character on. -/
def suffixes : List Char → List (List Char)
  | [] => [[]]
  | c :: cs => (c :: cs) :: suffixes cs

/-- What follows each slash of a text, and the end. -/
def componentStarts : List Char → List (List Char)
  | [] => [[]]
  | c :: cs => if c = '/' then cs :: componentStarts cs else componentStarts cs

/-- The tokens stand for the text; slashes and leading points are characters like any
    other. -/
def matchesChars : List Token → List Char → Bool
  | [], cs => cs.isEmpty
  | .anyRun :: ts, cs => (suffixes cs).any (matchesChars ts)
  | .anyDepth :: ts, cs => matchesChars ts cs || (componentStarts cs).any (matchesChars ts)
  | .char d :: ts, c :: cs => c = d && matchesChars ts cs
  | .anyChar :: ts, _ :: cs => matchesChars ts cs
  | .oneOf rs :: ts, c :: cs => rs.any (Range.holds c) && matchesChars ts cs
  | .noneOf rs :: ts, c :: cs => !rs.any (Range.holds c) && matchesChars ts cs
  | _ :: _, [] => false

end MessageKeys.Glob
