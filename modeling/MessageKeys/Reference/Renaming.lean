import MessageKeys.Key
import MessageKeys.Reference.Literal

/-! # Renaming — references to one key become references to another

    Two passes go over a text.  The member pass replaces `m.old`, unless a longer key starts
    that way; the lookup pass then replaces `m["old"]` and keeps its quote.  A key with a
    point can only be looked up, so the new reference is `m["new.key"]`; one without is
    written `m.new`.

    A pass cuts the text into pieces: characters that are kept, and references with what
    stands in their place.  The pieces' old texts are the text itself, their new texts the
    result. -/

namespace MessageKeys.Reference

open Text

/-- References through one accessor that change from an old key to a new one. -/
structure Renaming where
  accessor : List Char
  oldKey : List Char
  newKey : List Char
  deriving DecidableEq, Repr

/-- A piece of a text that a pass has gone over. -/
inductive Piece where
  | kept (c : Char)
  | replaced (before after : List Char)
  deriving DecidableEq, Repr

/-- What a pass finds at the front of a text. -/
inductive Finding where
  | nothing
  /-- A reference to a key that only starts like the old one. -/
  | longer
  /-- A reference, what stands in its place, and what follows it. -/
  | reference (replacement rest : List Char)

namespace Piece

/-- The text of a piece before the pass. -/
def old : Piece → List Char
  | kept c => [c]
  | replaced before _ => before

/-- The text of a piece after the pass. -/
def new : Piece → List Char
  | kept c => [c]
  | replaced _ after => after

/-- The piece is a reference that was replaced. -/
def isReplaced : Piece → Bool
  | kept _ => false
  | replaced .. => true

end Piece

/-- Cuts a text into pieces.  `free` says that a reference may start here: at the start of a
    line, or after a boundary that is not itself the start of a reference. -/
def pieces (find : List Char → Finding) (free : Bool) : List Char → List Piece
  | [] => []
  | c :: cs =>
    match if free then find (c :: cs) else .nothing with
    | .nothing => .kept c :: pieces find (isBoundary c) cs
    | .longer => .kept c :: pieces find (c = '\n') cs
    | .reference replacement rest =>
      let extra := cs.length - rest.length
      let before := c :: cs.take extra
      .replaced before replacement :: pieces find (before.getLast? = some '\n') (cs.drop extra)
termination_by cs => cs.length
decreasing_by all_goals (simp only [List.length_cons, List.length_drop]; omega)

namespace Renaming

/-- The renaming of a key that is given as a text. -/
def ofKeys (accessor oldKey newKey : String) : Renaming :=
  ⟨accessor.toList, oldKey.toList, newKey.toList⟩

/-- The reference to the new key; a quote is used where it has to be looked up. -/
def target (r : Renaming) (quote : Char) : List Char :=
  if r.newKey.contains '.' then
    r.accessor ++ '[' :: quote :: r.newKey ++ [quote, ']']
  else r.accessor ++ '.' :: r.newKey

/-- A dollar that was there stays. -/
def dollar (present : Bool) : List Char := if present then ['$'] else []

/-- The key goes on: with an alphanumeric, `_` or a point. -/
def continues : List Char → Bool
  | c :: _ => isAlphanumeric c || c = '_' || c = '.'
  | [] => false

/-- What follows the accessor, a point and the old key. -/
def memberRest? (r : Renaming) (cs : List Char) : Option (List Char) :=
  ((after? r.accessor cs).bind (skip? '.')).bind (after? r.oldKey)

/-- What the member pass finds. -/
def findMember (r : Renaming) (cs : List Char) : Finding :=
  match withDollar? r.memberRest? cs with
  | none => .nothing
  | some (present, rest) =>
    if continues rest then .longer else .reference (dollar present ++ r.target '"') rest

/-- The quote of a lookup of the old key, and what follows its bracket. -/
def lookupRest? (r : Renaming) (cs : List Char) : Option (Char × List Char) :=
  match (after? r.accessor cs).bind (skip? '[') with
  | none => none
  | some cs =>
    match skipBlanks cs with
    | [] => none
    | q :: cs =>
      if isQuote q then
        match after? r.oldKey cs with
        | some (p :: rest) =>
          if isQuote p then (skip? ']' (skipBlanks rest)).map fun rest => (q, rest) else none
        | _ => none
      else none

/-- What the lookup pass finds. -/
def findLookup (r : Renaming) (cs : List Char) : Finding :=
  match withDollar? r.lookupRest? cs with
  | none => .nothing
  | some (present, q, rest) => .reference (dollar present ++ r.target q) rest

/-- The pieces of the member pass. -/
def memberPieces (r : Renaming) (cs : List Char) : List Piece := pieces r.findMember true cs

/-- The pieces of the lookup pass. -/
def lookupPieces (r : Renaming) (cs : List Char) : List Piece := pieces r.findLookup true cs

/-- The text after both passes; none if neither replaced anything. -/
def applyToChars? (r : Renaming) (cs : List Char) : Option (List Char) :=
  let first := r.memberPieces cs
  let second := r.lookupPieces (first.flatMap Piece.new)
  if first.any Piece.isReplaced || second.any Piece.isReplaced then
    some (second.flatMap Piece.new)
  else none

/-- The text with its references renamed; none if it has no reference to the old key. -/
def applyTo? (r : Renaming) (text : String) : Option String :=
  (r.applyToChars? text.toList).map String.ofList

end Renaming

end MessageKeys.Reference
