import MessageKeys.Reference.Expression
import MessageKeys.Reference.Site

/-! # Scanning — the references of a text

    A table of patterns is matched against each line on its own.  `Pattern.hits` lists, for
    one pattern, a hit at every character where a reference starts, also inside of earlier
    hits.  A call that lies inside of a template hit of the same key is the call of that
    template and is not reported again (`isWrapped`).

    Sites come in order of line and column; at one column the order of the table decides. -/

namespace MessageKeys.Reference

open Text

/-- A form with the accessor it is looked for with. -/
structure Pattern where
  form : Form
  accessor : List Char
  deriving DecidableEq, Repr

/-- A reference found in a line, by the characters it starts at and ends before. -/
structure Hit where
  form : Form
  key : List Char
  start : Nat
  stop : Nat
  deriving DecidableEq, Repr

namespace Pattern

/-- The patterns of an accessor in the order of the table. -/
def defaults (accessor : String) : List Pattern :=
  Definition.tableOrder.map fun form => ⟨form, accessor.toList⟩

/-- A reference at the front of a text.  `free` says that a reference may start here. -/
def reference? (p : Pattern) (free : Bool) (cs : List Char) : Option (List Char × List Char) :=
  if free || p.form.isTemplate then Literal.front? p.form p.accessor cs else none

/-- The hits in the rest of a line that starts at character `i`.  After a boundary, and at
    the start of the line, a reference may start; a boundary that itself starts a reference
    does not count. -/
def hitsFrom (p : Pattern) (i : Nat) (free : Bool) : List Char → List Hit
  | [] => []
  | c :: cs =>
    match p.reference? free (c :: cs) with
    | some (key, rest) =>
      ⟨p.form, key, i, i + ((c :: cs).length - rest.length)⟩ :: hitsFrom p (i + 1) false cs
    | none => hitsFrom p (i + 1) (isBoundary c) cs

/-- The hits in a line. -/
def hits (p : Pattern) (line : List Char) : List Hit := hitsFrom p 0 true line

end Pattern

namespace Hit

/-- The hit is the call inside of a template hit of the same key. -/
def isWrapped (all : List Hit) (h : Hit) : Bool :=
  h.form.isCall && all.any fun outer =>
    outer.form.isTemplate && outer.key = h.key && outer.start ≤ h.start && h.stop ≤ outer.stop

/-- How many characters are shown on each side of a reference. -/
def contextWidth : Nat := 20

/-- The characters around a hit without blanks at the ends; dots stand where the line was
    cut. -/
def context (line : List Char) (h : Hit) : List Char :=
  let first := h.start - contextWidth
  let last := h.stop + contextWidth
  let dots := ['.', '.', '.']
  (if 0 < first then dots else [])
    ++ trim ((line.drop first).take (last - first))
    ++ (if last < line.length then dots else [])

/-- The site of a hit in a line; the file is not known yet. -/
def site (line : List Char) (number : Nat) (h : Hit) : Site where
  key := String.ofList h.key
  file := ""
  line := number
  column := h.start + 1
  text := String.ofList ((line.drop h.start).take (h.stop - h.start))
  context := String.ofList (h.context line)
  form := h.form

end Hit

/-- The hits of all patterns in a line, in the order of the table. -/
def lineHits (table : List Pattern) (line : List Char) : List Hit :=
  table.flatMap fun p => p.hits line

/-- The sites of a line in order of column. -/
def lineSites (table : List Pattern) (number : Nat) (line : List Char) : List Site :=
  let all := lineHits table line
  let reported := all.filter fun h => !h.isWrapped all
  (reported.mergeSort fun a b => a.start ≤ b.start).map (Hit.site line number)

/-- The sites of numbered lines. -/
def sitesFrom (table : List Pattern) : Nat → List (List Char) → List Site
  | _, [] => []
  | n, line :: rest => lineSites table n line ++ sitesFrom table (n + 1) rest

/-- The sites of a text. -/
def scan (table : List Pattern) (text : String) : List Site :=
  sitesFrom table 1 (lines text.toList)

/-- The patterns of an accessor that can be one. -/
def tableFor (accessor : String) : Except PatternFault (List Pattern) :=
  if isAccessor accessor then .ok (Pattern.defaults accessor)
  else .error (.notAccessor accessor)

end MessageKeys.Reference
