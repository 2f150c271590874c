import MessageKeys.Decimal.Binary
import MessageKeys.Key
import MessageKeys.Reference.Index

/-! # Suggestions — a namespace for each key that has none

    The sites of a key are counted by the namespace of their file.  The namespace with most
    of them is a candidate for the key; of several with as many, the first by name.  It is
    suggested unless its share of all sites of the key, those in no namespace included, lies
    below the threshold.

    Suggestions come in order of their share, the largest first, then by namespace and key.
    Shares are compared as exact fractions. -/

namespace MessageKeys

/-- A key that could move to a namespace. -/
structure Suggestion where
  key : String
  newKey : String
  inNamespace : String
  /-- The files of the key that belong to the namespace, in order. -/
  files : List String
  /-- The share of the key's sites that lie in the namespace. -/
  confidence : Float
  reason : String

namespace Suggestion

/-- The smallest threshold. -/
def leastThreshold : Float := 0.6

/-- The threshold moved into the range from the least one to one. -/
def clampThreshold (t : Float) : Float :=
  if t < leastThreshold then leastThreshold else if 1.0 < t then 1.0 else t

/-- The number and the files of the sites in one namespace. -/
structure Tally where
  count : Nat
  files : NameSet

/-- Counts a site for the namespace of its file, if it has one. -/
def countSite (namespaceOf : String → Option String) (tallies : Dictionary Tally)
    (s : Reference.Site) : Dictionary Tally :=
  match namespaceOf s.file with
  | none => tallies
  | some ns =>
    if ns = "" then tallies
    else
      let t := (tallies.get? ns).getD ⟨0, ∅⟩
      tallies.insert ns ⟨t.count + 1, t.files.add s.file⟩

/-- The sites of a key by namespace. -/
def tally (namespaceOf : String → Option String) (sites : List Reference.Site) :
    Dictionary Tally :=
  sites.foldl (countSite namespaceOf) ∅

/-- The first entry with the largest count. -/
def best? : List (String × Tally) → Option (String × Tally)
  | [] => none
  | e :: rest =>
    match best? rest with
    | none => some e
    | some f => if e.2.count < f.2.count then some f else some e

/-- A namespace that holds most sites of a key. -/
structure Candidate where
  key : String
  inNamespace : String
  files : List String
  count : Nat
  total : Nat

namespace Candidate

/-- The share of the namespace as a double. -/
def confidence (c : Candidate) : Float := c.count.toFloat / c.total.toFloat

/-- The first one comes before the second or beside it: it has the larger share, or the same
    and the smaller namespace, or the same again and the smaller key. -/
def notAfter (a b : Candidate) : Bool :=
  b.count * a.total < a.count * b.total
    || (a.count * b.total = b.count * a.total
      && (a.inNamespace < b.inNamespace || (a.inNamespace = b.inNamespace && a.key ≤ b.key)))

/-- Why the candidate is suggested. -/
def reason (c : Candidate) : String :=
  let files := if c.files.length = 1 then "file" else "files"
  s!"{c.count} of {c.total} usages ({Decimal.percentText c.confidence}) are in "
    ++ s!"{c.files.length} {files} under '{c.inNamespace}'"

/-- The suggestion to move the key. -/
def suggestion (c : Candidate) : Suggestion where
  key := c.key
  newKey := c.inNamespace ++ "." ++ c.key
  inNamespace := c.inNamespace
  files := c.files
  confidence := c.confidence
  reason := c.reason

end Candidate

/-- The candidate for a key; none for a key that has a namespace, or none of whose sites lie
    in one. -/
def candidate? (namespaceOf : String → Option String) (key : String)
    (sites : List Reference.Site) : Option Candidate :=
  if Key.isNamespaced key then none
  else
    (best? (tally namespaceOf sites).toList).map fun (ns, t) =>
      ⟨key, ns, t.files.names, t.count, sites.length⟩

/-- The candidates of an index that do not lie below a threshold, in order. -/
def candidates (threshold : Float) (namespaceOf : String → Option String) (ix : Reference.Index) :
    List Candidate :=
  let all := ix.toList.filterMap fun (key, sites) => candidate? namespaceOf key sites
  (all.filter fun c => !(c.confidence < threshold)).mergeSort Candidate.notAfter

/-- The suggestions for an index. -/
def forIndex (threshold : Float) (namespaceOf : String → Option String) (ix : Reference.Index) :
    List Suggestion :=
  (candidates threshold namespaceOf ix).map Candidate.suggestion

end Suggestion

end MessageKeys
