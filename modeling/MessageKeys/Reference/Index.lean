import MessageKeys.Dictionary.Basic
import MessageKeys.Reference.Scanner

/-! # Usage index — which keys are referenced where

    The index maps each key to its sites, in order of file, line and column, and each file to
    the keys it references.  A key without sites and a file without keys have no entry, so an
    index that was changed file by file is the index of the files as they are now. -/

namespace MessageKeys.Reference

/-- Sites by key, and keys by file. -/
structure Index where
  byKey : Dictionary (List Site)
  byFile : Dictionary NameSet
  deriving DecidableEq

namespace Index

/-- The index without sites. -/
def empty : Index := ⟨∅, ∅⟩

instance : Inhabited Index := ⟨empty⟩

/-! ## Reading -/

/-- The sites of a key in order. -/
def usages (ix : Index) (key : String) : List Site := (ix.byKey.get? key).getD []

/-- The keys a file references, in order. -/
def keysOf (ix : Index) (file : String) : List String :=
  ((ix.byFile.get? file).getD ∅).names

/-- All keys in order. -/
def keys (ix : Index) : List String := ix.byKey.keys

/-- The files that reference a key, in order. -/
def filesOf (ix : Index) (key : String) : List String :=
  (NameSet.ofNames ((ix.usages key).map (·.file))).names

/-- The keys with their sites in order of key. -/
def toList (ix : Index) : List (String × List Site) := ix.byKey.toList

/-- The number of files with a site. -/
def fileCount (ix : Index) : Nat := ix.byFile.size

/-- The number of sites. -/
def siteCount (ix : Index) : Nat := ix.toList.foldl (fun n e => n + e.2.length) 0

/-- There is no site. -/
def isEmpty (ix : Index) : Bool := ix.byKey.isEmpty

/-! ## Changing -/

/-- Puts a site behind those that do not come after it. -/
def insertSite (s : Site) : List Site → List Site
  | [] => [s]
  | t :: rest => if t.notAfter s then t :: insertSite s rest else s :: t :: rest

/-- Records a site of a file. -/
def addSite (file : String) (ix : Index) (s : Site) : Index where
  byKey := ix.byKey.insert s.key (insertSite s (ix.usages s.key))
  byFile := ix.byFile.insert file (((ix.byFile.get? file).getD ∅).add s.key)

/-- Records the sites of a file. -/
def addFile (ix : Index) (file : String) (sites : List Site) : Index :=
  sites.foldl (addSite file) ix

/-- The sites of a key without those in a file; a key without sites has no entry. -/
def dropFile (file : String) (byKey : Dictionary (List Site)) (key : String) :
    Dictionary (List Site) :=
  match byKey.get? key with
  | none => byKey
  | some sites =>
    let left := sites.filter fun s => s.file ≠ file
    if left.isEmpty then byKey.erase key else byKey.insert key left

/-- Forgets the sites of a file. -/
def remove (ix : Index) (file : String) : Index :=
  match ix.byFile.get? file with
  | none => ix
  | some keys => ⟨keys.names.foldl (dropFile file) ix.byKey, ix.byFile.erase file⟩

/-- Each path once in order, with the last text listed for it. -/
def latest (sources : List Source) : List Source :=
  (Dictionary.ofList (sources.map fun s => (s.path, s))).toList.map (·.2)

/-! ## Taking in source files

    What finds the references of a text is a parameter here, so that any table of patterns
    can be used; `ofSources`, `rescan` and `follow` use the scanner of a table. -/

/-- Records what is found in source files. -/
def addRead (read : String → List Site) (ix : Index) (sources : List Source) : Index :=
  sources.foldl (fun ix s => ix.addFile s.path (s.sites read)) ix

/-- The index of what is found in source files. -/
def ofRead (read : String → List Site) (sources : List Source) : Index :=
  addRead read empty sources

/-- Replaces the sites of changed files by those found in their new texts. -/
def reread (read : String → List Site) (ix : Index) (changed : List Source) : Index :=
  let sources := latest changed
  addRead read (sources.foldl (fun ix s => ix.remove s.path) ix) sources

/-- Forgets files and then takes in changed ones. -/
def followRead (read : String → List Site) (ix : Index) (changed : List Source)
    (removed : List String) : Index :=
  reread read (removed.foldl remove ix) changed

/-- The index of source files. -/
def ofSources (table : List Pattern) (sources : List Source) : Index :=
  ofRead (scan table) sources

/-- The index of source files, unless the work was cancelled. -/
def ofSourcesUnless (cancelled : Bool) (table : List Pattern) (sources : List Source) :
    Option Index :=
  if cancelled then none else some (ofSources table sources)

/-- Replaces the sites of changed files by those of their new texts. -/
def rescan (table : List Pattern) (ix : Index) (changed : List Source) : Index :=
  reread (scan table) ix changed

/-- Forgets files and then takes in changed ones. -/
def follow (table : List Pattern) (ix : Index) (changed : List Source)
    (removed : List String) : Index :=
  followRead (scan table) ix changed removed

end Index

end MessageKeys.Reference
