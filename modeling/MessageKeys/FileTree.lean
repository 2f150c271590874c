/-! # File trees — directories and files by location

    A location is the list of names that lead to it from the root.  The tree is known by its
    look-up view `get?`: the root is always a directory, every other location has at most
    one entry.  `FileFault` lists why an operation on a file did not happen. -/

namespace MessageKeys

/-- The names that lead to a place from the root. -/
abbrev Location := List String

/-- What stands at a location. -/
inductive Entry where
  | directory
  | file (bytes : ByteArray) (readOnly : Bool)

instance : DecidableEq Entry
  | .directory, .directory => isTrue rfl
  | .directory, .file _ _ => isFalse nofun
  | .file _ _, .directory => isFalse nofun
  | .file a r, .file b s =>
    if h : a.data = b.data ∧ r = s then
      isTrue (by rw [ByteArray.ext h.1, h.2])
    else isFalse (by rintro ⟨⟩; exact h ⟨rfl, rfl⟩)

/-- Entries by location. -/
structure FileTree where
  entries : List (Location × Entry)

namespace FileTree

/-- The tree with nothing but the root. -/
def empty : FileTree := ⟨[]⟩

/-- The first entry listed for a location. -/
def lookup (l : Location) : List (Location × Entry) → Option Entry
  | [] => none
  | (k, e) :: rest => if k = l then some e else lookup l rest

/-- What stands at a location. -/
def get? (t : FileTree) (l : Location) : Option Entry :=
  if l = [] then some .directory else lookup l t.entries

/-- Sets the entry of a location in its place, or after all others. -/
def setEntry (l : Location) (e : Entry) : List (Location × Entry) → List (Location × Entry)
  | [] => [(l, e)]
  | (k, f) :: rest => if k = l then (k, e) :: rest else (k, f) :: setEntry l e rest

/-- Puts an entry at a location. -/
def set (t : FileTree) (l : Location) (e : Entry) : FileTree := ⟨setEntry l e t.entries⟩

/-- Takes the entry of a location away. -/
def erase (t : FileTree) (l : Location) : FileTree := ⟨t.entries.filter fun e => e.1 ≠ l⟩

/-- Puts an entry at a location with all directories that lead to it. -/
def setWithParents (t : FileTree) (l : Location) (e : Entry) : FileTree :=
  let parents := (List.range l.length).map fun n => l.take n
  let missing := parents.filter fun p => (t.get? p).isNone
  (missing.foldl (fun t p => t.set p .directory) t).set l e

/-- The names in a directory, in order. -/
def names (t : FileTree) (l : Location) : List String :=
  (t.entries.filterMap fun e => if e.1.dropLast = l then e.1.getLast? else none).mergeSort
    fun a b => decide (a ≤ b)

/-- The files with their bytes. -/
def files (t : FileTree) : List (Location × ByteArray) :=
  t.entries.filterMap fun
    | (l, .file bytes _) => some (l, bytes)
    | (_, .directory) => none

/-- A number of steps down that no path through the tree exceeds. -/
def height (t : FileTree) : Nat := t.entries.length + 1

/-! ## The look-up view -/

theorem lookup_setEntry (l m : Location) (e : Entry) (es : List (Location × Entry)) :
    lookup m (setEntry l e es) = if l = m then some e else lookup m es := by
  induction es with
  | nil => simp [setEntry, lookup]
  | cons p rest ih =>
    obtain ⟨k, f⟩ := p
    rw [setEntry]
    split
    · next h => subst h; simp only [lookup]; split <;> rfl
    · next h =>
      rw [lookup, ih, lookup]
      by_cases hk : k = m
      · subst hk; simp [Ne.symm h]
      · simp [hk]

theorem lookup_filter (l m : Location) (es : List (Location × Entry)) :
    lookup m (es.filter fun e => e.1 ≠ l) = if l = m then none else lookup m es := by
  induction es with
  | nil => simp [lookup]
  | cons p rest ih =>
    obtain ⟨k, f⟩ := p
    by_cases hk : k = l
    · subst hk
      rw [List.filter_cons_of_neg (by simp), ih, lookup]
      split <;> simp_all
    · rw [List.filter_cons_of_pos (by simpa using hk), lookup, ih, lookup]
      by_cases hkm : k = m
      · subst hkm; simp [Ne.symm hk]
      · simp [hkm]

/-- Setting a location other than the root changes that location alone. -/
theorem get?_set (t : FileTree) {l : Location} (hl : l ≠ []) (m : Location) (e : Entry) :
    (t.set l e).get? m = if l = m then some e else t.get? m := by
  unfold get? set
  by_cases hm : m = []
  · subst hm; simp [hl]
  · simp [hm, lookup_setEntry]

/-- So does taking one out; what stands below it stays. -/
theorem get?_erase (t : FileTree) {l : Location} (hl : l ≠ []) (m : Location) :
    (t.erase l).get? m = if l = m then none else t.get? m := by
  unfold get? erase
  by_cases hm : m = []
  · subst hm; simp [hl]
  · simp only [hm, if_false]
    exact lookup_filter l m t.entries

end FileTree

/-! ## Faults -/

/-- Why a file could not be read, copied or written. -/
inductive FileFault where
  | notFound
  | notDirectory
  | isDirectory
  | nameTooLong
  /-- The path has a NUL character. -/
  | nulInPath
  /-- The bytes are no text. -/
  | notUtf8
  /-- Only regular files can be copied. -/
  | notRegular
  /-- A fault of the device, in its own words. -/
  | device (words : String)
  deriving DecidableEq, Repr

/-- The wording of a fault. -/
def FileFault.message : FileFault → String
  | .notFound => "No such file or directory (os error 2)"
  | .notDirectory => "Not a directory (os error 20)"
  | .isDirectory => "Is a directory (os error 21)"
  | .nameTooLong => "File name too long (os error 36)"
  | .nulInPath => "file name contained an unexpected NUL byte"
  | .notUtf8 => "stream did not contain valid UTF-8"
  | .notRegular => "the source path is neither a regular file nor a symlink to a regular file"
  | .device words => words

end MessageKeys
