import MessageKeys.Dictionary.Entries

/-! # Dictionaries — finite maps from names with their order in the type

    A dictionary carries the proof that its entries are in increasing order of name, so
    equal look-ups mean equal dictionaries (`Dictionary.ext_get?`) and `toList` is the one
    listing every answer shows.  A `NameSet` is a dictionary that stores nothing but its
    names. -/

namespace MessageKeys

/-- A finite map from names. -/
structure Dictionary (α : Type) where
  entries : List (String × α)
  increasing : Entries.Increasing entries
  deriving DecidableEq

namespace Dictionary

variable {α β : Type}

/-- The map without entries. -/
def empty : Dictionary α := ⟨[], List.Pairwise.nil⟩

instance : Inhabited (Dictionary α) := ⟨empty⟩

instance : EmptyCollection (Dictionary α) := ⟨empty⟩

/-- The value stored under a name. -/
def get? (d : Dictionary α) (name : String) : Option α := Entries.get? name d.entries

/-- Something is stored under the name. -/
def contains (d : Dictionary α) (name : String) : Bool := (d.get? name).isSome

/-- Stores a value, in place of the one stored under that name. -/
def insert (d : Dictionary α) (name : String) (value : α) : Dictionary α :=
  ⟨Entries.insert name value d.entries, d.increasing.insert name value⟩

/-- Drops the entry of a name. -/
def erase (d : Dictionary α) (name : String) : Dictionary α :=
  ⟨Entries.erase name d.entries, d.increasing.erase name⟩

/-- The entries in order of name. -/
def toList (d : Dictionary α) : List (String × α) := d.entries

/-- The names in order. -/
def keys (d : Dictionary α) : List String := d.entries.map (·.1)

/-- The number of entries. -/
def size (d : Dictionary α) : Nat := d.entries.length

/-- Nothing is stored. -/
def isEmpty (d : Dictionary α) : Bool := d.entries.isEmpty

/-- Stores every pair in turn, so the last one of a name stays. -/
def insertMany (d : Dictionary α) (pairs : List (String × α)) : Dictionary α :=
  pairs.foldl (fun d p => d.insert p.1 p.2) d

/-- The map of the pairs; the last one of a name counts. -/
def ofList (pairs : List (String × α)) : Dictionary α := insertMany ∅ pairs

/-! ## The look-up view -/

@[simp] theorem get?_empty (name : String) : (empty : Dictionary α).get? name = none := rfl

@[simp] theorem get?_insert (d : Dictionary α) (name other : String) (value : α) :
    (d.insert name value).get? other = if name = other then some value else d.get? other :=
  Entries.get?_insert name other value d.entries

@[simp] theorem get?_erase (d : Dictionary α) (name other : String) :
    (d.erase name).get? other = if name = other then none else d.get? other :=
  Entries.get?_erase name other d.entries

/-- Dictionaries that answer every look-up alike are equal. -/
theorem ext_get? {d e : Dictionary α} (h : ∀ name, d.get? name = e.get? name) : d = e := by
  obtain ⟨es, hes⟩ := d
  obtain ⟨fs, hfs⟩ := e
  have : es = fs := hes.ext hfs h
  subst this
  rfl

end Dictionary

/-- A finite set of names. -/
abbrev NameSet := Dictionary Unit

namespace NameSet

/-- Adds a name. -/
def add (s : NameSet) (name : String) : NameSet := s.insert name ()

/-- The set of the listed names. -/
def ofNames (names : List String) : NameSet := names.foldl add ∅

/-- The names in order, each once. -/
def names (s : NameSet) : List String := s.keys

end NameSet

end MessageKeys
