import MessageKeys.Catalog.Messages

/-! # Key store — the keys that are known, with their messages

    A record is stored under its key.  Renaming moves the message to a key that is not yet
    taken, or changes nothing. -/

namespace MessageKeys

/-- A key as it is stored. -/
structure StoredKey where
  key : String
  value : Option String
  inNamespace : Option String
  nested : Bool
  deriving DecidableEq, Repr

/-- The record of a key. -/
def StoredKey.ofKey (key : String) (value : Option String) : StoredKey :=
  ⟨key, value, Key.namespace? key, Key.isNamespaced key⟩

/-- Why a key was not renamed. -/
inductive StoreFault where
  | unknownKey (key : String)
  | keyExists (key : String)
  deriving DecidableEq, Repr

/-- The wording of a fault. -/
def StoreFault.message : StoreFault → String
  | .unknownKey key => s!"key '{key}' is not in the store"
  | .keyExists key => s!"key '{key}' already exists in the store"

/-- The known keys. -/
structure KeyStore where
  records : Dictionary StoredKey
  deriving DecidableEq

namespace KeyStore

/-- The store without keys. -/
def empty : KeyStore := ⟨∅⟩

/-- The record of a key. -/
def get? (s : KeyStore) (key : String) : Option StoredKey := s.records.get? key

/-- The message of a key. -/
def value? (s : KeyStore) (key : String) : Option String := (s.get? key).bind (·.value)

/-- The number of keys. -/
def size (s : KeyStore) : Nat := s.records.size

/-- There is no key. -/
def isEmpty (s : KeyStore) : Bool := s.records.isEmpty

/-- Stores a key, in place of a record it had. -/
def insert (s : KeyStore) (key : String) (value : Option String) : KeyStore :=
  ⟨s.records.insert key (StoredKey.ofKey key value)⟩

/-- Stores the messages whose keys are not known yet. -/
def addMissing (s : KeyStore) (messages : Messages) : KeyStore :=
  messages.toList.foldl
    (fun s e => if (s.get? e.1).isSome then s else s.insert e.1 (some e.2)) s

/-- The store of messages. -/
def ofMessages (messages : Messages) : KeyStore :=
  messages.toList.foldl (fun s e => s.insert e.1 (some e.2)) empty

/-- Moves the message of a key to another one. -/
def rename (s : KeyStore) (oldKey newKey : String) : Except StoreFault (StoredKey × KeyStore) :=
  match s.get? oldKey with
  | none => .error (.unknownKey oldKey)
  | some record =>
    if (s.get? newKey).isSome then .error (.keyExists newKey)
    else
      let moved := StoredKey.ofKey newKey record.value
      .ok (moved, ⟨(s.records.erase oldKey).insert newKey moved⟩)

end KeyStore

end MessageKeys
