import MessageKeys.Catalog.Editor
import MessageKeys.Proofs.Catalog.Tree

/-! # Leaves — the messages of a catalog with the names that lead to them

    `leaves` lists the messages of a catalog, each with its path.  In an ordered catalog no
    name stands twice at one level, so the leaves are exactly what look-ups along paths find
    (`mem_leaves_iff`).  Catalogs that are parsed are ordered (`ordered_parse`), and removing
    and inserting keep them so. -/

namespace MessageKeys.Catalog

variable {c left next : Catalog} {name text : String} {path : List String}

mutual

/-- The messages below a node that stands at the end of a path. -/
def nodeLeaves (path : List String) : Node → List (List String × String)
  | .message text => [(path, text)]
  | .group entries => entryLeaves path entries

/-- The messages below entries that stand at the end of a path. -/
def entryLeaves (path : List String) : List (String × Node) → List (List String × String)
  | [] => []
  | (name, node) :: rest => nodeLeaves (path ++ [name]) node ++ entryLeaves path rest

end

/-- The messages of a catalog, each with the names that lead to it. -/
def leaves (c : Catalog) : List (List String × String) := entryLeaves [] c

/-! ## Order -/

/-- Entries are ordered below if every single node is. -/
theorem entriesOrdered_iff : EntriesOrdered c ↔ ∀ e ∈ c, NodeOrdered e.2 := by
  induction c with
  | nil => simp [EntriesOrdered]
  | cons e rest ih =>
      obtain ⟨name, node⟩ := e
      rw [EntriesOrdered, ih, List.forall_mem_cons]

theorem ordered_nil : Ordered [] := ⟨List.Pairwise.nil, trivial⟩

/-- What stands in an ordered catalog is ordered. -/
theorem Ordered.node (h : Ordered c) {node : Node} (hget : Entries.get? name c = some node) :
    NodeOrdered node :=
  entriesOrdered_iff.mp h.2 _ (Entries.mem_of_get? hget)

/-- Setting an entry to an ordered node keeps a catalog ordered. -/
theorem Ordered.insert (h : Ordered c) (name : String) {node : Node} (hnode : NodeOrdered node) :
    Ordered (Entries.insert name node c) := by
  refine ⟨h.1.insert name node, entriesOrdered_iff.mpr ?_⟩
  intro e he
  rcases Entries.mem_insert he with rfl | he
  · exact hnode
  · exact entriesOrdered_iff.mp h.2 e he

theorem Ordered.erase (h : Ordered c) (name : String) : Ordered (Entries.erase name c) :=
  ⟨h.1.erase name, entriesOrdered_iff.mpr fun e he =>
    entriesOrdered_iff.mp h.2 e (Entries.mem_erase he)⟩

theorem Ordered.entriesAt (h : Ordered c) (name : String) :
    Ordered (Catalog.entriesAt c name) := by
  rw [Catalog.entriesAt]
  split
  · next entries hget => exact h.node hget
  · exact ordered_nil

/-- **REMOVING** keeps a catalog ordered: groups are shortened or taken away, never made. -/
theorem Ordered.removeAt? (h : Ordered c) (hr : Catalog.removeAt? c path = some (text, left)) :
    Ordered left := by
  fun_induction Catalog.removeAt? c path generalizing left with
  | case1 => cases hr
  | case2 c name =>
      obtain ⟨t, -, he⟩ := Option.map_eq_some_iff.mp hr
      cases he
      exact h.erase name
  | case3 c name next rest entries hget ih =>
      obtain ⟨⟨t, inner⟩, hinner, he⟩ := Option.map_eq_some_iff.mp hr
      cases he
      have hentries : Ordered inner := ih (h.node hget) hinner
      rw [putGroup]
      split
      · exact h.erase name
      · exact h.insert name hentries
  | case4 => cases hr

/-- **INSERTING** keeps a catalog ordered, whatever groups it makes on the way. -/
theorem Ordered.insertAt (h : Ordered c) {previous : Option String}
    (hi : Catalog.insertAt c text path = .ok (previous, next)) : Ordered next := by
  induction path generalizing c next with
  | nil => cases hi; exact h
  | cons name rest ih =>
      cases rest with
      | nil =>
          obtain ⟨-, -, rfl⟩ := insertAt_last_eq_ok.mp hi
          exact h.insert name trivial
      | cons second rest =>
          obtain ⟨-, entries, hin, rfl⟩ := insertAt_cons_eq_ok.mp hi
          exact h.insert name (ih (h.entriesAt name) hin)

/-! ## Catalogs from JSON -/

/-- An object becomes the group of its members. -/
theorem nodeOfJsonStrict_object_eq_ok {key : String} {members : List (String × Json.Value)}
    {node : Node} :
    nodeOfJsonStrict key (.object members) = .ok node ↔
      ∃ entries, ofMembersStrict key members = .ok entries ∧ node = .group entries := by
  rw [nodeOfJsonStrict]
  cases ofMembersStrict key members with
  | error p => simp [Except.map]
  | ok entries => simp [Except.map, eq_comm]

/-- Members are set one by one, from the last to the first. -/
theorem ofMembersStrict_cons_eq_ok {key : String} {v : Json.Value}
    {rest : List (String × Json.Value)} :
    ofMembersStrict key ((name, v) :: rest) = .ok c ↔
      ∃ node entries, nodeOfJsonStrict (Key.below key name) v = .ok node ∧
        ofMembersStrict key rest = .ok entries ∧ c = Entries.insert name node entries := by
  rw [ofMembersStrict]
  cases nodeOfJsonStrict (Key.below key name) v with
  | error p => simp
  | ok node =>
      cases ofMembersStrict key rest with
      | error p => simp [Except.map]
      | ok entries => simp [Except.map, eq_comm]

mutual

/-- Catalogs are built from values in order. -/
theorem nodeOrdered_ofJsonStrict (path : String) (v : Json.Value) {node : Node}
    (h : nodeOfJsonStrict path v = .ok node) : NodeOrdered node := by
  cases v with
  | string text =>
      cases h
      exact trivial
  | object members =>
      obtain ⟨entries, hmembers, rfl⟩ := nodeOfJsonStrict_object_eq_ok.mp h
      exact ordered_ofMembersStrict path members hmembers
  | null => cases h
  | bool b => cases h
  | number n => cases h
  | array vs => cases h

theorem ordered_ofMembersStrict (path : String) (members : List (String × Json.Value))
    {c : Catalog} (h : ofMembersStrict path members = .ok c) : Ordered c := by
  cases members with
  | nil => cases h; exact ordered_nil
  | cons m rest =>
      obtain ⟨name, v⟩ := m
      obtain ⟨node, entries, hnode, hrest, rfl⟩ := ofMembersStrict_cons_eq_ok.mp h
      exact (ordered_ofMembersStrict path rest hrest).insert name
        (nodeOrdered_ofJsonStrict _ v hnode)

end

/-- A file is read if there is an object in it of which nothing is refused. -/
theorem parse_eq_ok {file : Path} {content : String} :
    parse file content = .ok c ↔
      ∃ members, Json.Value.parse? content = some (.object members) ∧
        ofMembersStrict "" members = .ok c := by
  rw [parse]
  cases Json.Value.parse? content with
  | none => simp
  | some v =>
      cases v with
      | object members =>
          simp [mapError_eq_ok]
      | _ => simp

/-- The catalog of a file is ordered, whatever the order of its members was. -/
theorem ordered_parse {file : Path} {content : String} (h : parse file content = .ok c) :
    Ordered c := by
  obtain ⟨members, -, hmembers⟩ := parse_eq_ok.mp h
  exact ordered_ofMembersStrict "" members hmembers

/-! ## Leaves and look-ups -/

/-- The first entry answers for its name alone, the others for all names but this. -/
theorem messageAt?_cons_iff {node : Node} {rest : Catalog}
    (h : Entries.Increasing ((name, node) :: rest)) (path : List String) (text : String) :
    messageAt? ((name, node) :: rest) path = some text ↔
      (∃ tail, path = name :: tail ∧ node.messageAt? tail = some text) ∨
        messageAt? rest path = some text := by
  cases path with
  | nil => simp [messageAt?]
  | cons n tail =>
      rw [messageAt?_cons, messageAt?_cons, Entries.get?]
      by_cases hn : name = n
      · subst hn
        have hnone : Entries.get? name rest = none :=
          Entries.get?_eq_none_of_lt (List.pairwise_cons.mp h).1
        simp [hnone]
      · simp [hn, Ne.symm hn]

mutual

/-- The leaves below an ordered node are the messages that look-ups find there. -/
theorem mem_nodeLeaves {node : Node} (h : NodeOrdered node) (front path : List String)
    (text : String) :
    (path, text) ∈ nodeLeaves front node ↔
      ∃ tail, path = front ++ tail ∧ node.messageAt? tail = some text := by
  cases node with
  | message t =>
      rw [nodeLeaves, List.mem_singleton, Prod.mk.injEq]
      constructor
      · rintro ⟨rfl, rfl⟩
        exact ⟨[], (List.append_nil _).symm, rfl⟩
      · rintro ⟨tail, rfl, htail⟩
        rw [Node.messageAt?] at htail
        split at htail
        · next hnil =>
          cases htail
          exact ⟨by rw [hnil, List.append_nil], rfl⟩
        · cases htail
  | group entries => exact mem_entryLeaves h front path text

/-- So are the leaves of entries: no name stands twice, so none hides another one's messages. -/
theorem mem_entryLeaves {es : List (String × Node)} (h : Ordered es) (front path : List String)
    (text : String) :
    (path, text) ∈ entryLeaves front es ↔
      ∃ tail, path = front ++ tail ∧ messageAt? es tail = some text := by
  cases es with
  | nil => simp [entryLeaves, messageAt?_empty]
  | cons e rest =>
      obtain ⟨name, node⟩ := e
      obtain ⟨hincreasing, hnode, hbelow⟩ := h
      have hrest : Ordered rest := ⟨(List.pairwise_cons.mp hincreasing).2, hbelow⟩
      rw [entryLeaves, List.mem_append, mem_nodeLeaves hnode, mem_entryLeaves hrest]
      simp only [messageAt?_cons_iff hincreasing]
      constructor
      · rintro (⟨tail, rfl, htail⟩ | ⟨tail, rfl, htail⟩)
        · exact ⟨name :: tail, by simp, Or.inl ⟨tail, rfl, htail⟩⟩
        · exact ⟨tail, rfl, Or.inr htail⟩
      · rintro ⟨_, rfl, ⟨tail, rfl, htail⟩ | htail⟩
        · exact Or.inl ⟨tail, by simp, htail⟩
        · exact Or.inr ⟨_, rfl, htail⟩

end

/-- **LEAVES**: the leaves of an ordered catalog are the messages that paths lead to. -/
theorem mem_leaves_iff (h : Ordered c) {path : List String} {text : String} :
    (path, text) ∈ leaves c ↔ messageAt? c path = some text := by
  rw [leaves, mem_entryLeaves h]
  simp

end MessageKeys.Catalog
