import MessageKeys.Proofs.Catalog.FlatMessages
import MessageKeys.Proofs.Catalog.Move
import MessageKeys.Proofs.KeyStore

/-! # The flat view — one message for a key, flat or resolved

    A key can stand for two leaves: the message under the literal top-level name, and the one
    along its segments.  Resolving tries the literal name first; the flat messages keep the
    leaf that is listed last.  The two agree because a name is listed before all names it is
    the beginning of (`Key.not_append_lt`), so the group that a nested path starts in comes before
    the literal name.

    This needs that a key has no other leaves: points stand only in top-level names of
    messages, and no group is under the empty name (`PointsOnTop`). -/

namespace MessageKeys.Catalog

variable {c : Catalog} {name text key : String} {path : List String}

/-! ## The leaves of a key -/

/-- Names with points are top-level names of messages, and there is no group under the empty
    top-level name. -/
structure PointsOnTop (c : Catalog) : Prop where
  groups : ∀ name entries, Entries.get? name c = some (.group entries) → '.' ∉ name.toList
  inside : ∀ name entries, Entries.get? name c = some (.group entries) →
    ∀ inner node, HasEntry entries inner node → '.' ∉ inner.toList
  noBareGroup : ∀ entries, Entries.get? "" c ≠ some (.group entries)

/-- The leaves of a key: its literal name, and the path of its segments. -/
theorem PointsOnTop.path_cases (h : PointsOnTop c) (hpath : messageAt? c path = some text) :
    path = [keyOf path] ∨ path = Key.segments (keyOf path) := by
  cases path with
  | nil => cases hpath
  | cons name rest =>
      cases rest with
      | nil => exact .inl (by rw [keyOf_single])
      | cons next rest =>
          -- a longer path starts in a group, where no name has a point
          rw [messageAt?_cons, Option.bind_eq_some_iff] at hpath
          obtain ⟨node, hget, hnode⟩ := hpath
          cases node with
          | message t => cases hnode
          | group entries =>
              have hname : name ≠ "" := fun he => h.noBareGroup entries (he ▸ hget)
              refine .inr (segments_keyOf (List.cons_ne_nil _ _) ?_ ?_).symm
              · intro n hn
                rcases List.mem_cons.mp hn with rfl | hn
                · exact h.groups n entries hget
                · obtain ⟨inner, hinner⟩ := exists_hasEntry hnode n hn
                  exact h.inside name entries hget n inner hinner
              · exact .inl fun he => hname (Option.some.inj he)

/-- A message along the segments of a key has the key. -/
theorem PointsOnTop.keyOf_segments (h : PointsOnTop c)
    (hpath : messageAt? c (Key.segments key) = some text) : keyOf (Key.segments key) = key :=
  Catalog.keyOf_segments (isProper_of_messageAt? h.noBareGroup hpath)

/-! ## A key without a literal name -/

/-- Without a literal name the message of a key is the nested one. -/
theorem PointsOnTop.get?_messages_nested (hpoints : PointsOnTop c) (h : Ordered c)
    (hschema : (Key.segments key).head? ≠ some schemaName) (hliteral : literal? c key = none) :
    (messages c).get? key = nested? c key := by
  -- a leaf of the key cannot be its literal name
  have hpath : ∀ path text, messageAt? c path = some text → keyOf path = key →
      path = Key.segments key := by
    rintro path text hpath rfl
    rcases hpoints.path_cases hpath with hsingle | hsegments
    · rw [hsingle] at hpath
      have hsome : literal? c (keyOf path) = some text := hpath
      rw [hliteral] at hsome
      cases hsome
    · exact hsegments
  refine Option.ext fun text => ?_
  rw [nested?]
  constructor
  · intro hget
    obtain ⟨path, hkey, hleaf, -⟩ := exists_path_of_messages h hget
    rw [← hpath path text hleaf hkey]
    exact hleaf
  · intro hnested
    have hkey := hpoints.keyOf_segments hnested
    rw [messages_eq]
    refine Dictionary.get?_ofList_of_mem ((mem_keyed_iff h).mpr ⟨_, hkey, hnested, hschema⟩) ?_
    intro other hother
    obtain ⟨path, hsame, hleaf, -⟩ := (mem_keyed_iff h).mp hother
    rw [hpath path other hleaf hsame, hnested] at hleaf
    exact (Option.some.inj hleaf).symm

/-! ## A key with a literal name -/

/-- The first segment of a key does not come after the key. -/
theorem not_lt_of_head (h : (Key.segments key).head? = some name) : ¬ key < name := by
  rcases Key.head?_segments h with rfl | ⟨more, rfl⟩
  · exact String.lt_irrefl key
  · exact Key.not_extension_lt name more

theorem entryLeaves_append (front : List String) (es fs : List (String × Node)) :
    entryLeaves front (es ++ fs) = entryLeaves front es ++ entryLeaves front fs := by
  induction es with
  | nil => rfl
  | cons e rest ih =>
      obtain ⟨name, node⟩ := e
      rw [List.cons_append, entryLeaves, ih, entryLeaves, List.append_assoc]

/-- What stands behind the literal name of a key has no leaf of the key. -/
theorem PointsOnTop.keyOf_ne_of_lt (hpoints : PointsOnTop c) (h : Ordered c)
    {after : List (String × Node)} (hordered : Ordered after)
    (hafter : ∀ e ∈ after, e ∈ c ∧ key < e.1) (hleaf : (path, text) ∈ leaves after) :
    keyOf path ≠ key := by
  rintro rfl
  have hpath := (mem_leaves_iff hordered).mp hleaf
  cases path with
  | nil => cases hpath
  | cons name rest =>
      rw [messageAt?_cons, Option.bind_eq_some_iff] at hpath
      obtain ⟨node, hget, hnode⟩ := hpath
      obtain ⟨hmem, hlt⟩ := hafter (name, node) (Entries.mem_of_get? hget)
      have hinc : Entries.get? name c = some node := h.1.get?_of_mem hmem
      have hsame : messageAt? c (name :: rest) = some text := by
        rw [messageAt?_cons, hinc]
        exact hnode
      rcases hpoints.path_cases hsame with hsingle | hsegments
      · obtain ⟨hname, -⟩ := List.cons.inj hsingle
        exact Entries.name_ne_of_lt hlt hname.symm
      · exact not_lt_of_head (congrArg List.head? hsegments.symm) hlt

/-- With a literal name the message of a key is the one under it. -/
theorem PointsOnTop.get?_messages_literal (hpoints : PointsOnTop c) (h : Ordered c)
    (hschema : key ≠ schemaName) (hliteral : literal? c key = some text) :
    (messages c).get? key = some text := by
  have hmem : (key, Node.message text) ∈ c.filter (·.1 ≠ schemaName) :=
    List.mem_filter.mpr ⟨Entries.mem_of_get? (literal?_eq_some.mp hliteral),
      decide_eq_true hschema⟩
  have hordered : Ordered (c.filter (·.1 ≠ schemaName)) := h.filter _
  obtain ⟨before, after, hsplit⟩ := List.append_of_mem hmem
  -- the leaves behind the literal name are not those of the key, so it is the last one
  have hafter : ∀ e ∈ after, e ∈ c ∧ key < e.1 := by
    intro e he
    have hin : e ∈ c.filter (·.1 ≠ schemaName) := by
      rw [hsplit]
      exact List.mem_append_right _ (List.mem_cons_of_mem _ he)
    have hincreasing := hordered.1
    rw [hsplit] at hincreasing
    obtain ⟨-, hrest, -⟩ := List.pairwise_append.mp hincreasing
    exact ⟨(List.mem_filter.mp hin).1, (List.pairwise_cons.mp hrest).1 e he⟩
  have hrest : Ordered after := by
    rw [hsplit] at hordered
    obtain ⟨-, hrest, -⟩ := List.pairwise_append.mp hordered.1
    exact ⟨(List.pairwise_cons.mp hrest).2, entriesOrdered_iff.mpr fun e he =>
      entriesOrdered_iff.mp hordered.2 e
        (List.mem_append_right _ (List.mem_cons_of_mem _ he))⟩
  have hlast : (Dictionary.ofList (keyed (leaves after))).get? key = none := by
    rw [Dictionary.get?_ofList_eq_none_iff]
    intro hkey
    obtain ⟨_, hpair, rfl⟩ := List.mem_map.mp hkey
    obtain ⟨⟨path, t⟩, hleaf, rfl⟩ := List.mem_map.mp hpair
    exact hpoints.keyOf_ne_of_lt h hrest hafter hleaf rfl
  have hleaves : keyed (leaves (c.filter (·.1 ≠ schemaName)))
      = keyed (leaves before) ++ (key, text) :: keyed (leaves after) := by
    rw [hsplit, leaves, entryLeaves_append, keyed, List.map_append]
    show _ ++ (keyOf [key], text) :: _ = _
    rw [keyOf_single]
    rfl
  rw [messages_eq, hleaves, Dictionary.get?_ofList_append, Dictionary.get?_ofList_cons, hlast,
    if_pos rfl]
  rfl

/-! ## The two views -/

/-- **ONE MESSAGE FOR A KEY**: where points stand only on top, the flat messages answer every
    key outside of the schema as resolving it does, also a key that is stored both as a
    literal name and along its segments.  So a key store seeded with the flat messages knows
    exactly the keys that a move finds, with the messages it finds. -/
theorem get?_messages_eq_resolve? (h : Ordered c) (hpoints : PointsOnTop c)
    (hschema : (Key.segments key).head? ≠ some schemaName) :
    (messages c).get? key = (c.resolve? key).map (·.1) ∧
    (KeyStore.empty.addMissing (messages c)).get? key
      = (c.resolve? key).map fun found => StoredKey.ofKey key (some found.1) := by
  have hviews : (messages c).get? key = (c.resolve? key).map (·.1) := by
    rw [resolve?]
    cases hliteral : literal? c key with
    | some text =>
        have hkey : key ≠ schemaName := by
          rintro rfl
          exact hschema rfl
        exact hpoints.get?_messages_literal h hkey hliteral
    | none =>
        rw [hpoints.get?_messages_nested h hschema hliteral, Option.map_map]
        exact Option.map_id'.symm
  refine ⟨hviews, ?_⟩
  rw [KeyStore.get?_addMissing, hviews, Option.map_map]
  rfl

/-- A catalog that stores one key twice and another one under a literal name only. -/
def storedTwice : Catalog :=
  [("home", .group [("hi", .message "Nested")]), ("home.hi", .message "Literal"),
    ("nav.bye", .message "Bye")]

theorem storedTwice_pointsOnTop : PointsOnTop storedTwice := by
  have hgroup : ∀ name entries, Entries.get? name storedTwice = some (.group entries) →
      name = "home" ∧ entries = [("hi", .message "Nested")] := by
    intro name entries hget
    have hmem := Entries.mem_of_get? hget
    simpa [storedTwice] using hmem
  refine ⟨?_, ?_, ?_⟩
  · intro name entries hget
    obtain ⟨rfl, -⟩ := hgroup name entries hget
    decide
  · intro name entries hget inner node hinner
    obtain ⟨-, rfl⟩ := hgroup name entries hget
    rcases hinner with hmem | ⟨hmem, -⟩
    · simp at hmem
      rw [hmem.1]
      decide
    · simp at hmem
  · intro entries hget
    exact absurd (hgroup "" entries hget).1 (by decide)

theorem get?_messages_eq_resolve?_sample :
    storedTwice.Ordered ∧ PointsOnTop storedTwice ∧
    (Key.segments "home.hi").head? ≠ some schemaName ∧
    (messages storedTwice).get? "home.hi" = (resolve? storedTwice "home.hi").map (·.1) ∧
    resolve? storedTwice "home.hi" = some ("Literal", .literal) := by
  have hordered : storedTwice.Ordered := by
    refine ⟨?_, ⟨?_, trivial, trivial⟩, trivial, trivial, trivial⟩
    · show List.Pairwise (fun a b : String × Node => a.1 < b.1) storedTwice
      decide
    · exact List.pairwise_singleton _ _
  have hschema : (Key.segments "home.hi").head? ≠ some schemaName := by decide
  exact ⟨hordered, storedTwice_pointsOnTop, hschema,
    (get?_messages_eq_resolve? hordered storedTwice_pointsOnTop hschema).1, rfl⟩

end MessageKeys.Catalog
