import MessageKeys.Proofs.Catalog.Placing
import MessageKeys.Proofs.Dictionary
import MessageKeys.Proofs.Key

/-! # Flat messages and back

    `messages` forgets where a key was cut: the names on the way to a message are joined by
    points (`keyOf`), empty groups have no message, and the schema is left out.  `ofMessages`
    cuts every key at all of its points.  So the two give back the catalog exactly if it is
    `Regular`: no name has a point, no group is empty, there is no schema, and the empty
    top-level name, which adds nothing to a key, is not that of a group
    (`ofMessages_messages_iff`).

    Keys are placed in their order, where none begins with a later one.  So a placed message
    gives way to longer keys only (`messageAt?_placeAll`, `messageAt?_ofMessages`). -/

namespace MessageKeys.Catalog

variable {c : Catalog} {name text key : String} {path : List String}

/-! ## Keys of paths -/

/-- The key of a path: its names joined by points, without empty names at the start. -/
def keyOf (path : List String) : String := path.foldl Key.below ""

theorem keyOf_append (path : List String) (name : String) :
    keyOf (path ++ [name]) = Key.below (keyOf path) name := by
  rw [keyOf, List.foldl_append]
  rfl

theorem keyOf_single (name : String) : keyOf [name] = name := by
  show Key.below "" name = name
  rw [Key.below, if_pos rfl]

theorem keyOf_cons_empty (path : List String) : keyOf ("" :: path) = keyOf path := rfl

/-- A name that is not empty is the start of its key. -/
theorem keyOf_cons (hname : name ≠ "") (path : List String) :
    keyOf (name :: path) = Key.join (name :: path) := by
  show path.foldl Key.below name = Key.join (name :: path)
  induction path generalizing name with
  | nil => exact (String.ofList_toList).symm
  | cons next rest ih =>
      have hbelow : Key.below name next = name ++ "." ++ next := if_neg hname
      have hne : name ++ "." ++ next ≠ "" := by
        intro he
        have hlength := congrArg (fun s : String => s.toList.length) he
        simp [String.toList_append] at hlength
      rw [List.foldl_cons, hbelow, ih hne, Key.join, Key.join, Text.join, Text.join]
      congr 1
      cases rest <;> simp [Text.glue]

/-- The path starts with a name, or is the empty name alone. -/
def IsProper (path : List String) : Prop := path.head? ≠ some "" ∨ path = [""]

/-- A proper path without points is read back from its key. -/
theorem segments_keyOf (hne : path ≠ []) (hpoint : ∀ name ∈ path, '.' ∉ name.toList)
    (hproper : IsProper path) : Key.segments (keyOf path) = path := by
  rcases hproper with hhead | rfl
  · cases path with
    | nil => exact absurd rfl hne
    | cons name rest =>
        rw [keyOf_cons fun he => hhead (congrArg some he)]
        exact Key.segments_join hne hpoint
  · rfl

/-- Of any path without points a proper one is read back. -/
theorem isProper_segments_keyOf (hpoint : ∀ name ∈ path, '.' ∉ name.toList) :
    IsProper (Key.segments (keyOf path)) := by
  induction path with
  | nil => exact .inr rfl
  | cons name rest ih =>
      by_cases hname : name = ""
      · rw [hname, keyOf_cons_empty]
        exact ih fun n hn => hpoint n (List.mem_cons_of_mem _ hn)
      · have hhead : IsProper (name :: rest) := .inl fun he => hname (Option.some.inj he)
        rw [segments_keyOf (List.cons_ne_nil _ _) hpoint hhead]
        exact hhead

/-- A key whose segments are proper is that of its segments. -/
theorem keyOf_segments (h : IsProper (Key.segments key)) : keyOf (Key.segments key) = key := by
  have hjoin := Key.join_segments key
  cases hsegments : Key.segments key with
  | nil => exact absurd hsegments (Key.segments_ne_nil key)
  | cons name rest =>
      rw [hsegments] at h hjoin
      by_cases hname : name = ""
      · rcases h with hhead | hsingle
        · exact absurd (congrArg some hname) hhead
        · rw [hsingle] at hjoin ⊢
          rw [← hjoin]
          rfl
      · rw [keyOf_cons hname, hjoin]

/-! ## The messages are the leaves -/

/-- Leaves by the keys of their paths. -/
def keyed (ls : List (List String × String)) : List (String × String) :=
  ls.map fun l => (keyOf l.1, l.2)

theorem insertMany_keyed_append (into : Messages) (ls ms : List (List String × String)) :
    into.insertMany (keyed (ls ++ ms)) = (into.insertMany (keyed ls)).insertMany (keyed ms) := by
  rw [keyed, List.map_append, Dictionary.insertMany, List.foldl_append]
  rfl

mutual

theorem addNode_eq (front : List String) (into : Messages) (node : Node) :
    addNode (keyOf front) into node = into.insertMany (keyed (nodeLeaves front node)) := by
  cases node with
  | message text => rfl
  | group entries => exact addEntries_eq front into entries

theorem addEntries_eq (front : List String) (into : Messages) (entries : List (String × Node)) :
    addEntries (keyOf front) into entries
      = into.insertMany (keyed (entryLeaves front entries)) := by
  cases entries with
  | nil => rfl
  | cons e rest =>
      obtain ⟨name, node⟩ := e
      rw [addEntries, ← keyOf_append, addNode_eq, addEntries_eq, entryLeaves,
        insertMany_keyed_append]

end

/-- **MESSAGES**: the messages are the leaves outside of the schema, by the keys of their
    paths. -/
theorem messages_eq (c : Catalog) :
    messages c = Dictionary.ofList (keyed (leaves (c.filter (·.1 ≠ schemaName)))) := by
  rw [messages, leaves, Dictionary.ofList]
  generalize c.filter (·.1 ≠ schemaName) = es
  generalize (∅ : Messages) = into
  induction es generalizing into with
  | nil => rfl
  | cons e rest ih =>
      obtain ⟨name, node⟩ := e
      rw [List.foldl_cons, ih, entryLeaves, insertMany_keyed_append, List.nil_append,
        ← addNode_eq, keyOf_single]

theorem get?_filter_schema (c : Catalog) (name : String) :
    Entries.get? name (c.filter (·.1 ≠ schemaName))
      = if name = schemaName then none else Entries.get? name c := by
  induction c with
  | nil => simp [Entries.get?]
  | cons e rest ih =>
      obtain ⟨n, node⟩ := e
      by_cases hn : n = schemaName
      · rw [List.filter_cons_of_neg (by simpa using hn), ih, Entries.get?]
        by_cases hname : name = schemaName
        · rw [if_pos hname, if_pos hname]
        · rw [if_neg hname, if_neg hname, if_neg (by rw [hn]; exact Ne.symm hname)]
      · rw [List.filter_cons_of_pos (by simpa using hn), Entries.get?, ih, Entries.get?]
        by_cases hname : n = name
        · rw [if_pos hname, if_pos hname, if_neg (hname ▸ hn)]
        · rw [if_neg hname, if_neg hname]

theorem Ordered.filter (h : Ordered c) (p : String × Node → Bool) : Ordered (c.filter p) :=
  ⟨List.Pairwise.filter p h.1, entriesOrdered_iff.mpr fun e he =>
    entriesOrdered_iff.mp h.2 e (List.mem_filter.mp he).1⟩

/-- The messages outside of the schema, by the keys of their paths. -/
theorem mem_keyed_iff (h : Ordered c) :
    (key, text) ∈ keyed (leaves (c.filter (·.1 ≠ schemaName))) ↔
      ∃ path, keyOf path = key ∧ messageAt? c path = some text ∧
        path.head? ≠ some schemaName := by
  have hleaf : ∀ path, (path, text) ∈ leaves (c.filter (·.1 ≠ schemaName)) ↔
      messageAt? c path = some text ∧ path.head? ≠ some schemaName := by
    intro path
    rw [mem_leaves_iff (h.filter _)]
    cases path with
    | nil => exact iff_of_false (by rintro ⟨⟩) (by rintro ⟨⟨⟩, -⟩)
    | cons name rest =>
        rw [messageAt?_cons, get?_filter_schema, messageAt?_cons]
        by_cases hname : name = schemaName
        · rw [if_pos hname]
          exact iff_of_false (by rintro ⟨⟩) fun hpath => hpath.2 (congrArg some hname)
        · rw [if_neg hname]
          exact (and_iff_left fun he => hname (Option.some.inj he)).symm
  constructor
  · intro hmem
    obtain ⟨⟨path, t⟩, hleaves, he⟩ := List.mem_map.mp hmem
    obtain ⟨rfl, rfl⟩ := Prod.mk.inj he
    exact ⟨path, rfl, (hleaf path).mp hleaves⟩
  · rintro ⟨path, rfl, hpath⟩
    exact List.mem_map.mpr ⟨(path, text), (hleaf path).mpr hpath, rfl⟩

/-- A message by its key comes from a path that does not start at the schema. -/
theorem exists_path_of_messages (h : Ordered c) (hget : (messages c).get? key = some text) :
    ∃ path, keyOf path = key ∧ messageAt? c path = some text ∧ path.head? ≠ some schemaName := by
  rw [messages_eq] at hget
  exact (mem_keyed_iff h).mp (Dictionary.mem_of_get?_ofList hget)

/-! ## Building the tree back -/

/-- Places messages one after the other. -/
def placeAll (c : Catalog) (es : List (String × String)) : Catalog :=
  es.foldl (fun c e => placeAt c e.2 (Key.segments e.1)) c

theorem ofMessages_eq (flat : Messages) : ofMessages flat = placeAll [] flat.toList := rfl

theorem Ordered.placeAll (h : Ordered c) (es : List (String × String)) :
    Ordered (Catalog.placeAll c es) := by
  induction es generalizing c with
  | nil => exact h
  | cons e rest ih => exact ih (h.placeAt e.2 _)

/-- **PLACING MANY**: where no key begins with a later one, a message is there unless another key
    goes on behind its path. -/
theorem messageAt?_placeAll {es : List (String × String)}
    (horder : es.Pairwise fun a b => ¬ Key.segments b.1 <+: Key.segments a.1) :
    messageAt? (placeAll c es) path = some text ↔
      (∃ e ∈ es, Key.segments e.1 = path ∧ e.2 = text ∧
        ∀ f ∈ es, path <+: Key.segments f.1 → Key.segments f.1 = path) ∨
      (messageAt? c path = some text ∧ ∀ e ∈ es, Apart (Key.segments e.1) path) := by
  induction es generalizing c with
  | nil => simp [placeAll]
  | cons e rest ih =>
      obtain ⟨hfirst, hrest⟩ := List.pairwise_cons.mp horder
      have hstep : placeAll c (e :: rest) = placeAll (placeAt c e.2 (Key.segments e.1)) rest := rfl
      rw [hstep, ih hrest, messageAt?_placeAt (Key.segments_ne_nil e.1)]
      by_cases hpath : path = Key.segments e.1
      · -- later keys can only take the place of the message that is placed here
        subst hpath
        rw [if_pos rfl]
        constructor
        · rintro (⟨f, hf, hsame, -⟩ | ⟨htext, hapart⟩)
          · exact absurd (hsame ▸ List.prefix_rfl) (hfirst f hf)
          · refine .inl ⟨e, List.mem_cons_self, rfl, Option.some.inj htext, ?_⟩
            intro g hg hprefix
            rcases List.mem_cons.mp hg with rfl | hg
            · rfl
            · exact absurd hprefix (hapart g hg).2
        · rintro (⟨f, hf, hsame, htext, hlast⟩ | ⟨-, hall⟩)
          · rcases List.mem_cons.mp hf with rfl | hf
            · refine .inr ⟨congrArg some htext, fun g hg => ⟨hfirst g hg, fun hprefix => ?_⟩⟩
              have hsegments := hlast g (List.mem_cons_of_mem _ hg) hprefix
              exact hfirst g hg (hsegments ▸ List.prefix_rfl)
            · exact absurd (hsame ▸ List.prefix_rfl) (hfirst f hf)
          · exact absurd List.prefix_rfl (hall e List.mem_cons_self).1
      · have hexists : (∃ f ∈ e :: rest, Key.segments f.1 = path ∧ f.2 = text ∧
              ∀ g ∈ e :: rest, path <+: Key.segments g.1 → Key.segments g.1 = path) ↔
            ∃ f ∈ rest, Key.segments f.1 = path ∧ f.2 = text ∧
              ∀ g ∈ rest, path <+: Key.segments g.1 → Key.segments g.1 = path := by
          constructor
          · rintro ⟨f, hf, hsame, htext, hlast⟩
            rcases List.mem_cons.mp hf with rfl | hf
            · exact absurd hsame.symm hpath
            · exact ⟨f, hf, hsame, htext, fun g hg => hlast g (List.mem_cons_of_mem _ hg)⟩
          · rintro ⟨f, hf, rfl, htext, hlast⟩
            refine ⟨f, List.mem_cons_of_mem _ hf, rfl, htext, fun g hg hprefix => ?_⟩
            rcases List.mem_cons.mp hg with rfl | hg
            · exact absurd hprefix (hfirst f hf)
            · exact hlast g hg hprefix
        rw [if_neg hpath, hexists, List.forall_mem_cons]
        refine or_congr_right ?_
        by_cases hrelated : Key.segments e.1 <+: path ∨ path <+: Key.segments e.1
        · rw [if_pos hrelated]
          refine iff_of_false (by rintro ⟨⟨⟩, -⟩) ?_
          rintro ⟨-, hno, -⟩
          exact hrelated.elim hno.1 hno.2
        · rw [if_neg hrelated]
          rw [not_or] at hrelated
          exact and_congr_right fun _ => (and_iff_right hrelated).symm

/-- **BUILDING**: the messages of the tree are those of the keys that no other key begins with,
    each along the segments of its key.  In order of key the longer ones come later. -/
theorem messageAt?_ofMessages (flat : Messages) :
    messageAt? (ofMessages flat) path = some text ↔
      ∃ key, Key.segments key = path ∧ flat.get? key = some text ∧
        ∀ other value, flat.get? other = some value → path <+: Key.segments other → other = key := by
  have horder : flat.toList.Pairwise fun a b => ¬ Key.segments b.1 <+: Key.segments a.1 :=
    flat.increasing.imp fun hlt hprefix => Key.not_lt_of_prefix hprefix hlt
  rw [ofMessages_eq, messageAt?_placeAll horder, messageAt?_empty]
  constructor
  · rintro (⟨⟨key, value⟩, hmem, rfl, rfl, hlast⟩ | ⟨⟨⟩, -⟩)
    refine ⟨key, rfl, (Dictionary.mem_toList_iff flat key value).mp hmem, ?_⟩
    intro other value' hget hprefix
    exact Key.segments_injective
      (hlast (other, value') ((Dictionary.mem_toList_iff flat other value').mpr hget) hprefix)
  · rintro ⟨key, rfl, hget, hlast⟩
    refine .inl ⟨(key, text), (Dictionary.mem_toList_iff flat key text).mpr hget, rfl, rfl, ?_⟩
    rintro ⟨other, value⟩ hmem hprefix
    exact congrArg Key.segments
      (hlast other value ((Dictionary.mem_toList_iff flat other value).mp hmem) hprefix)

/-- Entries of the tree stand under segments of keys, and are no empty groups. -/
theorem HasEntry.of_placeAll {es : List (String × String)} {node : Node}
    (h : HasEntry (Catalog.placeAll c es) name node) :
    (∃ e ∈ es, name ∈ Key.segments e.1 ∧ node ≠ .group []) ∨ HasEntry c name node := by
  induction es generalizing c with
  | nil => exact .inr h
  | cons e rest ih =>
      rcases ih h with ⟨f, hf, hname⟩ | h
      · exact .inl ⟨f, List.mem_cons_of_mem _ hf, hname⟩
      · exact h.of_placeAt.imp (fun hname => ⟨e, List.mem_cons_self, hname⟩) id

/-- At the top they stand under first segments. -/
theorem get?_placeAll_eq_some {es : List (String × String)} {node : Node}
    (h : Entries.get? name (placeAll c es) = some node) :
    (∃ e ∈ es, (Key.segments e.1).head? = some name ∧
      (Key.segments e.1 = [name] → node = .message e.2)) ∨ Entries.get? name c = some node := by
  induction es generalizing c with
  | nil => exact .inr h
  | cons e rest ih =>
      rcases ih h with ⟨f, hf, hname⟩ | h
      · exact .inl ⟨f, List.mem_cons_of_mem _ hf, hname⟩
      · exact (get?_placeAt_eq_some h).imp (fun hname => ⟨e, List.mem_cons_self, hname⟩) id

theorem ordered_ofMessages (flat : Messages) : Ordered (ofMessages flat) :=
  ordered_nil.placeAll flat.toList

theorem hasEntry_ofMessages {flat : Messages} {node : Node}
    (h : HasEntry (ofMessages flat) name node) : '.' ∉ name.toList ∧ node ≠ .group [] := by
  rcases HasEntry.of_placeAll h with ⟨e, -, hname, hnode⟩ | h
  · exact ⟨Text.not_mem_of_mem_split hname, hnode⟩
  · exact absurd h not_hasEntry_nil

theorem full_ofMessages (flat : Messages) : Full (ofMessages flat) :=
  fun _ h => (hasEntry_ofMessages h).2 rfl

/-! ## Regular catalogs -/

/-- A catalog that is written down the same way as flat messages. -/
structure Regular (c : Catalog) : Prop where
  /-- There is no schema at the top. -/
  noSchema : Entries.get? schemaName c = none
  /-- No name at any level has a point. -/
  noPoint : ∀ name node, HasEntry c name node → '.' ∉ name.toList
  /-- No group below the catalog itself is empty. -/
  noEmpty : ∀ name, ¬ HasEntry c name (.group [])
  /-- The empty top-level name is that of a message, if there is one. -/
  noBareGroup : ∀ entries, Entries.get? "" c ≠ some (.group entries)

/-- A path to a message starts with a name, or there is a group under the empty one. -/
theorem isProper_of_messageAt? (hbare : ∀ entries, Entries.get? "" c ≠ some (.group entries))
    (h : messageAt? c path = some text) : IsProper path := by
  cases path with
  | nil => cases h
  | cons name rest =>
      by_cases hname : name = ""
      · subst hname
        rw [messageAt?_cons, Option.bind_eq_some_iff] at h
        obtain ⟨node, hget, hnode⟩ := h
        cases node with
        | group entries => exact absurd hget (hbare entries)
        | message t =>
            rw [Node.messageAt?] at hnode
            split at hnode
            · next hnil => exact .inr (by rw [hnil])
            · cases hnode
      · exact .inl fun he => hname (Option.some.inj he)

theorem ne_nil_of_messageAt? (h : messageAt? c path = some text) : path ≠ [] := by
  rintro rfl
  cases h

/-- The names on the way to a message of a regular catalog have no points. -/
theorem Regular.noPoint_path (hregular : Regular c) (h : messageAt? c path = some text) :
    ∀ name ∈ path, '.' ∉ name.toList := by
  intro name hmem
  obtain ⟨node, hentry⟩ := exists_hasEntry h name hmem
  exact hregular.noPoint name node hentry

/-- So its paths are read back from their keys. -/
theorem Regular.segments_keyOf (hregular : Regular c) (h : messageAt? c path = some text) :
    Key.segments (keyOf path) = path :=
  Catalog.segments_keyOf (ne_nil_of_messageAt? h) (hregular.noPoint_path h)
    (isProper_of_messageAt? hregular.noBareGroup h)

/-- The messages of a regular catalog stand along the segments of their keys. -/
theorem Regular.get?_messages (hregular : Regular c) (h : Ordered c) :
    (messages c).get? key = some text ↔ messageAt? c (Key.segments key) = some text := by
  constructor
  · intro hget
    obtain ⟨path, rfl, hpath, -⟩ := exists_path_of_messages h hget
    rw [hregular.segments_keyOf hpath]
    exact hpath
  · intro hpath
    have hall : c.filter (·.1 ≠ schemaName) = c := by
      refine List.filter_eq_self.mpr fun e he => decide_eq_true ?_
      rintro hname
      have hget : Entries.get? e.1 c = some e.2 := h.1.get?_of_mem he
      rw [hname, hregular.noSchema] at hget
      cases hget
    have hkey := keyOf_segments (isProper_of_messageAt? hregular.noBareGroup hpath)
    have hmem : (key, text) ∈ keyed (leaves c) :=
      List.mem_map.mpr ⟨(Key.segments key, text), (mem_leaves_iff h).mpr hpath, by rw [hkey]⟩
    rw [messages_eq, hall]
    refine Dictionary.get?_ofList_of_mem hmem ?_
    -- two leaves with one key are at one path
    intro other hother
    obtain ⟨⟨path, t⟩, hleaf, he⟩ := List.mem_map.mp hother
    obtain ⟨hsame, rfl⟩ := Prod.mk.inj he
    rw [mem_leaves_iff h] at hleaf
    rw [← hsame, hregular.segments_keyOf hleaf, hleaf] at hpath
    exact Option.some.inj hpath

/-- **BACK AGAIN**: a regular catalog is built back from its flat messages. -/
theorem Regular.ofMessages_messages (hregular : Regular c) (h : Ordered c) :
    ofMessages (messages c) = c := by
  refine ext_messageAt? (ordered_ofMessages _) h (full_ofMessages _) hregular.noEmpty ?_
  intro path
  refine Option.ext fun text => ?_
  rw [messageAt?_ofMessages]
  constructor
  · rintro ⟨key, rfl, hget, -⟩
    exact (hregular.get?_messages h).mp hget
  · intro hpath
    have hsegments := hregular.segments_keyOf hpath
    refine ⟨keyOf path, hsegments, ?_, ?_⟩
    · rw [hregular.get?_messages h, hsegments]
      exact hpath
    · -- nothing stands behind a message, so no key goes on behind this one
      rintro other value hget ⟨more, hmore⟩
      have hother := (hregular.get?_messages h).mp hget
      rw [← hmore] at hother
      have hnil := eq_nil_of_messageAt?_append hpath hother
      rw [hnil, List.append_nil, ← hsegments] at hmore
      exact Key.segments_injective hmore.symm

/-- Only a regular catalog is built back: whatever is built from flat messages has no points in
    its names and no empty groups, and no key starts at the schema or with an empty name. -/
theorem regular_of_ofMessages (h : Ordered c) (hback : ofMessages (messages c) = c) :
    Regular c := by
  have hentry : ∀ name node, HasEntry c name node → '.' ∉ name.toList ∧ node ≠ .group [] := by
    intro name node hname
    rw [← hback] at hname
    exact hasEntry_ofMessages hname
  have hpoint : ∀ path text, messageAt? c path = some text → ∀ name ∈ path, '.' ∉ name.toList := by
    intro path text hpath name hmem
    obtain ⟨node, hname⟩ := exists_hasEntry hpath name hmem
    exact (hentry name node hname).1
  -- what stands at the top comes from a key, and that from a path
  have htop : ∀ name node, Entries.get? name c = some node → ∃ path text,
      messageAt? c path = some text ∧ path.head? ≠ some schemaName ∧
        (Key.segments (keyOf path)).head? = some name ∧
        (Key.segments (keyOf path) = [name] → node = .message text) := by
    intro name node hget
    rw [← hback, ofMessages_eq] at hget
    rcases get?_placeAll_eq_some hget with ⟨e, he, hhead, hnode⟩ | hnil
    · obtain ⟨path, hkey, hpath, hschema⟩ :=
        exists_path_of_messages h ((Dictionary.mem_toList_iff _ e.1 e.2).mp he)
      rw [← hkey] at hhead hnode
      exact ⟨path, e.2, hpath, hschema, hhead, hnode⟩
    · cases hnil
  have hbare : ∀ entries, Entries.get? "" c ≠ some (.group entries) := by
    intro entries hget
    obtain ⟨path, text, hpath, -, hhead, hnode⟩ := htop "" _ hget
    rcases isProper_segments_keyOf (hpoint path text hpath) with hne | hsingle
    · exact hne hhead
    · cases hnode hsingle
  refine ⟨?_, fun name node hname => (hentry name node hname).1,
    fun name hname => (hentry name _ hname).2 rfl, hbare⟩
  cases hget : Entries.get? schemaName c with
  | none => rfl
  | some node =>
      obtain ⟨path, text, hpath, hschema, hhead, -⟩ := htop schemaName node hget
      rw [segments_keyOf (ne_nil_of_messageAt? hpath) (hpoint path text hpath)
        (isProper_of_messageAt? hbare hpath)] at hhead
      exact absurd hhead hschema

/-- **FLAT AND BACK**: for every catalog, building the tree of its flat messages gives it back
    exactly if there is no schema at the top, no name at any level has a point, no group below
    the catalog itself is empty, and the empty top-level name is not that of a group. -/
theorem ofMessages_messages_iff (h : Ordered c) : ofMessages (messages c) = c ↔ Regular c :=
  ⟨regular_of_ofMessages h, fun hregular => hregular.ofMessages_messages h⟩

/-- A catalog with empty names, which make keys like `""` and `home.`. -/
def withEmptyNames : Catalog :=
  [("", .message "none"), ("home", .group [("", .message "Home"), ("hi", .message "Hi")])]

theorem ofMessages_messages_sample : withEmptyNames.Ordered ∧
    ofMessages (messages withEmptyNames) = withEmptyNames ∧ Regular withEmptyNames := by
  have hordered : withEmptyNames.Ordered := by
    refine ⟨?_, trivial, ⟨?_, trivial, trivial, trivial⟩, trivial⟩
    · show List.Pairwise (fun a b : String × Node => a.1 < b.1) withEmptyNames
      decide
    · show List.Pairwise (fun a b : String × Node => a.1 < b.1)
        [("", .message "Home"), ("hi", .message "Hi")]
      decide
  have hback : ofMessages (messages withEmptyNames) = withEmptyNames := rfl
  exact ⟨hordered, hback, (ofMessages_messages_iff hordered).mp hback⟩

end MessageKeys.Catalog
