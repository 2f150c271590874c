import MessageKeys.Proofs.Catalog.FlatMessages

/-! # Collisions — what building a tree from flat messages loses

    A key that is also the path to others cannot keep its message in a tree: the longer keys
    come later in order and put a group in its place.  That is all a tree loses
    (`longer_keys_win`).

    Flat messages come back from their tree exactly if no two keys are so related, no key lies
    in the schema and none starts with a point (`messages_ofMessages_iff`).  These are the
    messages whose tree is `Regular`, and a regular tree answers flat as it does along paths. -/

namespace MessageKeys.Catalog

variable {c : Catalog} {flat : Messages} {key name text : String} {path : List String}

/-! ## The messages of the tree -/

/-- The message of a key is kept unless another key goes on behind it. -/
theorem nested?_ofMessages : nested? (ofMessages flat) key = some text ↔
    flat.get? key = some text ∧ ∀ more, flat.get? (key ++ "." ++ more) = none := by
  rw [nested?, messageAt?_ofMessages]
  constructor
  · rintro ⟨other, hsegments, hget, hlast⟩
    obtain rfl := Key.segments_injective hsegments
    refine ⟨hget, fun more => Option.eq_none_iff_forall_ne_some.mpr fun value hvalue => ?_⟩
    exact Key.extension_ne other more
      (hlast _ value hvalue (Key.segments_prefix_extension other more))
  · rintro ⟨hget, hlast⟩
    refine ⟨key, rfl, hget, fun other value hother hprefix => ?_⟩
    rcases Key.segments_prefix_iff.mp hprefix with rfl | ⟨more, rfl⟩
    · rfl
    · rw [hlast more] at hother
      cases hother

/-- **LONGER KEYS WIN**: for all flat messages and every key, the tree that is built from them has
    the message of the key along its segments if no key goes on with a point behind it, and none
    otherwise.  Below the tree itself no group is empty, and no name at any level has a point. -/
theorem longer_keys_win (flat : Messages) :
    (∀ key text, nested? (ofMessages flat) key = some text ↔
      flat.get? key = some text ∧ ∀ more, flat.get? (key ++ "." ++ more) = none) ∧
    Full (ofMessages flat) ∧
    ∀ name node, HasEntry (ofMessages flat) name node → '.' ∉ name.toList :=
  ⟨fun _ _ => nested?_ofMessages, full_ofMessages flat, fun _ _ h => (hasEntry_ofMessages h).1⟩

/-! ## Flat again -/

/-- No key goes on behind another one, none lies in the schema and none starts with a point. -/
structure CollisionFree (flat : Messages) : Prop where
  noExtension : ∀ key ∈ flat.keys, ∀ more, key ++ "." ++ more ∉ flat.keys
  noSchema : schemaName ∉ flat.keys
  noSchemaPart : ∀ more, schemaName ++ "." ++ more ∉ flat.keys
  noBarePoint : ∀ more, "." ++ more ∉ flat.keys

theorem get?_eq_none_iff : flat.get? key = none ↔ key ∉ flat.keys := by
  rw [Dictionary.mem_keys_iff, not_exists, Option.eq_none_iff_forall_ne_some]

/-- What stands at the top of the tree is the message of a key of that name, or there is a key
    that goes on behind the name. -/
theorem key_of_top {node : Node} (h : Entries.get? name (ofMessages flat) = some node) :
    (name ∈ flat.keys ∧ ∃ text, node = .message text) ∨
      ∃ more, name ++ "." ++ more ∈ flat.keys := by
  rcases get?_placeAll_eq_some h with ⟨⟨key, text⟩, hmem, hhead, hnode⟩ | hnil
  · have hkey : key ∈ flat.keys := List.mem_map.mpr ⟨_, hmem, rfl⟩
    rcases Key.head?_segments hhead with rfl | ⟨more, rfl⟩
    · exact .inl ⟨hkey, text, hnode (Key.segments_of_head hhead)⟩
    · exact .inr ⟨more, hkey⟩
  · cases hnil

/-- Without collisions the tree is regular. -/
theorem CollisionFree.regular (h : CollisionFree flat) : Regular (ofMessages flat) where
  noSchema := by
    refine Option.eq_none_iff_forall_ne_some.mpr fun node hget => ?_
    rcases key_of_top hget with ⟨hkey, -⟩ | ⟨more, hkey⟩
    · exact h.noSchema hkey
    · exact h.noSchemaPart more hkey
  noPoint _ _ hentry := (hasEntry_ofMessages hentry).1
  noEmpty := full_ofMessages flat
  noBareGroup entries hget := by
    rcases key_of_top hget with ⟨-, text, hnode⟩ | ⟨more, hkey⟩
    · cases hnode
    · exact h.noBarePoint more hkey

/-- No message of a regular catalog lies in the schema. -/
theorem Regular.head_ne_schema (hregular : Regular c) (h : messageAt? c path = some text) :
    path.head? ≠ some schemaName := by
  cases path with
  | nil => rintro ⟨⟩
  | cons name rest =>
      intro he
      rw [messageAt?_cons, Option.some.inj he, hregular.noSchema] at h
      cases h

/-- If the tree is regular and gives the messages back, there are no collisions. -/
theorem Regular.collisionFree (hregular : Regular (ofMessages flat))
    (hback : messages (ofMessages flat) = flat) : CollisionFree flat := by
  have hpath : ∀ key ∈ flat.keys, ∃ text, nested? (ofMessages flat) key = some text := by
    intro key hkey
    obtain ⟨text, hget⟩ := (Dictionary.mem_keys_iff flat key).mp hkey
    rw [← hback] at hget
    exact ⟨text, (hregular.get?_messages (ordered_ofMessages flat)).mp hget⟩
  refine ⟨?_, ?_, ?_, ?_⟩
  · intro key hkey more
    obtain ⟨text, hnested⟩ := hpath key hkey
    exact get?_eq_none_iff.mp ((nested?_ofMessages.mp hnested).2 more)
  · intro hkey
    obtain ⟨text, hnested⟩ := hpath _ hkey
    exact hregular.head_ne_schema hnested rfl
  · intro more hkey
    obtain ⟨text, hnested⟩ := hpath _ hkey
    rw [nested?, Key.segments_extension] at hnested
    exact hregular.head_ne_schema hnested rfl
  · intro more hkey
    obtain ⟨text, hnested⟩ := hpath _ hkey
    have hsegments : Key.segments ("." ++ more) = "" :: Key.segments more :=
      Key.segments_extension "" more
    rw [nested?, hsegments] at hnested
    rcases isProper_of_messageAt? hregular.noBareGroup hnested with hhead | hsingle
    · exact hhead rfl
    · exact Key.segments_ne_nil more (List.cons.inj hsingle).2

/-- **BACK AND FLAT**: for all flat messages, those of their tree are the same exactly if no key is
    another one with a point and whatever it may be behind it, no key is the schema or goes on with
    a point behind it, and no key starts with a point. -/
theorem messages_ofMessages_iff (flat : Messages) :
    messages (ofMessages flat) = flat ↔ CollisionFree flat := by
  have hordered := ordered_ofMessages flat
  constructor
  · intro hback
    exact (regular_of_ofMessages hordered (congrArg ofMessages hback)).collisionFree hback
  · intro hfree
    refine Dictionary.ext_get? fun key => Option.ext fun text => ?_
    have hnested : (messages (ofMessages flat)).get? key = some text ↔
        nested? (ofMessages flat) key = some text := hfree.regular.get?_messages hordered
    rw [hnested, nested?_ofMessages]
    refine and_iff_left_of_imp fun hget more => ?_
    have hkey : key ∈ flat.keys := (Dictionary.mem_keys_iff flat key).mpr ⟨text, hget⟩
    exact get?_eq_none_iff.mpr (hfree.noExtension key hkey more)

end MessageKeys.Catalog
