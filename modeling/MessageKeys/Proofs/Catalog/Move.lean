import MessageKeys.Proofs.Catalog.Leaves

/-! # Moving messages — what a move needs and what it changes

    A key names two paths: the one of its segments and the one that has the whole key as its
    only name.  All paths of different keys differ (`pathOf_injective`), so what is removed at
    a path of one key and inserted at a path of another is not seen through any third one.

    `move_exact` says when a move succeeds and that look-ups then differ in the two keys only.
    A look-up stops at a literal name, however, and so does the check that nothing else is in
    the way: `message_lost_iff` says which message a move can overwrite behind such a name. -/

namespace MessageKeys.Catalog

variable {c next : Catalog} {key source target text : String} {place : Place}

/-! ## The paths of a key -/

/-- The path that leads to a key at a place. -/
def pathOf (key : String) : Place → List String
  | .literal => [key]
  | .nested => Key.segments key

theorem join_pathOf (key : String) (place : Place) : Key.join (pathOf key place) = key := by
  cases place with
  | literal =>
      show String.ofList key.toList = key
      exact String.ofList_toList
  | nested => exact Key.join_segments key

/-- No path belongs to two keys. -/
theorem pathOf_injective {k l : String} {p q : Place} (h : pathOf k p = pathOf l q) : k = l := by
  rw [← join_pathOf k p, h, join_pathOf]

/-- A key has one path only exactly if there is no point in it. -/
theorem one_path_iff :
    pathOf key .nested = pathOf key .literal ↔ Key.isNamespaced key = false := by
  show Key.segments key = [key] ↔ _
  constructor
  · intro h
    refine Bool.eq_false_iff.mpr fun hpoint => ?_
    have hmem : key ∈ Key.segments key := by
      rw [h]
      exact List.mem_singleton_self key
    obtain ⟨cs, hcs, he⟩ := List.mem_map.mp hmem
    refine Text.not_mem_of_mem_cut hcs ?_
    rw [← String.toList_ofList (l := cs), he]
    exact List.contains_iff_mem.mp hpoint
  · intro h
    have hpoint : '.' ∉ key.toList := by
      intro hmem
      rw [Key.isNamespaced, List.contains_iff_mem.mpr hmem] at h
      cases h
    rw [Key.segments, Text.split, Text.cut_of_not_mem hpoint]
    show [String.ofList key.toList] = [key]
    rw [String.ofList_toList]

/-! ## Look-ups of keys -/

/-- The message of a key. -/
def lookup? (c : Catalog) (key : String) : Option String := (c.resolve? key).map (·.1)

/-- A key is looked up along its two paths, the literal name first. -/
theorem lookup?_eq (c : Catalog) (key : String) :
    c.lookup? key
      = (messageAt? c (pathOf key .literal)).or (messageAt? c (pathOf key .nested)) := by
  show (resolve? c key).map _ = (literal? c key).or (nested? c key)
  rw [resolve?]
  cases literal? c key with
  | some text => rfl
  | none => cases nested? c key <;> rfl

theorem messageAt?_of_resolve? (h : c.resolve? key = some (text, place)) :
    messageAt? c (pathOf key place) = some text := by
  rw [resolve?] at h
  cases hliteral : literal? c key with
  | some t =>
      rw [hliteral] at h
      cases h
      exact hliteral
  | none =>
      rw [hliteral] at h
      obtain ⟨t, ht, he⟩ := Option.map_eq_some_iff.mp h
      cases he
      exact ht

/-- What is found along the segments has no literal name. -/
theorem literal?_of_resolve?_nested (h : c.resolve? key = some (text, .nested)) :
    literal? c key = none := by
  rw [resolve?] at h
  cases hliteral : literal? c key with
  | none => rfl
  | some t => rw [hliteral] at h; cases h

theorem lookup?_eq_none_iff : c.lookup? key = none ↔ c.resolve? key = none :=
  Option.map_eq_none_iff

/-- What is found at a place is what is taken out there. -/
theorem removeAt?_takeOut (h : c.resolve? key = some (text, place)) :
    removeAt? c (pathOf key place) = some (text, c.takeOut key place) := by
  have hfound := messageAt?_of_resolve? h
  cases place with
  | literal =>
      show (literal? c key).map _ = _
      rw [show literal? c key = some text from hfound]
      rfl
  | nested =>
      show removeAt? c (Key.segments key) = _
      rw [← removeAt?_fst] at hfound
      obtain ⟨⟨t, left⟩, hr, rfl⟩ := Option.map_eq_some_iff.mp hfound
      have hr' : removeAt? c (Key.segments key) = some (t, left) := hr
      rw [takeOut, remove?, hr']
      rfl

theorem messageAt?_takeOut (h : c.resolve? key = some (text, place)) (path : List String) :
    messageAt? (c.takeOut key place) path
      = if path = pathOf key place then none else messageAt? c path :=
  messageAt?_removeAt? (removeAt?_takeOut h) path

/-! ## The steps of a move -/

theorem isTakenByOther_eq_false :
    c.isTakenByOther target text = false ↔
      ∀ existing, c.lookup? target = some existing → existing = text := by
  rw [isTakenByOther, lookup?]
  cases c.resolve? target with
  | none => simp
  | some found => simp

theorem checkMoved_eq_ok :
    c.checkMoved source target text = .ok () ↔
      c.lookup? target = some text ∧ c.lookup? source = none := by
  rw [checkMoved, lookup?, lookup?]
  cases c.resolve? target with
  | none => simp
  | some found =>
      by_cases hsame : found.1 = text
      · cases c.resolve? source <;> simp [hsame]
      · simp [hsame]

theorem insert_eq_ok {previous : Option String} :
    c.insert target text = .ok (previous, next) ↔
      insertAt c text (Key.segments target) = .ok (previous, next) := by
  rw [insert, mapError_eq_ok]

/-- **STEPS**: a move finds a message, finds nothing else under the new key, takes it out,
    places it and checks both keys. -/
theorem move_eq_some :
    c.move source target = .ok (some (text, next)) ↔
      ∃ place, c.resolve? source = some (text, place) ∧
        (∀ existing, c.lookup? target = some existing → existing = text) ∧
        (∃ previous, insertAt (c.takeOut source place) text (Key.segments target)
          = .ok (previous, next)) ∧
        next.lookup? target = some text ∧ next.lookup? source = none := by
  rw [move]
  cases hfound : c.resolve? source with
  | none => simp
  | some found =>
      obtain ⟨t, place⟩ := found
      dsimp only
      constructor
      · intro h
        split at h
        · cases h
        · next hfree =>
          split at h
          · cases h
          · next previous after hinsert =>
            split at h
            · cases h
            · next hchecked =>
              cases h
              exact ⟨place, rfl, isTakenByOther_eq_false.mp (Bool.eq_false_iff.mpr hfree),
                ⟨previous, insert_eq_ok.mp hinsert⟩, checkMoved_eq_ok.mp hchecked⟩
      · rintro ⟨place', he, hfree, ⟨previous, hinsert⟩, hchecked⟩
        cases he
        rw [if_neg (Bool.eq_false_iff.mp (isTakenByOther_eq_false.mpr hfree)),
          insert_eq_ok.mpr hinsert]
        dsimp only
        rw [checkMoved_eq_ok.mpr hchecked]

/-- A move keeps an ordered catalog ordered. -/
theorem Ordered.move (h : c.Ordered) (hmove : c.move source target = .ok (some (text, next))) :
    next.Ordered := by
  obtain ⟨place, hfound, -, ⟨previous, hinsert⟩, -⟩ := move_eq_some.mp hmove
  exact (h.removeAt? (removeAt?_takeOut hfound)).insertAt hinsert

theorem move_eq_none : c.move source target = .ok none ↔ c.lookup? source = none := by
  rw [move, lookup?_eq_none_iff]
  cases c.resolve? source with
  | none => simp
  | some found =>
      dsimp only
      refine iff_of_false ?_ (by simp)
      repeat' split
      all_goals simp

/-! ## The catalog after a move -/

variable {previous : Option String}

/-- The message was taken from one path and placed at another; all other paths lead where
    they did. -/
theorem messageAt?_replaced (hfound : c.resolve? source = some (text, place))
    (hinsert : insertAt (c.takeOut source place) text (Key.segments target)
      = .ok (previous, next)) (path : List String) :
    messageAt? next path
      = if path = Key.segments target then some text
        else if path = pathOf source place then none else messageAt? c path := by
  rw [messageAt?_insertAt (Key.segments_ne_nil target) hinsert, messageAt?_takeOut hfound]

/-- Paths of other keys are neither the one nor the other. -/
theorem lookup?_replaced_other (hfound : c.resolve? source = some (text, place))
    (hinsert : insertAt (c.takeOut source place) text (Key.segments target)
      = .ok (previous, next)) (hsource : key ≠ source) (htarget : key ≠ target) :
    next.lookup? key = c.lookup? key := by
  have hpath : ∀ p, messageAt? next (pathOf key p) = messageAt? c (pathOf key p) := by
    intro p
    have ht : pathOf key p ≠ Key.segments target :=
      fun he => htarget (pathOf_injective (q := .nested) he)
    have hs : pathOf key p ≠ pathOf source place := fun he => hsource (pathOf_injective he)
    rw [messageAt?_replaced hfound hinsert, if_neg ht, if_neg hs]
  rw [lookup?_eq, lookup?_eq, hpath, hpath]

/-- The new key has the message, unless its literal name had another one. -/
theorem lookup?_replaced_target (hfound : c.resolve? source = some (text, place))
    (hinsert : insertAt (c.takeOut source place) text (Key.segments target)
      = .ok (previous, next)) (hne : source ≠ target)
    (hagrees : ∀ existing, c.lookup? target = some existing → existing = text) :
    next.lookup? target = some text := by
  have hnested : messageAt? next (pathOf target .nested) = some text := by
    rw [messageAt?_replaced hfound hinsert]
    exact if_pos rfl
  have hliteral : messageAt? next (pathOf target .literal) = some text ∨
      messageAt? next (pathOf target .literal) = messageAt? c (pathOf target .literal) := by
    rw [messageAt?_replaced hfound hinsert]
    split
    · exact Or.inl rfl
    · exact Or.inr (if_neg fun he => hne (pathOf_injective he).symm)
  rw [lookup?_eq, hnested]
  rcases hliteral with h | h
  · rw [h]
    rfl
  · rw [h]
    cases hc : messageAt? c (pathOf target .literal) with
    | none => rfl
    | some existing =>
        have hsame : existing = text := by
          refine hagrees existing ?_
          rw [lookup?_eq, hc]
          rfl
        rw [hsame]
        rfl

/-- The key stands in the catalog twice: as a literal name with a point in it, and along its
    segments. -/
def IsTwofold (c : Catalog) (key : String) : Prop :=
  Key.isNamespaced key = true ∧ (c.literal? key).isSome = true ∧ (c.nested? key).isSome = true

/-- The old key has no message any more exactly if it was not the new one and stood in one
    place only. -/
theorem lookup?_replaced_source (hfound : c.resolve? source = some (text, place))
    (hinsert : insertAt (c.takeOut source place) text (Key.segments target)
      = .ok (previous, next)) :
    next.lookup? source = none ↔ source ≠ target ∧ ¬ c.IsTwofold source := by
  by_cases hne : source = target
  · -- the message is found where it was placed
    subst hne
    have hnested : messageAt? next (pathOf source .nested) = some text := by
      rw [messageAt?_replaced hfound hinsert]
      exact if_pos rfl
    rw [lookup?_eq, hnested]
    simp
  · have hpath : ∀ p, messageAt? next (pathOf source p)
        = if pathOf source p = pathOf source place then none
          else messageAt? c (pathOf source p) := by
      intro p
      rw [messageAt?_replaced hfound hinsert]
      exact if_neg fun he => hne (pathOf_injective (q := .nested) he)
    rw [lookup?_eq, Option.or_eq_none_iff, hpath, hpath, IsTwofold]
    cases place with
    | literal =>
        have hliteral : literal? c source = some text := messageAt?_of_resolve? hfound
        rw [if_pos rfl, hliteral]
        cases hpoint : Key.isNamespaced source with
        | false =>
            rw [if_pos (one_path_iff.mpr hpoint)]
            simp [hne]
        | true =>
            have htwo : pathOf source .nested ≠ pathOf source .literal := by
              intro he
              rw [one_path_iff.mp he] at hpoint
              cases hpoint
            rw [if_neg htwo]
            show _ ∧ nested? c source = none ↔ _
            simp [hne]
    | nested =>
        have hliteral : messageAt? c (pathOf source .literal) = none :=
          literal?_of_resolve?_nested hfound
        have hnone : literal? c source = none := hliteral
        rw [if_pos rfl, hliteral, hnone]
        simp [hne]

/-! ## When a move succeeds -/

/-- What a move needs: the key is found and is another one than the new key, its message
    stands in one place, the new key has no other message, and there is room for it once the
    message was taken out. -/
structure CanMove (c : Catalog) (source target text : String) (place : Place) : Prop where
  found : c.resolve? source = some (text, place)
  differ : source ≠ target
  once : ¬ c.IsTwofold source
  agrees : ∀ existing, c.lookup? target = some existing → existing = text
  room : (c.takeOut source place).HasRoom (Key.segments target)

theorem exists_move_iff :
    (∃ next, c.move source target = .ok (some (text, next))) ↔
      ∃ place, c.CanMove source target text place := by
  constructor
  · rintro ⟨next, h⟩
    obtain ⟨place, hfound, hagrees, ⟨previous, hinsert⟩, -, hgone⟩ := move_eq_some.mp h
    obtain ⟨hdiffer, honce⟩ := (lookup?_replaced_source hfound hinsert).mp hgone
    have hroom : (c.takeOut source place).HasRoom (Key.segments target) :=
      (insertAt_ok_iff text (Key.segments_ne_nil target)).mp ⟨previous, next, hinsert⟩
    exact ⟨place, hfound, hdiffer, honce, hagrees, hroom⟩
  · rintro ⟨place, h⟩
    obtain ⟨previous, next, hinsert⟩ :=
      (insertAt_ok_iff text (Key.segments_ne_nil target)).mpr h.room
    refine ⟨next, move_eq_some.mpr ⟨place, h.found, h.agrees, ⟨previous, hinsert⟩, ?_, ?_⟩⟩
    · exact lookup?_replaced_target h.found hinsert h.differ h.agrees
    · exact (lookup?_replaced_source h.found hinsert).mpr ⟨h.differ, h.once⟩

/-- The catalog that a move leaves: the new one if it succeeded. -/
def afterMove (c : Catalog) (source target : String) : Catalog :=
  match c.move source target with
  | .ok (some (_, next)) => next
  | .ok none => c
  | .error _ => c

/-- **MOVING**: a move gives nothing exactly if the key has no message, and succeeds exactly
    if it can.  If it does not succeed, the catalog stays as it was.  If it does, the new key
    has the message, the old one has none, and all other keys have what they had. -/
theorem move_exact (c : Catalog) (source target : String) :
    (c.move source target = .ok none ↔ c.lookup? source = none) ∧
      (∀ text, (∃ next, c.move source target = .ok (some (text, next))) ↔
        ∃ place, c.CanMove source target text place) ∧
      ((∃ fault, c.move source target = .error fault) ↔
        c.lookup? source ≠ none ∧ ¬ ∃ text place, c.CanMove source target text place) ∧
      ((∃ text next, c.move source target = .ok (some (text, next))) ∨
        c.afterMove source target = c) ∧
      ∀ text next, c.move source target = .ok (some (text, next)) →
        c.afterMove source target = next ∧ next.lookup? target = some text ∧
          next.lookup? source = none ∧
          ∀ key, key ≠ source → key ≠ target → next.lookup? key = c.lookup? key := by
  refine ⟨move_eq_none, fun text => exists_move_iff, ?_, ?_, ?_⟩
  · -- what gives neither nothing nor a catalog is an error
    have hnone : c.lookup? source ≠ none ↔ c.move source target ≠ .ok none :=
      not_congr move_eq_none.symm
    have hmove : (∃ text place, c.CanMove source target text place) ↔
        ∃ text next, c.move source target = .ok (some (text, next)) :=
      exists_congr fun text => exists_move_iff.symm
    rw [hnone, hmove]
    cases c.move source target with
    | error fault => simp
    | ok moved =>
        cases moved with
        | none => simp
        | some found => simp [Prod.ext_iff]
  · rw [afterMove]
    cases c.move source target with
    | error fault => exact Or.inr rfl
    | ok moved =>
        cases moved with
        | none => exact Or.inr rfl
        | some found => exact Or.inl ⟨found.1, found.2, rfl⟩
  · intro text next h
    obtain ⟨place, hfound, -, ⟨previous, hinsert⟩, htarget, hsource⟩ := move_eq_some.mp h
    refine ⟨?_, htarget, hsource, fun key => lookup?_replaced_other hfound hinsert⟩
    rw [afterMove, h]

/-- A literal name with a point, moved below itself. -/
theorem move_exact_sample :
    ∃ next, move [("home", .group [("title", .message "Title")]), ("home.hi", .message "Hi")]
        "home.hi" "home.hi.now" = .ok (some ("Hi", next)) ∧
      next.lookup? "home.hi.now" = some "Hi" ∧ next.lookup? "home.hi" = none ∧
      next.lookup? "home.title" = some "Title" := by
  obtain ⟨-, -, -, -, hmoved⟩ := move_exact
    [("home", .group [("title", .message "Title")]), ("home.hi", .message "Hi")]
    "home.hi" "home.hi.now"
  obtain ⟨-, htarget, hsource, hother⟩ := hmoved "Hi"
    [("home", .group [("hi", .group [("now", .message "Hi")]), ("title", .message "Title")])] rfl
  exact ⟨_, rfl, htarget, hsource, hother "home.title" (by decide) (by decide)⟩

/-! ## Messages that are lost -/

/-- **LOST MESSAGES**: the leaves after a move are those before it, without that of the old key
    and with that of the new one.  Another message is lost exactly if it stood along the
    segments of the new key, behind a literal name that has the moved message already. -/
theorem message_lost_iff (hc : c.Ordered)
    (h : c.move source target = .ok (some (text, next))) :
    next.Ordered ∧
      (∃ place, c.resolve? source = some (text, place) ∧ ∀ path message,
        (path, message) ∈ next.leaves ↔
          (path = Key.segments target ∧ message = text) ∨
            ((path, message) ∈ c.leaves ∧ path ≠ pathOf source place ∧
              path ≠ Key.segments target)) ∧
      ((∃ path message, message ≠ text ∧ (path, message) ∈ c.leaves ∧
          (path, message) ∉ next.leaves) ↔
        c.literal? target = some text ∧
          ∃ message, message ≠ text ∧ (Key.segments target, message) ∈ c.leaves) := by
  obtain ⟨place, hfound, hagrees, ⟨previous, hinsert⟩, -, -⟩ := move_eq_some.mp h
  have htaken : (c.takeOut source place).Ordered := hc.removeAt? (removeAt?_takeOut hfound)
  have hnext : next.Ordered := htaken.insertAt hinsert
  have hleaves : ∀ path message, (path, message) ∈ next.leaves ↔
      (path = Key.segments target ∧ message = text) ∨
        ((path, message) ∈ c.leaves ∧ path ≠ pathOf source place ∧
          path ≠ Key.segments target) := by
    intro path message
    rw [mem_leaves_iff hnext, mem_leaves_iff hc, messageAt?_replaced hfound hinsert]
    by_cases ht : path = Key.segments target
    · subst ht
      simp [eq_comm]
    · by_cases hs : path = pathOf source place
      · subst hs
        simp [ht]
      · simp [ht, hs]
  refine ⟨hnext, ⟨place, hfound, hleaves⟩, ?_⟩
  constructor
  · rintro ⟨path, message, hne, hmem, hlost⟩
    have hmessage : messageAt? c path = some message := (mem_leaves_iff hc).mp hmem
    -- the moved message is not another one, so the path is that of the new key
    have hsource : path ≠ pathOf source place := by
      rintro rfl
      rw [messageAt?_of_resolve? hfound] at hmessage
      exact hne (Option.some.inj hmessage).symm
    have htarget : path = Key.segments target := Classical.byContradiction fun ht =>
      hlost ((hleaves path message).mpr (Or.inr ⟨hmem, hsource, ht⟩))
    subst htarget
    have hlookup : c.lookup? target = (literal? c target).or (some message) := by
      rw [lookup?_eq]
      exact congrArg _ hmessage
    refine ⟨?_, message, hne, hmem⟩
    cases hliteral : literal? c target with
    | none =>
        rw [hliteral] at hlookup
        exact absurd (hagrees message hlookup) hne
    | some existing =>
        rw [hliteral] at hlookup
        rw [hagrees existing hlookup]
  · rintro ⟨hliteral, message, hne, hmem⟩
    refine ⟨Key.segments target, message, hne, hmem, ?_⟩
    rw [hleaves]
    rintro (⟨-, rfl⟩ | ⟨-, -, hpath⟩)
    · exact hne rfl
    · exact hpath rfl

/-- A key that stands in a catalog twice, with two messages. -/
def shadowing : Catalog :=
  [("home", .group [("hi", .message "Other")]), ("home.hi", .message "Hi"),
    ("welcome", .message "Hi")]

theorem shadowing_ordered : shadowing.Ordered := by
  refine ⟨?_, ⟨List.pairwise_singleton _ _, trivial, trivial⟩, trivial, trivial, trivial⟩
  show List.Pairwise (fun a b : String × Node => a.1 < b.1) shadowing
  decide

/-- The literal name has the moved message, so the one along the segments goes unnoticed. -/
theorem message_lost_sample :
    ∃ path message next, shadowing.move "welcome" "home.hi" = .ok (some ("Hi", next)) ∧
      message ≠ "Hi" ∧ (path, message) ∈ shadowing.leaves ∧ (path, message) ∉ next.leaves := by
  have hmove : shadowing.move "welcome" "home.hi" = .ok (some ("Hi",
      [("home", .group [("hi", .message "Hi")]), ("home.hi", .message "Hi")])) := rfl
  have hother : (Key.segments "home.hi", "Other") ∈ shadowing.leaves := by
    rw [mem_leaves_iff shadowing_ordered]
    rfl
  obtain ⟨-, -, hlost⟩ := message_lost_iff shadowing_ordered hmove
  obtain ⟨path, message, hne, hmem, hgone⟩ := hlost.mpr ⟨rfl, "Other", by decide, hother⟩
  exact ⟨path, message, _, hmove, hne, hmem, hgone⟩

end MessageKeys.Catalog
