import MessageKeys.Proofs.Catalog.FlatMessages
import MessageKeys.Proofs.Catalog.InPlace
import MessageKeys.Proofs.Catalog.Move

/-! # Putting things back — removing, inserting and moving undone

    What removing takes out of a catalog, inserting puts back (`insertAt_of_removeAt?`): the groups
    that were dropped on the way are those that are made again.  The other way round a group that
    was empty before would be dropped too, so a new message is taken out without a trace only
    where no group is empty (`removeAt?_of_insertAt`).

    No removal leaves an empty group behind (`emptyGroup_of_removeAt?`), so in such a catalog both
    laws hold again after the first half of a move, and moving a key back restores the catalog
    (`move_back`). -/

namespace MessageKeys.Catalog

variable {c left next : Catalog} {source target name text : String} {path : List String}
  {previous : Option String}

theorem get?_putGroup (name other : String) (entries c : Catalog) :
    Entries.get? other (putGroup name entries c)
      = if name = other then (if entries = [] then none else some (.group entries))
        else Entries.get? other c := by
  cases entries with
  | nil => exact Entries.get?_erase name other c
  | cons e es => exact Entries.get?_insert name other _ c

theorem increasing_putGroup (h : Entries.Increasing c) (name : String) (entries : Catalog) :
    Entries.Increasing (putGroup name entries c) := by
  rw [putGroup]
  split
  · exact h.erase name
  · exact h.insert name _

/-- A changed group goes back in the place where it stood, or nowhere if there was none. -/
theorem putGroup_back {entries d : Catalog} (hc : Entries.Increasing c) (hd : Entries.Increasing d)
    (hother : ∀ other, name ≠ other → Entries.get? other d = Entries.get? other c)
    (hget : Entries.get? name c = if entries = [] then none else some (.group entries)) :
    putGroup name entries d = c := by
  cases entries with
  | nil => exact hc.erase_back hd hother hget
  | cons e es => exact hc.insert_back hd hother hget

/-! ## Inserting what was removed -/

/-- **PUTTING BACK**: what was removed is inserted again where it stood. -/
theorem insertAt_of_removeAt? (hc : Ordered c) (h : removeAt? c path = some (text, left)) :
    insertAt left text path = .ok (none, c) := by
  fun_induction removeAt? c path generalizing left with
  | case1 => cases h
  | case2 c name =>
      obtain ⟨t, ht, he⟩ := Option.map_eq_some_iff.mp h
      cases he
      have hgone : Entries.get? name (Entries.erase name c) = none := by
        rw [Entries.get?_erase, if_pos rfl]
      have hback : Entries.insert name (.message text) (Entries.erase name c) = c := by
        refine hc.1.insert_back (hc.1.erase name) (fun other hne => ?_) (literal?_eq_some.mp ht)
        rw [Entries.get?_erase, if_neg hne]
      refine insertAt_last_eq_ok.mpr ⟨fun entries hget => ?_, ?_, hback.symm⟩
      · rw [hgone] at hget
        cases hget
      · rw [literal?, hgone]
  | case3 c name second rest entries hget ih =>
      obtain ⟨⟨t, inner⟩, hinner, he⟩ := Option.map_eq_some_iff.mp h
      cases he
      have hput := get?_putGroup name name inner c
      rw [if_pos rfl] at hput
      have hbelow : entriesAt (putGroup name inner c) name = inner := by
        rw [entriesAt, hput]
        cases inner <;> rfl
      have hback : Entries.insert name (.group entries) (putGroup name inner c) = c := by
        refine hc.1.insert_back (increasing_putGroup hc.1 name inner) (fun other hne => ?_) hget
        rw [get?_putGroup, if_neg hne]
      refine insertAt_cons_eq_ok.mpr ⟨fun t hmessage => ?_, entries, ?_, hback.symm⟩
      · rw [hput] at hmessage
        split at hmessage <;> cases hmessage
      · rw [hbelow]
        exact ih (hc.node hget) hinner
  | case4 => cases h

/-! ## Removing what was inserted -/

/-- **TAKING BACK**: where no group is empty, a new message is removed without a trace. -/
theorem removeAt?_of_insertAt (hc : Ordered c) (hfull : Full c) (hpath : path ≠ [])
    (hnone : messageAt? c path = none) (h : insertAt c text path = .ok (previous, next)) :
    removeAt? next path = some (text, c) := by
  induction path generalizing c next with
  | nil => exact absurd rfl hpath
  | cons name rest ih =>
      -- at this level the catalog was changed under one name
      have hother : ∀ (node : Node) (other : String), name ≠ other →
          Entries.get? other (Entries.insert name node c) = Entries.get? other c := by
        intro node other hne
        rw [Entries.get?_insert, if_neg hne]
      cases rest with
      | nil =>
          obtain ⟨hgroup, -, rfl⟩ := insertAt_last_eq_ok.mp h
          have hget : Entries.get? name c = none := by
            cases hget : Entries.get? name c with
            | none => rfl
            | some node =>
                cases node with
                | group entries => exact absurd hget (hgroup entries)
                | message t =>
                    rw [messageAt?_cons, hget] at hnone
                    cases hnone
          have hliteral : literal? (Entries.insert name (.message text) c) name = some text := by
            rw [literal?_eq_some, Entries.get?_insert, if_pos rfl]
          rw [removeAt?, hliteral, Option.map_some,
            hc.1.erase_back (hc.1.insert name _) (hother _) hget]
      | cons second rest =>
          obtain ⟨hmessage, entries, hin, rfl⟩ := insertAt_cons_eq_ok.mp h
          rw [← messageAt?_entriesAt hmessage] at hnone
          have hremove : removeAt? entries (second :: rest) = some (text, entriesAt c name) :=
            ih (hc.entriesAt name) (hfull.entriesAt name) (List.cons_ne_nil _ _) hnone hin
          have hget : Entries.get? name c
              = if entriesAt c name = [] then none else some (.group (entriesAt c name)) := by
            rw [Catalog.entriesAt]
            cases hget : Entries.get? name c with
            | none => rfl
            | some node =>
                cases node with
                | message t => exact absurd hget (hmessage t)
                | group es => exact (if_neg (hfull.group (Entries.mem_of_get? hget)).1).symm
          rw [removeAt?, Entries.get?_insert, if_pos rfl]
          show (removeAt? entries (second :: rest)).map _ = _
          rw [hremove]
          show some (text, putGroup name (Catalog.entriesAt c name) _) = _
          rw [putGroup_back hc.1 (hc.1.insert name _) (hother _) hget]

/-! ## Empty groups -/

/-- Entries are the nodes at the ends of paths. -/
theorem exists_nodeAt?_of_hasEntry {node : Node} (hc : Ordered c) (h : HasEntry c name node) :
    ∃ path, path ≠ [] ∧ nodeAt? c path = some node := by
  induction h with
  | @top c name node hmem =>
      exact ⟨[name], List.cons_ne_nil _ _, (nodeAt?_last c name).trans (hc.1.get?_of_mem hmem)⟩
  | @inside c entries group name node hmem hinner ih =>
      have hget := hc.1.get?_of_mem hmem
      obtain ⟨path, -, hnode⟩ := ih (hc.node hget)
      refine ⟨group :: path, List.cons_ne_nil _ _, ?_⟩
      rw [nodeAt?, hget]
      exact hnode

theorem exists_hasEntry_of_nodeAt? {node : Node} (hpath : path ≠ [])
    (h : nodeAt? c path = some node) : ∃ name, HasEntry c name node := by
  induction path generalizing c with
  | nil => exact absurd rfl hpath
  | cons name rest ih =>
      rw [nodeAt?] at h
      split at h
      · next entries hget =>
        cases rest with
        | nil => cases h; exact ⟨name, hasEntry_of_get? hget⟩
        | cons second rest =>
            obtain ⟨inner, hinner⟩ := ih (List.cons_ne_nil _ _) h
            exact ⟨inner, .inside (Entries.mem_of_get? hget) hinner⟩
      · next t hget =>
        split at h
        · cases h; exact ⟨name, hasEntry_of_get? hget⟩
        · cases h
      · cases h

/-- A catalog is full if no path but the empty one leads to an empty group. -/
theorem full_iff (hc : Ordered c) :
    Full c ↔ ∀ path, path ≠ [] → nodeAt? c path ≠ some (.group []) := by
  constructor
  · intro hfull path hpath hnode
    obtain ⟨name, hentry⟩ := exists_hasEntry_of_nodeAt? hpath hnode
    exact hfull name hentry
  · intro hnone name hentry
    obtain ⟨path, hpath, hnode⟩ := exists_nodeAt?_of_hasEntry hc hentry
    exact hnone path hpath hnode

/-- What stands behind a name depends on what stands under it. -/
theorem nodeAt?_congr {d : Catalog} (h : Entries.get? name c = Entries.get? name d)
    (rest : List String) : nodeAt? c (name :: rest) = nodeAt? d (name :: rest) := by
  rw [nodeAt?, h, ← nodeAt?]

/-- **NO EMPTY GROUPS**: an empty group that is there after a removal was there before. -/
theorem emptyGroup_of_removeAt? {other : List String} (h : removeAt? c path = some (text, left))
    (hne : other ≠ []) (hempty : nodeAt? left other = some (.group [])) :
    nodeAt? c other = some (.group []) := by
  obtain ⟨n, tail, rfl⟩ := List.exists_cons_of_ne_nil hne
  fun_induction removeAt? c path generalizing left n tail with
  | case1 => cases h
  | case2 c name =>
      obtain ⟨t, -, he⟩ := Option.map_eq_some_iff.mp h
      cases he
      have hget := Entries.get?_erase name n c
      by_cases hn : name = n
      · rw [nodeAt?, hget, if_pos hn] at hempty
        cases hempty
      · rw [if_neg hn] at hget
        rwa [nodeAt?_congr hget] at hempty
  | case3 c name second rest entries hentries ih =>
      obtain ⟨⟨t, inner⟩, hinner, he⟩ := Option.map_eq_some_iff.mp h
      cases he
      have hget := get?_putGroup name n inner c
      by_cases hn : name = n
      · subst hn
        rw [if_pos rfl] at hget
        rw [nodeAt?, hget] at hempty
        rw [nodeAt?, hentries]
        by_cases hnil : inner = []
        · rw [if_pos hnil] at hempty
          cases hempty
        · rw [if_neg hnil] at hempty
          -- the group itself is not empty, so the empty one is inside of it
          have htail : tail ≠ [] := by
            rintro rfl
            cases hempty
            exact hnil rfl
          obtain ⟨m, more, rfl⟩ := List.exists_cons_of_ne_nil htail
          exact ih hinner m more htail hempty
      · rw [if_neg hn] at hget
        rwa [nodeAt?_congr hget] at hempty
  | case4 => cases h

theorem Full.removeAt? (hfull : Full c) (hc : Ordered c)
    (h : Catalog.removeAt? c path = some (text, left)) : Full left := by
  rw [full_iff (hc.removeAt? h)]
  exact fun other hother hempty =>
    (full_iff hc).mp hfull other hother (emptyGroup_of_removeAt? h hother hempty)

/-! ## Removing and inserting are inverse -/

theorem remove?_fst (c : Catalog) (key : String) : (c.remove? key).map (·.1) = c.nested? key :=
  removeAt?_fst c (Key.segments key)

/-- **REMOVING**: for every catalog and key, removing gives what the key finds along its segments.
    If this is nothing, the catalog is left as it was.  Otherwise the key finds nothing there any
    more, all other keys find what they did, no group has become empty, and inserting the message
    again gives the catalog back.  The other way round, where no group of the catalog is empty, a
    message that was inserted where none was is removed again and gives the catalog back. -/
theorem remove_exact (hc : c.Ordered) (key : String) :
    (c.remove? key).map (·.1) = c.nested? key ∧
    (c.removeInPlace key = match c.remove? key with
      | some (text, left) => (some text, left)
      | none => (none, c)) ∧
    (∀ text left, c.remove? key = some (text, left) →
      left.nested? key = none ∧
        (∀ other, other ≠ key → left.nested? other = c.nested? other) ∧
        (∀ path, path ≠ [] → nodeAt? left path = some (.group []) →
          nodeAt? c path = some (.group [])) ∧
        left.insert key text = .ok (none, c)) ∧
    (c.Full → c.nested? key = none → ∀ text previous next,
      c.insert key text = .ok (previous, next) → next.remove? key = some (text, c)) := by
  refine ⟨remove?_fst c key, removeInPlace_eq hc key, fun text left h => ?_,
    fun hfull hnone text previous next h => ?_⟩
  · have hremoved : removeAt? c (Key.segments key) = some (text, left) := h
    have hpath : ∀ path, messageAt? left path
        = if path = Key.segments key then none else messageAt? c path :=
      messageAt?_removeAt? hremoved
    refine ⟨?_, fun other hother => ?_, fun path => emptyGroup_of_removeAt? hremoved, ?_⟩
    · rw [nested?, hpath, if_pos rfl]
    · rw [nested?, hpath, if_neg fun he => hother (Key.segments_injective he)]
      rfl
    · exact insert_eq_ok.mpr (insertAt_of_removeAt? hc hremoved)
  · exact removeAt?_of_insertAt hc hfull (Key.segments_ne_nil key) hnone (insert_eq_ok.mp h)

/-- A message in a group of its own. -/
def nesting : Catalog := ofMessages (Dictionary.ofList [("keep", "Me"), ("home.hero.cta", "Go")])

/-- Two groups are dropped with the message and made again for it. -/
theorem remove_exact_nesting : nesting.Ordered ∧ nesting.Full ∧
    nesting.remove? "home.hero.cta" = some ("Go", [("keep", .message "Me")]) ∧
    insert [("keep", .message "Me")] "home.hero.cta" "Go" = .ok (none, nesting) ∧
    ∃ next, nesting.insert "home.title" "Home" = .ok (none, next) ∧
      next.remove? "home.title" = some ("Home", nesting) := by
  have hordered : nesting.Ordered := ordered_ofMessages _
  have hfull : nesting.Full := full_ofMessages _
  have hremove : nesting.remove? "home.hero.cta" = some ("Go", [("keep", .message "Me")]) := rfl
  obtain ⟨-, -, hback, -⟩ := remove_exact hordered "home.hero.cta"
  obtain ⟨-, -, -, htaken⟩ := remove_exact hordered "home.title"
  exact ⟨hordered, hfull, hremove, (hback _ _ hremove).2.2.2, _, rfl,
    htaken hfull rfl "Home" none _ rfl⟩

/-! ## Moving back -/

/-- A message that was found along the segments of its key, or whose key has no point, is moved from
    there. -/
theorem pathOf_of_resolve? {place : Place} (hfound : c.resolve? source = some (text, place))
    (honce : ¬ c.IsTwofold source)
    (hplace : Key.isNamespaced source = false ∨ c.nested? source ≠ none) :
    pathOf source place = Key.segments source := by
  cases place with
  | nested => rfl
  | literal =>
      have hliteral : c.literal? source = some text := messageAt?_of_resolve? hfound
      cases hpoint : Key.isNamespaced source with
      | false => exact (one_path_iff.mpr hpoint).symm
      | true =>
          rcases hplace with hno | hnested
          · rw [hpoint] at hno
            cases hno
          · refine absurd ⟨hpoint, ?_, Option.isSome_iff_ne_none.mpr hnested⟩ honce
            rw [hliteral]
            rfl

/-- It is taken out by removing it along the segments. -/
theorem removeAt?_of_resolve? {place : Place} (hfound : c.resolve? source = some (text, place))
    (honce : ¬ c.IsTwofold source)
    (hplace : Key.isNamespaced source = false ∨ c.nested? source ≠ none) :
    removeAt? c (Key.segments source) = some (text, c.takeOut source place) := by
  rw [← pathOf_of_resolve? hfound honce hplace]
  exact removeAt?_takeOut hfound

/-- A moved message stands along the segments of its new key only, if that had no literal name. -/
theorem not_isTwofold_replaced {place : Place} (hfound : c.resolve? source = some (text, place))
    (hinsert : insertAt (c.takeOut source place) text (Key.segments target)
      = .ok (previous, next)) (hnone : c.literal? target = none) : ¬ next.IsTwofold target := by
  rintro ⟨hpoint, hliteral, -⟩
  have hpaths : [target] ≠ Key.segments target := by
    intro he
    rw [one_path_iff.mp he.symm] at hpoint
    cases hpoint
  have hnot : next.literal? target = none := by
    show messageAt? next [target] = none
    rw [messageAt?_replaced hfound hinsert, if_neg hpaths]
    split
    · rfl
    · exact hnone
  rw [hnot] at hliteral
  cases hliteral

/-- **MOVING BACK**: in a catalog without empty groups, take a key whose message stands along its
    segments, or which has no point, and another key that has no message.  If the message is moved
    to the other key, it can be moved back, and the catalog is the same again. -/
theorem move_back (hc : c.Ordered) (hfull : c.Full) (htarget : c.lookup? target = none)
    (hsource : Key.isNamespaced source = false ∨ c.nested? source ≠ none)
    (h : c.move source target = .ok (some (text, next))) :
    next.move target source = .ok (some (text, c)) := by
  obtain ⟨place, hfound, -, ⟨previous, hinsert⟩, hmoved, hgone⟩ := move_eq_some.mp h
  obtain ⟨-, honce⟩ := (lookup?_replaced_source hfound hinsert).mp hgone
  obtain ⟨hliteral, hnested⟩ : c.literal? target = none ∧ c.nested? target = none := by
    rwa [lookup?_eq, Option.or_eq_none_iff] at htarget
  -- both moves go through the catalog without the message
  have htaken : removeAt? c (Key.segments source) = some (text, c.takeOut source place) :=
    removeAt?_of_resolve? hfound honce hsource
  have hbetween : messageAt? (c.takeOut source place) (Key.segments target) = none := by
    rw [messageAt?_takeOut hfound]
    split
    · rfl
    · exact hnested
  have hback : removeAt? next (Key.segments target) = some (text, c.takeOut source place) :=
    removeAt?_of_insertAt (hc.removeAt? htaken) (hfull.removeAt? hc htaken)
      (Key.segments_ne_nil target) hbetween hinsert
  -- the way back finds the message where it was placed
  obtain ⟨⟨found, place'⟩, hresolve, rfl⟩ := Option.map_eq_some_iff.mp hmoved
  have hplaced : next.nested? target ≠ none := by
    rw [nested?, messageAt?_insertAt (Key.segments_ne_nil target) hinsert, if_pos rfl]
    rintro ⟨⟩
  have htaken' : removeAt? next (Key.segments target) = some (found, next.takeOut target place') :=
    removeAt?_of_resolve? hresolve (not_isTwofold_replaced hfound hinsert hliteral) (.inr hplaced)
  have hsame : next.takeOut target place' = c.takeOut source place := by
    rw [hback] at htaken'
    exact (Prod.mk.inj (Option.some.inj htaken')).2.symm
  have hfree : ∀ existing, next.lookup? source = some existing → existing = found := by
    rw [hgone]
    rintro existing ⟨⟩
  have hinsert' : insertAt (next.takeOut target place') found (Key.segments source)
      = .ok (none, c) := by
    rw [hsame]
    exact insertAt_of_removeAt? hc htaken
  have hlookup : c.lookup? source = some found := by
    rw [lookup?, hfound]
    rfl
  exact move_eq_some.mpr ⟨place', hresolve, hfree, ⟨none, hinsert'⟩, hlookup, htarget⟩

/-- A message moved to the name of the group it was alone in, and back. -/
theorem move_back_nesting :
    ∃ next, nesting.move "home.hero.cta" "home.hero" = .ok (some ("Go", next)) ∧
      next.move "home.hero" "home.hero.cta" = .ok (some ("Go", nesting)) :=
  ⟨_, rfl, move_back (ordered_ofMessages _) (full_ofMessages _) rfl (.inr (by decide)) rfl⟩

end MessageKeys.Catalog
