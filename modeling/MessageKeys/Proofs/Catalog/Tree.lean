import MessageKeys.Catalog.Tree

/-! # Paths in catalogs — what removing and inserting do to look-ups

    A catalog is seen through `messageAt?`, the messages along all paths.  One name is looked
    up and the rest of the path is followed from the node there (`messageAt?_cons`), so each
    operation on entries has one equation.

    Removing takes the message of one path away (`messageAt?_removeAt?`) and inserting places
    one (`messageAt?_insertAt`); no other path notices, also where groups are dropped or made
    on the way.  A message can be placed exactly where there is room for it
    (`insertAt_ok_iff`). -/

namespace MessageKeys

/-- The message that a path leads to from a node. -/
def Node.messageAt? : Node → List String → Option String
  | .message text, path => if path = [] then some text else none
  | .group entries, path => Catalog.messageAt? entries path

namespace Catalog

/-! ## Faults told in other words -/

section

variable {ε ε' α : Type} {f : ε → ε'} {x : Except ε α}

theorem mapError_eq_ok {a : α} : x.mapError f = .ok a ↔ x = .ok a := by
  cases x with
  | error e => exact iff_of_false (by rintro ⟨⟩) (by rintro ⟨⟩)
  | ok b =>
      constructor
      · intro h
        cases h
        rfl
      · intro h
        cases h
        rfl

theorem mapError_eq_error {fault : ε'} :
    x.mapError f = .error fault ↔ ∃ e, x = .error e ∧ f e = fault := by
  cases x with
  | error e =>
      constructor
      · intro h
        cases h
        exact ⟨e, rfl, rfl⟩
      · rintro ⟨_, he, rfl⟩
        cases he
        rfl
  | ok a => exact iff_of_false (by rintro ⟨⟩) (by rintro ⟨_, ⟨⟩, -⟩)

end

variable {c left next : Catalog} {name text : String} {path : List String}

/-! ## Looking up -/

theorem literal?_eq_some {key : String} :
    literal? c key = some text ↔ Entries.get? key c = some (.message text) := by
  rw [literal?]
  cases Entries.get? key c with
  | none => simp
  | some node => cases node <;> simp

/-- A path is looked up by its first name, and the rest below what that name has. -/
theorem messageAt?_cons (c : Catalog) (name : String) (rest : List String) :
    messageAt? c (name :: rest) = (Entries.get? name c).bind (·.messageAt? rest) := by
  cases rest with
  | nil =>
      show literal? c name = _
      rw [literal?]
      cases Entries.get? name c with
      | none => rfl
      | some node => cases node <;> rfl
  | cons next rest =>
      rw [messageAt?]
      cases Entries.get? name c with
      | none => rfl
      | some node => cases node <;> rfl

theorem messageAt?_empty (path : List String) : messageAt? [] path = none := by
  cases path with
  | nil => rfl
  | cons name rest => rw [messageAt?_cons]; rfl

/-- Setting an entry changes the look-ups below its name alone. -/
theorem messageAt?_insert (c : Catalog) (name other : String) (node : Node)
    (rest : List String) :
    messageAt? (Entries.insert name node c) (other :: rest)
      = if name = other then node.messageAt? rest else messageAt? c (other :: rest) := by
  rw [messageAt?_cons, Entries.get?_insert, messageAt?_cons]
  split <;> rfl

/-- Taking out an entry empties the look-ups below its name alone. -/
theorem messageAt?_erase (c : Catalog) (name other : String) (rest : List String) :
    messageAt? (Entries.erase name c) (other :: rest)
      = if name = other then none else messageAt? c (other :: rest) := by
  rw [messageAt?_cons, Entries.get?_erase, messageAt?_cons]
  split <;> rfl

/-- A group without entries is as good as none. -/
theorem messageAt?_putGroup (c entries : Catalog) (name other : String)
    (rest : List String) :
    messageAt? (putGroup name entries c) (other :: rest)
      = if name = other then messageAt? entries rest else messageAt? c (other :: rest) := by
  cases entries with
  | nil =>
      show messageAt? (Entries.erase name c) (other :: rest) = _
      rw [messageAt?_erase, messageAt?_empty]
  | cons e es => exact messageAt?_insert c name other _ rest

/-! ## Removing -/

/-- Removing finds what looking up finds. -/
theorem removeAt?_fst (c : Catalog) (path : List String) :
    (removeAt? c path).map (·.1) = messageAt? c path := by
  fun_induction removeAt? c path with
  | case1 => rfl
  | case2 c name =>
      show _ = literal? c name
      rw [Option.map_map]
      exact Option.map_id'
  | case3 c name next rest entries hget ih =>
      rw [messageAt?_cons, hget, Option.map_map]
      exact ih
  | case4 c name next rest hget =>
      rw [messageAt?_cons]
      cases hnode : Entries.get? name c with
      | none => rfl
      | some node =>
          cases node with
          | message text => rfl
          | group entries => exact absurd hnode (hget entries)

/-- **REMOVING**: the message of the path is gone, and every other path leads where it did. -/
theorem messageAt?_removeAt? (h : removeAt? c path = some (text, left)) (other : List String) :
    messageAt? left other = if other = path then none else messageAt? c other := by
  fun_induction removeAt? c path generalizing left other with
  | case1 => cases h
  | case2 c name =>
      obtain ⟨t, ht, he⟩ := Option.map_eq_some_iff.mp h
      cases he
      have hmessage : Entries.get? name c = some (.message text) := literal?_eq_some.mp ht
      cases other with
      | nil => split <;> rfl
      | cons n tail =>
          rw [messageAt?_erase]
          by_cases hn : name = n
          · -- nothing stands behind a message, so no longer path loses one
            subst hn
            rw [if_pos rfl, messageAt?_cons, hmessage]
            cases tail <;> simp [Node.messageAt?]
          · rw [if_neg hn, if_neg fun he => hn (List.cons.inj he).1.symm]
  | case3 c name next rest entries hget ih =>
      obtain ⟨⟨t, inner⟩, hinner, he⟩ := Option.map_eq_some_iff.mp h
      cases he
      cases other with
      | nil => split <;> rfl
      | cons n tail =>
          rw [messageAt?_putGroup]
          by_cases hn : name = n
          · subst hn
            rw [if_pos rfl, ih hinner tail, messageAt?_cons, hget]
            simp only [List.cons.injEq, true_and]
            rfl
          · rw [if_neg hn, if_neg fun he => hn (List.cons.inj he).1.symm]
  | case4 c name next rest hget => cases h

/-! ## Inserting -/

/-- At its last name a path ends at a message or at nothing. -/
theorem insertAt_last_eq_ok {previous : Option String} :
    insertAt c text [name] = .ok (previous, next) ↔
      (∀ entries, Entries.get? name c ≠ some (.group entries)) ∧
        previous = literal? c name ∧ next = Entries.insert name (.message text) c := by
  rw [insertAt, literal?]
  cases Entries.get? name c with
  | none => simp [eq_comm]
  | some node => cases node <;> simp [eq_comm]

/-- The entries that stand under a name, if it is that of a group. -/
def entriesAt (c : Catalog) (name : String) : Catalog :=
  match Entries.get? name c with
  | some (.group entries) => entries
  | _ => []

/-- Before its last name a path goes on in the entries under the name, which must not be
    that of a message. -/
theorem insertAt_cons_eq_ok {second : String} {rest : List String} {previous : Option String} :
    insertAt c text (name :: second :: rest) = .ok (previous, next) ↔
      (∀ t, Entries.get? name c ≠ some (.message t)) ∧
        ∃ entries, insertAt (entriesAt c name) text (second :: rest) = .ok (previous, entries) ∧
          next = Entries.insert name (.group entries) c := by
  have hwithin : ∀ r, insertAt.within name c r = .ok (previous, next) ↔
      ∃ entries, r = .ok (previous, entries) ∧ next = Entries.insert name (.group entries) c := by
    intro r
    cases r with
    | error path => simp [insertAt.within]
    | ok found =>
        obtain ⟨found, entries⟩ := found
        constructor
        · intro h
          cases h
          exact ⟨entries, rfl, rfl⟩
        · rintro ⟨entries', he, rfl⟩
          cases he
          rfl
  rw [insertAt, entriesAt]
  cases Entries.get? name c with
  | none => simp [hwithin]
  | some node => cases node <;> simp [hwithin]

/-- Unless a message stands at the name, its entries answer for all paths through it. -/
theorem messageAt?_entriesAt (h : ∀ t, Entries.get? name c ≠ some (.message t))
    (rest : List String) : messageAt? (entriesAt c name) rest = messageAt? c (name :: rest) := by
  rw [messageAt?_cons, entriesAt]
  cases hget : Entries.get? name c with
  | none => exact messageAt?_empty rest
  | some node =>
      cases node with
      | message t => exact absurd hget (h t)
      | group entries => rfl

/-- **INSERTING**: the path leads to the message, and every other path leads where it did. -/
theorem messageAt?_insertAt {previous : Option String} (hpath : path ≠ [])
    (h : insertAt c text path = .ok (previous, next)) (other : List String) :
    messageAt? next other = if other = path then some text else messageAt? c other := by
  induction path generalizing c next other with
  | nil => exact absurd rfl hpath
  | cons name rest ih =>
      cases rest with
      | nil =>
          obtain ⟨hgroup, -, rfl⟩ := insertAt_last_eq_ok.mp h
          cases other with
          | nil => rfl
          | cons n tail =>
              rw [messageAt?_insert]
              by_cases hn : name = n
              · -- no group stood there, so no longer path led to a message
                subst hn
                rw [if_pos rfl, messageAt?_cons]
                cases hget : Entries.get? name c with
                | none => cases tail <;> simp [Node.messageAt?]
                | some node =>
                    cases node with
                    | message t => cases tail <;> simp [Node.messageAt?]
                    | group entries => exact absurd hget (hgroup entries)
              · rw [if_neg hn, if_neg fun he => hn (List.cons.inj he).1.symm]
      | cons second rest =>
          obtain ⟨hmessage, entries, hin, rfl⟩ := insertAt_cons_eq_ok.mp h
          cases other with
          | nil => rfl
          | cons n tail =>
              rw [messageAt?_insert]
              by_cases hn : name = n
              · subst hn
                rw [if_pos rfl]
                show messageAt? entries tail = _
                rw [ih (List.cons_ne_nil _ _) hin, messageAt?_entriesAt hmessage]
                simp only [List.cons.injEq, true_and]
              · rw [if_neg hn, if_neg fun he => hn (List.cons.inj he).1.symm]

/-! ## Room for a message -/

/-- The node at the end of a path of names; the catalog itself is at the end of none. -/
def nodeAt? (c : Catalog) : List String → Option Node
  | [] => some (.group c)
  | name :: rest =>
    match Entries.get? name c with
    | some (.group entries) => nodeAt? entries rest
    | some (.message text) => if rest = [] then some (.message text) else none
    | none => none

/-- A message can be placed at the end of the path: none stands on the way, and no group at
    the end. -/
structure HasRoom (c : Catalog) (path : List String) : Prop where
  way : ∀ front, front <+: path → front ≠ path → messageAt? c front = none
  place : ∀ entries, nodeAt? c path ≠ some (.group entries)

theorem nodeAt?_entriesAt {rest : List String} (hrest : rest ≠ [])
    (h : ∀ t, Entries.get? name c ≠ some (.message t)) :
    nodeAt? c (name :: rest) = nodeAt? (entriesAt c name) rest := by
  rw [nodeAt?, entriesAt]
  cases hget : Entries.get? name c with
  | none =>
      cases rest with
      | nil => exact absurd rfl hrest
      | cons n rest => rfl
  | some node =>
      cases node with
      | message t => exact absurd hget (h t)
      | group entries => rfl

theorem nodeAt?_last (c : Catalog) (name : String) : nodeAt? c [name] = Entries.get? name c := by
  rw [nodeAt?]
  cases Entries.get? name c with
  | none => rfl
  | some node => cases node <;> rfl

/-- At the last name only a group is in the way. -/
theorem hasRoom_last :
    HasRoom c [name] ↔ ∀ entries, Entries.get? name c ≠ some (.group entries) := by
  constructor
  · intro h entries hget
    exact h.place entries ((nodeAt?_last c name).trans hget)
  · intro h
    refine ⟨?_, fun entries hn => h entries ((nodeAt?_last c name).symm.trans hn)⟩
    intro front hfront hne
    rcases List.prefix_cons_iff.mp hfront with rfl | ⟨rest, rfl, hrest⟩
    · rfl
    · exact absurd (by rw [List.prefix_nil.mp hrest]) hne

/-- Before it, only a message is. -/
theorem hasRoom_cons {rest : List String} (hrest : rest ≠ []) :
    HasRoom c (name :: rest) ↔
      (∀ t, Entries.get? name c ≠ some (.message t)) ∧ HasRoom (entriesAt c name) rest := by
  constructor
  · intro h
    have hmessage : ∀ t, Entries.get? name c ≠ some (.message t) := by
      intro t hget
      have hnone := h.way [name] (List.cons_prefix_cons.mpr ⟨rfl, List.nil_prefix⟩)
        (by simp [hrest.symm])
      rw [messageAt?_cons, hget] at hnone
      cases hnone
    refine ⟨hmessage, ?_, ?_⟩
    · intro front hfront hne
      rw [messageAt?_entriesAt hmessage]
      exact h.way _ (List.cons_prefix_cons.mpr ⟨rfl, hfront⟩) (by simp [hne])
    · intro entries
      rw [← nodeAt?_entriesAt hrest hmessage]
      exact h.place entries
  · rintro ⟨hmessage, h⟩
    refine ⟨?_, ?_⟩
    · intro front hfront hne
      rcases List.prefix_cons_iff.mp hfront with rfl | ⟨tail, rfl, htail⟩
      · rfl
      · rw [← messageAt?_entriesAt hmessage]
        exact h.way tail htail fun he => hne (he ▸ rfl)
    · intro entries
      rw [nodeAt?_entriesAt hrest hmessage]
      exact h.place entries

/-- **ROOM**: inserting succeeds exactly where there is room for the message. -/
theorem insertAt_ok_iff (text : String) (hpath : path ≠ []) :
    (∃ previous next, insertAt c text path = .ok (previous, next)) ↔ HasRoom c path := by
  induction path generalizing c with
  | nil => exact absurd rfl hpath
  | cons name rest ih =>
      cases rest with
      | nil =>
          rw [hasRoom_last]
          constructor
          · rintro ⟨previous, next, h⟩
            exact (insertAt_last_eq_ok.mp h).1
          · intro h
            exact ⟨_, _, insertAt_last_eq_ok.mpr ⟨h, rfl, rfl⟩⟩
      | cons second rest =>
          rw [hasRoom_cons (List.cons_ne_nil _ _), ← ih (List.cons_ne_nil _ _)]
          constructor
          · rintro ⟨previous, next, h⟩
            obtain ⟨hmessage, entries, hin, -⟩ := insertAt_cons_eq_ok.mp h
            exact ⟨hmessage, previous, entries, hin⟩
          · rintro ⟨hmessage, previous, entries, hin⟩
            exact ⟨previous, _, insertAt_cons_eq_ok.mpr ⟨hmessage, entries, hin, rfl⟩⟩

end Catalog

end MessageKeys
