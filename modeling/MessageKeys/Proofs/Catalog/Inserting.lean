import MessageKeys.Proofs.Catalog.InPlace
import MessageKeys.Proofs.Catalog.Move

/-! # Inserting — what is in the way and what is changed

    In the way of a message is another one before the end of its path, or a group at the end
    (`InTheWay`).  This is what the check finds (`obstacle?_eq_some_iff`), so inserting fails exactly
    if there is such a node, and tells the path that leads to it.  Otherwise no other key finds
    anything else than before (`insert_exact`). -/

namespace MessageKeys.Catalog

variable {c next : Catalog} {key name text : String} {path front : List String}

/-! ## What is in the way -/

/-- The path leads to a node in the way of a message at the end of the other one: to a message
    before the end, or to a group at the end. -/
def InTheWay (c : Catalog) (path front : List String) : Prop :=
  front <+: path ∧
    ((front ≠ path ∧ ∃ t, messageAt? c front = some t) ∨
      (front = path ∧ ∃ entries, nodeAt? c front = some (.group entries)))

/-- At the last name only a group is in the way. -/
theorem inTheWay_last :
    InTheWay c [name] front ↔
      front = [name] ∧ ∃ entries, Entries.get? name c = some (.group entries) := by
  constructor
  · rintro ⟨hfront, ⟨hne, t, ht⟩ | ⟨rfl, entries, hgroup⟩⟩
    · -- nothing but the empty path stands before a single name
      rcases List.prefix_cons_iff.mp hfront with rfl | ⟨tail, rfl, htail⟩
      · cases ht
      · exact absurd (by rw [List.prefix_nil.mp htail]) hne
    · exact ⟨rfl, entries, (nodeAt?_last c name).symm.trans hgroup⟩
  · rintro ⟨rfl, entries, hget⟩
    exact ⟨List.prefix_rfl, .inr ⟨rfl, entries, (nodeAt?_last c name).trans hget⟩⟩

/-- Before it, a message is; below a group, what is in the way there. -/
theorem inTheWay_cons {second : String} {rest : List String} :
    InTheWay c (name :: second :: rest) front ↔
      (front = [name] ∧ ∃ t, Entries.get? name c = some (.message t)) ∨
        (∀ t, Entries.get? name c ≠ some (.message t)) ∧
          ∃ tail, front = name :: tail ∧ InTheWay (entriesAt c name) (second :: rest) tail := by
  constructor
  · rintro ⟨hfront, h⟩
    rcases List.prefix_cons_iff.mp hfront with rfl | ⟨tail, rfl, htail⟩
    · -- the catalog itself is no message and not at the end
      rcases h with ⟨-, t, ht⟩ | ⟨he, -⟩
      · cases ht
      · cases he
    · by_cases hmessage : ∃ t, Entries.get? name c = some (.message t)
      · obtain ⟨t, hget⟩ := hmessage
        rcases h with ⟨-, t', ht⟩ | ⟨he, entries, hgroup⟩
        · rw [messageAt?_cons, hget] at ht
          have htail : (if tail = [] then some t else none) = some t' := ht
          split at htail
          · next hnil => exact .inl ⟨by rw [hnil], t, hget⟩
          · cases htail
        · rw [(List.cons.inj he).2, nodeAt?, hget] at hgroup
          cases hgroup
      · have hno : ∀ t, Entries.get? name c ≠ some (.message t) :=
          fun t hget => hmessage ⟨t, hget⟩
        refine .inr ⟨hno, tail, rfl, htail, ?_⟩
        rcases h with ⟨hne, t, ht⟩ | ⟨he, entries, hgroup⟩
        · refine .inl ⟨fun he => hne (by rw [he]), t, ?_⟩
          rw [messageAt?_entriesAt hno]
          exact ht
        · obtain rfl := (List.cons.inj he).2
          refine .inr ⟨rfl, entries, ?_⟩
          rw [← nodeAt?_entriesAt (List.cons_ne_nil _ _) hno]
          exact hgroup
  · rintro (⟨rfl, t, hget⟩ | ⟨hno, tail, rfl, htail, h⟩)
    · refine ⟨List.cons_prefix_cons.mpr ⟨rfl, List.nil_prefix⟩, .inl ⟨by simp, t, ?_⟩⟩
      rw [messageAt?_cons, hget]
      rfl
    · refine ⟨List.cons_prefix_cons.mpr ⟨rfl, htail⟩, ?_⟩
      rcases h with ⟨hne, t, ht⟩ | ⟨rfl, entries, hgroup⟩
      · refine .inl ⟨fun he => hne (List.cons.inj he).2, t, ?_⟩
        rw [← messageAt?_entriesAt hno]
        exact ht
      · refine .inr ⟨rfl, entries, ?_⟩
        rw [nodeAt?_entriesAt (List.cons_ne_nil _ _) hno]
        exact hgroup

/-- The check finds exactly what is in the way. -/
theorem obstacle?_eq_some_iff (hpath : path ≠ []) :
    obstacle? c path = some front ↔ InTheWay c path front := by
  induction path generalizing c front with
  | nil => exact absurd rfl hpath
  | cons name rest ih =>
      cases rest with
      | nil =>
          rw [inTheWay_last, obstacle?]
          cases Entries.get? name c with
          | none => simp
          | some node => cases node <;> simp [eq_comm]
      | cons second rest =>
          have hbelow : (obstacle? (entriesAt c name) (second :: rest)).map (name :: ·) = some front ↔
              ∃ tail, front = name :: tail ∧ InTheWay (entriesAt c name) (second :: rest) tail := by
            rw [Option.map_eq_some_iff]
            refine exists_congr fun tail => ?_
            rw [ih (List.cons_ne_nil _ _), and_comm, eq_comm]
          rw [inTheWay_cons, obstacle?_cons]
          split
          · next t hget => simp [hget, eq_comm]
          · next hno =>
            rw [hbelow]
            have hmessage : ∀ t, Entries.get? name c ≠ some (.message t) := hno
            simp [hmessage]

/-- Inserting fails exactly where something is in the way. -/
theorem insertAt_eq_error (hpath : path ≠ []) :
    insertAt c text path = .error front ↔ InTheWay c path front := by
  rw [← obstacle?_eq_some_iff hpath]
  refine ⟨fun h => ?_, insertAt_of_obstacle⟩
  cases hfound : obstacle? c path with
  | some found =>
      rw [insertAt_of_obstacle hfound] at h
      cases h
      rfl
  | none =>
      obtain ⟨previous, next, hinsert, -⟩ := writeAt_of_no_obstacle text hfound
      rw [hinsert] at h
      cases h

/-- An insertion fails where something is in the way, and names its path. -/
theorem insert_eq_error {blocking : String} :
    c.insert key text = .error blocking ↔
      ∃ front, InTheWay c (Key.segments key) front ∧ blocking = Key.join front := by
  rw [insert, mapError_eq_error]
  refine exists_congr fun front => ?_
  rw [insertAt_eq_error (Key.segments_ne_nil key), eq_comm (a := blocking)]

/-! ## What inserting changes -/

/-- What an insertion replaces is the message that was there. -/
theorem insertAt_fst {previous : Option String} (hpath : path ≠ [])
    (h : insertAt c text path = .ok (previous, next)) : previous = messageAt? c path := by
  induction path generalizing c next with
  | nil => exact absurd rfl hpath
  | cons name rest ih =>
      cases rest with
      | nil => exact (insertAt_last_eq_ok.mp h).2.1
      | cons second rest =>
          obtain ⟨hmessage, entries, hin, -⟩ := insertAt_cons_eq_ok.mp h
          rw [ih (List.cons_ne_nil _ _) hin, messageAt?_entriesAt hmessage]

/-- **INSERTING**: for every catalog, key and text, inserting fails exactly if a proper beginning of
    the key's segments leads to a message, or all of them lead to a group; the fault names this
    node.  Otherwise it gives what the key found before along its segments, where it then finds the
    text; all other keys find along their segments what they did, and so do all literal names but
    that of a key without a point.  In place, a catalog is left as it was by a fault. -/
theorem insert_exact (c : Catalog) (key text : String) :
    (∀ blocking, c.insert key text = .error blocking ↔
      ∃ front, InTheWay c (Key.segments key) front ∧ blocking = Key.join front) ∧
    (∀ previous next, c.insert key text = .ok (previous, next) →
      previous = c.nested? key ∧ next.nested? key = some text ∧
        (∀ other, other ≠ key → next.nested? other = c.nested? other) ∧
        ∀ name, (name = key → Key.isNamespaced key = true) → next.literal? name = c.literal? name) ∧
    c.insertInPlace key text
      = match c.insert key text with
        | .ok (previous, next) => (.ok previous, next)
        | .error blocking => (.error blocking, c) := by
  refine ⟨fun blocking => insert_eq_error, fun previous next h => ?_, insertInPlace_eq c key text⟩
  have hinsert : insertAt c text (Key.segments key) = .ok (previous, next) := insert_eq_ok.mp h
  have hpath : ∀ path, messageAt? next path
      = if path = Key.segments key then some text else messageAt? c path :=
    messageAt?_insertAt (Key.segments_ne_nil key) hinsert
  refine ⟨insertAt_fst (Key.segments_ne_nil key) hinsert, ?_, fun other hother => ?_,
    fun name hname => ?_⟩
  · rw [nested?, hpath, if_pos rfl]
  · rw [nested?, hpath, if_neg fun he => hother (Key.segments_injective he)]
    rfl
  · -- a literal name is a path of one segment, as that of a key without a point
    have hne : [name] ≠ Key.segments key := by
      intro he
      obtain rfl : name = key := pathOf_injective (p := .literal) (q := .nested) he
      have hpoint := one_path_iff.mp he.symm
      rw [hname rfl] at hpoint
      cases hpoint
    show messageAt? next [name] = messageAt? c [name]
    rw [hpath, if_neg hne]

end MessageKeys.Catalog
