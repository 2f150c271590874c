import MessageKeys.Catalog.Messages
import MessageKeys.Proofs.Catalog.Leaves

/-! # Placing messages — a catalog built from paths

    Placing a message makes room for it: a message on the way gives way to a group, and a
    group at the end to the message.  So of the messages that were there, those are lost whose
    path is the beginning of the new one or begins with it (`messageAt?_placeAt`).

    What stands in a catalog at any level are its entries (`HasEntry`).  Placing adds none but
    those of the names on the path (`HasEntry.of_placeAt`), and no group without entries.
    Without such groups a catalog is known by its messages (`ext_messageAt?`). -/

namespace MessageKeys.Catalog

variable {c d : Catalog} {name text : String} {path : List String}

/-! ## Entries at all levels -/

/-- The entry stands in the catalog or in one of its groups. -/
inductive HasEntry : Catalog → String → Node → Prop where
  | top {c : Catalog} {name : String} {node : Node} : (name, node) ∈ c → HasEntry c name node
  | inside {c entries : Catalog} {group name : String} {node : Node} :
      (group, .group entries) ∈ c → HasEntry entries name node → HasEntry c name node

/-- No group below the catalog itself is without entries. -/
def Full (c : Catalog) : Prop := ∀ name, ¬ HasEntry c name (.group [])

theorem not_hasEntry_nil {node : Node} : ¬ HasEntry [] name node := by
  rintro (h | ⟨h, -⟩)
  · cases h
  · cases h

theorem hasEntry_of_get? {node : Node} (h : Entries.get? name c = some node) :
    HasEntry c name node :=
  .top (Entries.mem_of_get? h)

/-- A group of a full catalog has entries and is full itself. -/
theorem Full.group (h : Full c) {entries : Catalog} (hmem : (name, .group entries) ∈ c) :
    entries ≠ [] ∧ Full entries := by
  refine ⟨?_, fun inner hinner => h inner (.inside hmem hinner)⟩
  rintro rfl
  exact h name (.top hmem)

/-- Below a name a full catalog is full. -/
theorem Full.entriesAt (h : Full c) (name : String) : Full (Catalog.entriesAt c name) := by
  rw [Catalog.entriesAt]
  split
  · next entries hget => exact (h.group (Entries.mem_of_get? hget)).2
  · exact fun _ => not_hasEntry_nil

/-- The names on the way to a message are names of entries. -/
theorem exists_hasEntry (h : messageAt? c path = some text) :
    ∀ name ∈ path, ∃ node, HasEntry c name node := by
  induction path generalizing c with
  | nil => exact fun _ hmem => absurd hmem List.not_mem_nil
  | cons first rest ih =>
      rw [messageAt?_cons, Option.bind_eq_some_iff] at h
      obtain ⟨node, hget, hnode⟩ := h
      intro name hmem
      rcases List.mem_cons.mp hmem with rfl | hmem
      · exact ⟨node, hasEntry_of_get? hget⟩
      · cases node with
        | message t =>
            rw [Node.messageAt?] at hnode
            split at hnode
            · next hnil =>
              rw [hnil] at hmem
              cases hmem
            · cases hnode
        | group entries =>
            obtain ⟨other, hother⟩ := ih hnode name hmem
            exact ⟨other, .inside (Entries.mem_of_get? hget) hother⟩

/-! ## Catalogs by their messages -/

private theorem sizeOf_group_lt {entries : Catalog} (h : (name, .group entries) ∈ c) :
    sizeOf entries < sizeOf c := by
  have hlt := List.sizeOf_lt_of_mem h
  simp only [Prod.mk.sizeOf_spec, Node.group.sizeOf_spec] at hlt
  omega

/-- Among entries there is a message, if no group of them is empty. -/
theorem exists_messageAt? {c : Catalog} (hfull : Full c) (hne : c ≠ []) :
    ∃ path text, messageAt? c path = some text := by
  obtain ⟨⟨name, node⟩, rest, hc⟩ := List.exists_cons_of_ne_nil hne
  have hmem : (name, node) ∈ c := hc ▸ List.mem_cons_self
  have hget : Entries.get? name c = some node := by
    rw [hc, Entries.get?, if_pos rfl]
  cases node with
  | message t =>
      refine ⟨[name], t, ?_⟩
      rw [messageAt?_cons, hget]
      rfl
  | group entries =>
      obtain ⟨hentriesNe, hentries⟩ := hfull.group hmem
      obtain ⟨path, text, hpath⟩ := exists_messageAt? hentries hentriesNe
      refine ⟨name :: path, text, ?_⟩
      rw [messageAt?_cons, hget]
      exact hpath
termination_by sizeOf c
decreasing_by exact sizeOf_group_lt hmem

/-- Nothing stands behind a message. -/
theorem eq_nil_of_messageAt?_append {t : String} {more : List String}
    (h : messageAt? c path = some text) (hmore : messageAt? c (path ++ more) = some t) :
    more = [] := by
  induction path generalizing c with
  | nil => cases h
  | cons name rest ih =>
      rw [messageAt?_cons, Option.bind_eq_some_iff] at h
      obtain ⟨node, hget, hnode⟩ := h
      rw [List.cons_append, messageAt?_cons, hget] at hmore
      cases node with
      | message s =>
          have hsome : (if rest ++ more = [] then some s else none) = some t := hmore
          split at hsome
          · next hnil => exact (List.append_eq_nil_iff.mp hnil).2
          · cases hsome
      | group entries => exact ih hnode hmore

/-- What stands under a name of a full catalog, as it is seen through the messages. -/
private theorem get?_eq_group (h : ∀ path, messageAt? c path = messageAt? d path)
    {entries : Catalog} (hget : Entries.get? name c = some (.group entries)) (hfull : Full c) :
    ∃ entries', Entries.get? name d = some (.group entries') ∧
      ∀ path, messageAt? entries path = messageAt? entries' path := by
  obtain ⟨hne, hentries⟩ := hfull.group (Entries.mem_of_get? hget)
  obtain ⟨path, t, hpath⟩ := exists_messageAt? hentries hne
  have hbelow : ∀ path, messageAt? entries path = (Entries.get? name d).bind (·.messageAt? path) := by
    intro path
    rw [← messageAt?_cons, ← h, messageAt?_cons, hget]
    rfl
  -- a message at that name would be in the way of the one in the group
  have hsome := (hbelow path).symm.trans hpath
  cases hnode : Entries.get? name d with
  | none => rw [hnode] at hsome; cases hsome
  | some node =>
      rw [hnode] at hsome hbelow
      cases node with
      | message s =>
          have hif : (if path = [] then some s else none) = some t := hsome
          split at hif
          · next hnil =>
            rw [hnil] at hpath
            cases hpath
          · cases hif
      | group entries' => exact ⟨entries', rfl, hbelow⟩

/-- **KNOWN BY MESSAGES**: full catalogs with the same messages are equal. -/
theorem ext_messageAt? {c d : Catalog} (hc : Ordered c) (hd : Ordered d) (hfc : Full c)
    (hfd : Full d) (h : ∀ path, messageAt? c path = messageAt? d path) : c = d := by
  refine hc.1.ext hd.1 fun name => ?_
  -- a message under the name is the one at the path of this name alone
  have hmessage : ∀ t, Entries.get? name c = some (.message t) ↔
      Entries.get? name d = some (.message t) := by
    intro t
    rw [← literal?_eq_some, ← literal?_eq_some]
    exact iff_of_eq (congrArg (· = some t) (h [name]))
  cases hget : Entries.get? name c with
  | none =>
      cases hother : Entries.get? name d with
      | none => rfl
      | some node =>
          cases node with
          | message t => rw [(hmessage t).mpr hother] at hget; cases hget
          | group entries =>
              obtain ⟨entries', he, -⟩ := get?_eq_group (fun p => (h p).symm) hother hfd
              rw [he] at hget
              cases hget
  | some node =>
      cases node with
      | message t => exact ((hmessage t).mp hget).symm
      | group entries =>
          obtain ⟨entries', hother, hbelow⟩ := get?_eq_group h hget hfc
          have hmem := Entries.mem_of_get? hget
          have hsame : entries = entries' :=
            ext_messageAt? (hc.node hget) (hd.node hother) (hfc.group hmem).2
              (hfd.group (Entries.mem_of_get? hother)).2 hbelow
          rw [hother, hsame]
termination_by sizeOf c
decreasing_by exact sizeOf_group_lt hmem

/-! ## Placing one message -/

/-- Neither path is the beginning of the other. -/
def Apart (p q : List String) : Prop := ¬ p <+: q ∧ ¬ q <+: p

theorem placeAt_cons (c : Catalog) (text name second : String) (rest : List String) :
    placeAt c text (name :: second :: rest)
      = Entries.insert name (.group (placeAt (entriesAt c name) text (second :: rest))) c := by
  rw [placeAt, entriesAt]
  cases Entries.get? name c with
  | none => rfl
  | some node => cases node <;> rfl

/-- **PLACING**: the path leads to the message, and paths apart from it lead where they did. -/
theorem messageAt?_placeAt (hpath : path ≠ []) (other : List String) :
    messageAt? (placeAt c text path) other
      = if other = path then some text
        else if path <+: other ∨ other <+: path then none else messageAt? c other := by
  induction path generalizing c other with
  | nil => exact absurd rfl hpath
  | cons name rest ih =>
      cases other with
      | nil => simp [messageAt?]
      | cons n tail =>
          cases rest with
          | nil =>
              rw [placeAt, messageAt?_insert]
              by_cases hn : name = n
              · subst hn
                cases tail <;> simp [Node.messageAt?]
              · simp [hn, Ne.symm hn]
          | cons second rest =>
              rw [placeAt_cons, messageAt?_insert]
              by_cases hn : name = n
              · subst hn
                rw [if_pos rfl]
                show messageAt? (placeAt (entriesAt c name) text (second :: rest)) tail = _
                rw [ih (List.cons_ne_nil _ _)]
                simp only [List.cons.injEq, true_and, List.cons_prefix_cons]
                split
                · rfl
                · split
                  · rfl
                  · next hapart =>
                    -- a message under the name is the beginning of the path, so none is lost
                    by_cases hmessage : ∃ t, Entries.get? name c = some (.message t)
                    · obtain ⟨t, hget⟩ := hmessage
                      have hne : tail ≠ [] := by
                        rintro rfl
                        exact hapart (.inr List.nil_prefix)
                      rw [messageAt?_cons, hget, entriesAt, hget, messageAt?_empty]
                      exact (if_neg hne).symm
                    · exact messageAt?_entriesAt (fun t hget => hmessage ⟨t, hget⟩) tail
              · simp [hn, Ne.symm hn]

/-- **PLACING** keeps a catalog ordered. -/
theorem Ordered.placeAt (h : Ordered c) (text : String) (path : List String) :
    Ordered (Catalog.placeAt c text path) := by
  induction path generalizing c with
  | nil => exact h
  | cons name rest ih =>
      cases rest with
      | nil => exact h.insert name trivial
      | cons second rest =>
          rw [placeAt_cons]
          exact h.insert name (ih (h.entriesAt name))

/-- There is something once a message is placed. -/
theorem placeAt_ne_nil (hpath : path ≠ []) : placeAt c text path ≠ [] := by
  intro hnil
  have hself : messageAt? (placeAt c text path) path = _ := messageAt?_placeAt hpath path
  rw [hnil, messageAt?_empty, if_pos rfl] at hself
  cases hself

/-- What is found after an entry was set is that entry, lies in it, or was there before. -/
theorem HasEntry.of_insert {node other : Node} {key : String}
    (h : HasEntry (Entries.insert key node c) name other) :
    (name = key ∧ other = node) ∨ (∃ entries, node = .group entries ∧ HasEntry entries name other) ∨
      HasEntry c name other := by
  cases h with
  | top hmem =>
      rcases Entries.mem_insert hmem with he | hmem
      · exact .inl (Prod.mk.inj he)
      · exact .inr (.inr (.top hmem))
  | inside hmem hinner =>
      rcases Entries.mem_insert hmem with he | hmem
      · obtain ⟨-, rfl⟩ := Prod.mk.inj he
        exact .inr (.inl ⟨_, rfl, hinner⟩)
      · exact .inr (.inr (.inside hmem hinner))

/-- What placing adds stands under the names of the path and is no empty group. -/
theorem HasEntry.of_placeAt {node : Node} (h : HasEntry (Catalog.placeAt c text path) name node) :
    (name ∈ path ∧ node ≠ .group []) ∨ HasEntry c name node := by
  induction path generalizing c with
  | nil => exact .inr h
  | cons first rest ih =>
      cases rest with
      | nil =>
          rcases h.of_insert with ⟨rfl, rfl⟩ | ⟨entries, he, -⟩ | h
          · exact .inl ⟨List.mem_singleton_self _, by rintro ⟨⟩⟩
          · cases he
          · exact .inr h
      | cons second rest =>
          rw [placeAt_cons] at h
          rcases h.of_insert with ⟨rfl, rfl⟩ | ⟨entries, he, hinner⟩ | h
          · refine .inl ⟨List.mem_cons_self, fun he => ?_⟩
            exact placeAt_ne_nil (List.cons_ne_nil _ _) (Node.group.inj he)
          · rw [← Node.group.inj he] at hinner
            rcases ih hinner with ⟨hmem, hne⟩ | hentry
            · exact .inl ⟨List.mem_cons_of_mem _ hmem, hne⟩
            · refine .inr ?_
              rw [entriesAt] at hentry
              split at hentry
              · next es hget => exact .inside (Entries.mem_of_get? hget) hentry
              · exact absurd hentry not_hasEntry_nil
          · exact .inr h

/-- At the top placing adds the first name of the path, as a group if the path goes on. -/
theorem get?_placeAt_eq_some {node : Node}
    (h : Entries.get? name (placeAt c text path) = some node) :
    (path.head? = some name ∧ (path = [name] → node = .message text)) ∨
      Entries.get? name c = some node := by
  cases path with
  | nil => exact .inr h
  | cons first rest =>
      cases rest with
      | nil =>
          rw [placeAt, Entries.get?_insert] at h
          split at h
          · next hfirst =>
            subst hfirst
            cases h
            exact .inl ⟨rfl, fun _ => rfl⟩
          · exact .inr h
      | cons second rest =>
          rw [placeAt_cons, Entries.get?_insert] at h
          split at h
          · next hfirst =>
            subst hfirst
            exact .inl ⟨rfl, fun he => by cases he⟩
          · exact .inr h

end MessageKeys.Catalog
