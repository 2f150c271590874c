import MessageKeys.Catalog.Editor
import MessageKeys.Proofs.Catalog.Leaves
import MessageKeys.Proofs.Json.Members
import MessageKeys.Proofs.Json.Quoted

/-! # The written form of catalogs — what is rendered is read back

    Reading goes through four stages, and each of them has its own picture of a catalog: the
    tokens of its text (`nodeTokens`), the syntax tree of the tokens (`nodeDocument`), the JSON
    value it means (`nodeToJson`), and the catalog itself.  For each stage one lemma says that
    it takes the picture before it to its own (`scanFrom_node`, `foldlM_nodeTokens`,
    `meaning?_nodeDocument`, `ofJsonStrict_node`).  Each is about a node inside of a larger
    text, so that it can be proved by recursion on the node.

    Together they say that a rendered catalog is read back, if it is not nested too deep
    (`parse_render`). -/

namespace MessageKeys.Catalog

open Json

variable {c d : Catalog} {name : String}

/-! ## Depth -/

mutual

/-- The number of groups that enclose the innermost message, the node itself included. -/
def nodeDepth : Node → Nat
  | .message _ => 0
  | .group entries => entriesDepth entries + 1

/-- The depth of the deepest entry. -/
def entriesDepth : List (String × Node) → Nat
  | [] => 0
  | (_, node) :: rest => max (nodeDepth node) (entriesDepth rest)

end

/-- How deep the objects of a catalog nest, its own included. -/
def depth (c : Catalog) : Nat := entriesDepth c + 1

/-! ## Tokens -/

/-- The token of a name or a message. -/
def quotedToken (s : String) : Token := .quoted (Quoted.encode s.toList)

mutual

/-- The tokens of a node. -/
def nodeTokens : Node → List Token
  | .message text => [quotedToken text]
  | .group entries => .openObject :: (entryTokens entries ++ [.closeObject])

/-- The tokens of entries, with commas in between. -/
def entryTokens : List (String × Node) → List Token
  | [] => []
  | [(name, node)] => quotedToken name :: .colon :: nodeTokens node
  | (name, node) :: e :: rest =>
    quotedToken name :: .colon :: (nodeTokens node ++ .comma :: entryTokens (e :: rest))

end

/-- The reader is between tokens where a token of one character stands. -/
private theorem scanFrom_mark {ch : Char} {t : Token} (h : Token.enter? ch = some ([t], .between))
    (rest : List Char) :
    Token.scanFrom .between (ch :: rest) = (Token.scanFrom .between rest).map (t :: ·) := by
  rw [Token.scanFrom, h]
  rfl

/-- It stays there over blanks. -/
private theorem scanFrom_spaces {blanks : List Char} (h : ∀ ch ∈ blanks, Token.isSpace ch = true)
    (rest : List Char) :
    Token.scanFrom .between (blanks ++ rest) = Token.scanFrom .between rest := by
  induction blanks with
  | nil => rfl
  | cons ch blanks ih =>
      rw [List.cons_append, Token.scanFrom, Token.enter?, if_pos (h ch List.mem_cons_self)]
      show (Token.scanFrom .between (blanks ++ rest)).map ([] ++ ·) = _
      rw [ih fun b hb => h b (List.mem_cons_of_mem _ hb)]
      exact Option.map_id'

private theorem scanFrom_lineStart (depth : Nat) (rest : List Char) :
    Token.scanFrom .between (Value.lineStart depth ++ rest) = Token.scanFrom .between rest := by
  refine scanFrom_spaces ?_ rest
  intro ch hch
  rcases List.mem_cons.mp hch with rfl | hch
  · rfl
  · rw [List.eq_of_mem_replicate hch]
    rfl

private theorem scanFrom_quote (s : String) (rest : List Char) :
    Token.scanFrom .between (Value.quote s ++ rest)
      = (Token.scanFrom .between rest).map (quotedToken s :: ·) := by
  have htext : Value.quote s ++ rest = '"' :: (Quoted.encode s.toList ++ '"' :: rest) := by
    simp [Value.quote]
  rw [htext]
  exact Token.scanFrom_quoted s.toList rest

/-- A name and its colon, up to what is written for the node. -/
private theorem scanFrom_name (depth : Nat) (name : String) (rest : List Char) :
    Token.scanFrom .between (Value.lineStart depth ++ (Value.quote name ++ ':' :: ' ' :: rest))
      = (Token.scanFrom .between rest).map (quotedToken name :: .colon :: ·) := by
  have hspace : ∀ ch ∈ [' '], Token.isSpace ch = true := by simp [Token.isSpace]
  have hblank : Token.scanFrom .between (' ' :: rest) = Token.scanFrom .between rest :=
    scanFrom_spaces hspace rest
  rw [scanFrom_lineStart, scanFrom_quote, scanFrom_mark (t := .colon) rfl, hblank, Option.map_map]
  rfl

mutual

/-- **TOKENS**: the pretty form of a node is cut into its tokens. -/
theorem scanFrom_node (depth : Nat) (node : Node) (rest : List Char) :
    Token.scanFrom .between (Value.prettyChars depth (nodeToJson node) ++ rest)
      = (Token.scanFrom .between rest).map (nodeTokens node ++ ·) := by
  cases node with
  | message text => exact scanFrom_quote text rest
  | group entries =>
      cases entries with
      | nil =>
          show Token.scanFrom .between ('\x7b' :: '\x7d' :: rest) = _
          rw [scanFrom_mark (t := .openObject) rfl, scanFrom_mark (t := .closeObject) rfl,
            Option.map_map]
          rfl
      | cons e es =>
          obtain ⟨name, node⟩ := e
          have htext : Value.prettyChars depth (nodeToJson (.group ((name, node) :: es))) ++ rest
              = '\x7b' :: (Value.prettyMembers (depth + 1) (membersToJson ((name, node) :: es))
                ++ (Value.lineStart depth ++ '\x7d' :: rest)) := by
            simp [nodeToJson, membersToJson, Value.prettyChars]
          rw [htext, scanFrom_mark (t := .openObject) rfl, scanFrom_entries, scanFrom_lineStart,
            scanFrom_mark (t := .closeObject) rfl, Option.map_map, Option.map_map]
          refine congrArg (fun f => Option.map f _) (funext fun ts => ?_)
          simp [nodeTokens]

/-- What is written of entries is scanned as their tokens. -/
theorem scanFrom_entries (depth : Nat) (entries : List (String × Node)) (rest : List Char) :
    Token.scanFrom .between (Value.prettyMembers depth (membersToJson entries) ++ rest)
      = (Token.scanFrom .between rest).map (entryTokens entries ++ ·) := by
  cases entries with
  | nil => exact Option.map_id'.symm
  | cons e es =>
    obtain ⟨name, node⟩ := e
    cases es with
    | nil =>
      have htext : Value.prettyMembers depth (membersToJson [(name, node)]) ++ rest
          = Value.lineStart depth ++ (Value.quote name ++ ':' :: ' ' ::
            (Value.prettyChars depth (nodeToJson node) ++ rest)) := by
        simp [membersToJson, Value.prettyMembers]
      rw [htext, scanFrom_name, scanFrom_node, Option.map_map]
      rfl
    | cons e es =>
      obtain ⟨other, child⟩ := e
      have htext : Value.prettyMembers depth (membersToJson ((name, node) :: (other, child) :: es))
            ++ rest
          = Value.lineStart depth ++ (Value.quote name ++ ':' :: ' ' ::
            (Value.prettyChars depth (nodeToJson node) ++ ',' ::
              (Value.prettyMembers depth (membersToJson ((other, child) :: es)) ++ rest))) := by
        simp [membersToJson, Value.prettyMembers]
      rw [htext, scanFrom_name, scanFrom_node, scanFrom_mark (t := .comma) rfl, scanFrom_entries,
        Option.map_map, Option.map_map, Option.map_map]
      refine congrArg (fun f => Option.map f _) (funext fun ts => ?_)
      simp [entryTokens]

end

/-! ## Syntax trees -/

mutual

/-- The syntax tree of a node. -/
def nodeDocument : Node → Document
  | .message text => .text (Quoted.encode text.toList)
  | .group entries => .object (entryDocuments entries)

/-- The members that entries are written as. -/
def entryDocuments : List (String × Node) → List (List Char × Document)
  | [] => []
  | (name, node) :: rest =>
    (Quoted.encode name.toList, nodeDocument node) :: entryDocuments rest

end

open Document in
mutual

/-- **SYNTAX TREES**: where a value may stand, the tokens of a node deliver its tree. -/
theorem foldlM_nodeTokens (node : Node) (stack : List Frame) (rest : List Token) :
    (nodeTokens node ++ rest).foldlM step (.value stack)
      = (deliver (nodeDocument node) stack).bind (rest.foldlM step) := by
  cases node with
  | message text => rfl
  | group entries =>
      have htokens : nodeTokens (.group entries) ++ rest
          = .openObject :: (entryTokens entries ++ .closeObject :: rest) := by
        simp [nodeTokens]
      rw [htokens]
      cases entries with
      | nil => rfl
      | cons e es =>
          -- the first name of an object may stand where further names may
          have hfirst := foldlM_entryTokens (e :: es) (List.cons_ne_nil _ _) [] stack rest
          obtain ⟨name, node⟩ := e
          have hname : ∀ s, (entryTokens ((name, node) :: es) ++ .closeObject :: rest).foldlM step s
              = (step s (quotedToken name)).bind
                (((entryTokens ((name, node) :: es)).tail ++ .closeObject :: rest).foldlM step) := by
            intro s
            cases es <;> rfl
          show (entryTokens ((name, node) :: es) ++ .closeObject :: rest).foldlM step
            (.firstName stack) = _
          rw [hname] at hfirst ⊢
          exact hfirst

/-- The tokens of entries are built into their documents, member by member. -/
theorem foldlM_entryTokens (entries : List (String × Node)) (hne : entries ≠ [])
    (finished : List (List Char × Document)) (stack : List Frame) (rest : List Token) :
    (entryTokens entries ++ .closeObject :: rest).foldlM step (.name finished stack)
      = (deliver (.object (finished.reverse ++ entryDocuments entries)) stack).bind
        (rest.foldlM step) := by
  cases entries with
  | nil => exact absurd rfl hne
  | cons e es =>
    obtain ⟨name, node⟩ := e
    cases es with
    | nil =>
      have htokens : entryTokens [(name, node)] ++ .closeObject :: rest
          = quotedToken name :: .colon :: (nodeTokens node ++ .closeObject :: rest) := by
        simp [entryTokens]
      rw [htokens]
      show (nodeTokens node ++ .closeObject :: rest).foldlM step
        (.value (.member finished (Quoted.encode name.toList) :: stack)) = _
      rw [foldlM_nodeTokens]
      show (deliver (.object ((Quoted.encode name.toList, nodeDocument node) :: finished).reverse)
        stack).bind (rest.foldlM step) = _
      rw [List.reverse_cons]
      rfl
    | cons e es =>
      have htokens : entryTokens ((name, node) :: e :: es) ++ .closeObject :: rest
          = quotedToken name :: .colon ::
            (nodeTokens node ++ .comma :: (entryTokens (e :: es) ++ .closeObject :: rest)) := by
        simp [entryTokens]
      rw [htokens]
      show (nodeTokens node ++ _).foldlM step
        (.value (.member finished (Quoted.encode name.toList) :: stack)) = _
      rw [foldlM_nodeTokens]
      show (entryTokens (e :: es) ++ .closeObject :: rest).foldlM step
        (.name ((Quoted.encode name.toList, nodeDocument node) :: finished) stack) = _
      rw [foldlM_entryTokens (e :: es) (List.cons_ne_nil _ _), List.reverse_cons,
        List.append_assoc]
      rfl

end

/-- The text of a catalog file has the syntax tree of the catalog. -/
theorem ofChars?_render (c : Catalog) :
    Document.ofChars? (render c).toList = some (nodeDocument (.group c)) := by
  have htext : (render c).toList = Value.prettyChars 0 (nodeToJson (.group c)) ++ ['\n'] := by
    rw [render, String.toList_append, Value.pretty, String.toList_ofList]
    rfl
  have hend : Token.scanFrom .between ['\n'] = some [] := rfl
  have hparse := foldlM_nodeTokens (.group c) [] []
  rw [List.append_nil] at hparse
  rw [Document.ofChars?, Token.scan, htext, scanFrom_node, hend, Option.map_some, Option.bind_some,
    List.append_nil, Document.ofTokens?, hparse]
  rfl

/-! ## Values -/

mutual

theorem depth_nodeDocument (node : Node) : (nodeDocument node).depth = nodeDepth node := by
  cases node with
  | message text => rfl
  | group entries => exact congrArg (· + 1) (membersDepth_entryDocuments entries)

theorem membersDepth_entryDocuments (entries : List (String × Node)) :
    Document.membersDepth (entryDocuments entries) = entriesDepth entries := by
  cases entries with
  | nil => rfl
  | cons e rest =>
      obtain ⟨name, node⟩ := e
      rw [entryDocuments, Document.membersDepth, entriesDepth, depth_nodeDocument,
        membersDepth_entryDocuments]

end

theorem names_membersToJson (entries : List (String × Node)) :
    (membersToJson entries).map (·.1) = entries.map (·.1) := by
  induction entries with
  | nil => rfl
  | cons e rest ih => exact congrArg (e.1 :: ·) ih

/-- Names that increase are different. -/
theorem nodup_membersToJson (h : Entries.Increasing c) :
    ((membersToJson c).map (·.1)).Nodup := by
  rw [names_membersToJson, List.nodup_iff_pairwise_ne, List.pairwise_map]
  exact h.imp Entries.name_ne_of_lt

theorem text?_encode (s : String) : Value.text? (Quoted.encode s.toList) = some s := by
  rw [Value.text?, Quoted.decode?_encode, Option.map_some, String.ofList_toList]

mutual

/-- **VALUES**: the syntax tree of an ordered node means its JSON value. -/
theorem meaning?_nodeDocument {node : Node} (h : NodeOrdered node) :
    (nodeDocument node).meaning? = some (nodeToJson node) := by
  cases node with
  | message text =>
      rw [nodeDocument, Document.meaning?, text?_encode]
      rfl
  | group entries =>
      rw [nodeDocument, Document.meaning?, membersMeaning?_entryDocuments h, Option.map_some,
        Value.distinctMembers_of_nodup (nodup_membersToJson h.1)]
      rfl

/-- In an ordered catalog no name is written twice, so every member counts. -/
theorem membersMeaning?_entryDocuments {entries : List (String × Node)} (h : Ordered entries) :
    Document.membersMeaning? (entryDocuments entries) = some (membersToJson entries) := by
  cases entries with
  | nil => rfl
  | cons e rest =>
      obtain ⟨name, node⟩ := e
      obtain ⟨hincreasing, hnode, hbelow⟩ := h
      have hrest : Ordered rest := ⟨(List.pairwise_cons.mp hincreasing).2, hbelow⟩
      rw [entryDocuments, Document.membersMeaning?, text?_encode, meaning?_nodeDocument hnode,
        membersMeaning?_entryDocuments hrest]
      rfl

end

/-! ## Catalogs -/

/-- An entry that comes before all others is stored in front of them. -/
theorem insert_of_lt {node : Node} (h : ∀ e ∈ c, name < e.1) :
    Entries.insert name node c = (name, node) :: c := by
  cases c with
  | nil => rfl
  | cons e rest =>
      obtain ⟨k, v⟩ := e
      rw [Entries.insert, if_pos (h (k, v) List.mem_cons_self)]

mutual

/-- **CATALOGS**: nothing of the JSON value of an ordered node is refused or moved. -/
theorem ofJsonStrict_node {node : Node} (h : NodeOrdered node) (path : String) :
    nodeOfJsonStrict path (nodeToJson node) = .ok node := by
  cases node with
  | message text => rfl
  | group entries =>
      rw [nodeToJson, nodeOfJsonStrict, ofMembersStrict_entries h]
      rfl

/-- An ordered catalog is read back from its own members. -/
theorem ofMembersStrict_entries {entries : List (String × Node)} (h : Ordered entries)
    (path : String) : ofMembersStrict path (membersToJson entries) = .ok entries := by
  cases entries with
  | nil => rfl
  | cons e rest =>
      obtain ⟨name, node⟩ := e
      obtain ⟨hincreasing, hnode, hbelow⟩ := h
      obtain ⟨hfirst, hlater⟩ := List.pairwise_cons.mp hincreasing
      rw [membersToJson, ofMembersStrict, ofJsonStrict_node hnode,
        ofMembersStrict_entries ⟨hlater, hbelow⟩]
      exact congrArg Except.ok (insert_of_lt hfirst)

end

/-! ## Round trips -/

/-- **READING**: a rendered catalog is read back, if its objects do not nest too deep. -/
theorem parse_render (h : Ordered c) (file : Path) :
    parse file (render c)
      = if depth c ≤ Value.maxDepth then .ok c else .error (.syntaxError file) := by
  have hgroup : NodeOrdered (.group c) := h
  have hvalue : (nodeDocument (.group c)).toValue?
      = if depth c ≤ Value.maxDepth then some (.object (membersToJson c)) else none := by
    rw [Document.toValue?, depth_nodeDocument, meaning?_nodeDocument hgroup]
    rfl
  rw [parse, Value.parse?, ofChars?_render, Option.bind_some, hvalue]
  split_ifs with hdepth
  · show (ofMembersStrict "" (membersToJson c)).mapError _ = _
    rw [ofMembersStrict_entries h]
    rfl
  · rfl

/-- Catalogs that are written alike are the same, however deep they are. -/
theorem render_injective (hc : Ordered c) (hd : Ordered d) (h : render c = render d) : c = d := by
  have hdocument : nodeDocument (.group c) = nodeDocument (.group d) := by
    have hchars := ofChars?_render c
    rw [h, ofChars?_render] at hchars
    exact (Option.some.inj hchars).symm
  have hgroups : NodeOrdered (.group c) ∧ NodeOrdered (.group d) := ⟨hc, hd⟩
  have hvalue := meaning?_nodeDocument hgroups.1
  rw [hdocument, meaning?_nodeDocument hgroups.2] at hvalue
  have hnode := ofJsonStrict_node hgroups.2 ""
  rw [Option.some.inj hvalue, ofJsonStrict_node hgroups.1] at hnode
  exact Node.group.inj (Except.ok.inj hnode)

/-- **ROUND TRIP**: a catalog whose objects nest at most 127 deep is read back from its written
    form, one that nests deeper is not read; two catalogs are written alike only if they are
    equal; and what is read of a written form is written the same way again. -/
theorem rendered_catalog_read_back (h : Ordered c) (file : Path) :
    (depth c ≤ 127 → parse file (render c) = .ok c) ∧
      (127 < depth c → parse file (render c) = .error (.syntaxError file)) ∧
      (∀ d, Ordered d → (render c = render d ↔ c = d)) ∧
      ∀ d, parse file (render c) = .ok d → render d = render c := by
  have hread : parse file (render c)
      = if depth c ≤ 127 then .ok c else .error (.syntaxError file) := parse_render h file
  refine ⟨fun hdepth => ?_, fun hdepth => ?_, fun d hd => ⟨render_injective h hd, congrArg render⟩,
    fun d hparsed => ?_⟩
  · rw [hread, if_pos hdepth]
  · rw [hread, if_neg (Nat.not_le.mpr hdepth)]
  · rw [hread] at hparsed
    split at hparsed
    · rw [Except.ok.inj hparsed]
    · cases hparsed

/-- Names and messages with quotes, backslashes and control characters, and an empty group. -/
def escaped : Catalog :=
  [("", .message "a \"quoted\"\n\x01 line"), ("back\\slash", .group []),
    ("größe", .group [("\t", .message "")])]

theorem rendered_catalog_read_back_sample : escaped.Ordered ∧ escaped.depth ≤ 127 ∧
    parse ⟨"en.json"⟩ (render escaped) = .ok escaped := by
  have hordered : escaped.Ordered := by
    refine ⟨?_, trivial, ⟨List.Pairwise.nil, trivial⟩,
      ⟨List.pairwise_singleton _ _, trivial, trivial⟩, trivial⟩
    show List.Pairwise (fun a b : String × Node => a.1 < b.1) escaped
    decide
  have hdepth : escaped.depth ≤ 127 := by decide
  exact ⟨hordered, hdepth, (rendered_catalog_read_back hordered _).1 hdepth⟩

end MessageKeys.Catalog
