import MessageKeys.Proofs.Catalog.FlatMessages
import MessageKeys.Proofs.Json.Members

/-! # Conversion from JSON — what is refused and what is left out

    Of the values below an object, in document order and depth first (`valuesBelow`), those that are
    neither texts nor objects have no place in a catalog.  The strict conversion refuses the first
    of them by the key of its path, and otherwise builds what the lenient one builds
    (`ofMembersStrict_eq`).  The lenient one leaves them out: it builds what the strict one
    builds of the value without them (`ofMembersStrict_pruned`).

    Names of a catalog are in order while members stand as they were written, so nothing being
    lost means that the members are the same up to order (`SameUpToOrder`). -/

namespace MessageKeys

namespace Json.Value

/-- Texts and objects have a place in a catalog. -/
def hasPlace : Value → Bool
  | .string _ => true
  | .object _ => true
  | _ => false

/-- The value is an object. -/
def IsObject (v : Value) : Prop := ∃ members, v = .object members

mutual

/-- The values below a value at the end of a path, in document order and depth first, each with the
    names that lead to it.  The items of an array have no names and are not listed. -/
def valuesBelow (path : List String) : Value → List (List String × Value)
  | .object members => memberValues path members
  | _ => []

/-- The values of members and below them. -/
def memberValues (path : List String) : List (String × Value) → List (List String × Value)
  | [] => []
  | (name, v) :: rest =>
    (path ++ [name], v) :: valuesBelow (path ++ [name]) v ++ memberValues path rest

end

/-- The first value below the value that has no place in a catalog. -/
def firstForeign? (v : Value) : Option (List String × Value) :=
  (v.valuesBelow []).find? fun e => !e.2.hasPlace

mutual

/-- The value without the members that have no place in a catalog. -/
def pruned : Value → Value
  | .object members => .object (prunedMembers members)
  | v => v

/-- The members that have a place, without what has none in them. -/
def prunedMembers : List (String × Value) → List (String × Value)
  | [] => []
  | (name, v) :: rest =>
    if v.hasPlace then (name, v.pruned) :: prunedMembers rest else prunedMembers rest

end

end Json.Value

namespace Catalog

open Json Json.Value

variable {c : Catalog} {key : String} {v : Value} {members : List (String × Value)}

/-! ## Keys -/

/-- The key of a path is what its names give, joined by points, once the empty ones at the start are
    dropped. -/
theorem keyOf_eq_join (path : List String) :
    keyOf path = Key.join (path.dropWhile (· = "")) := by
  induction path with
  | nil => rfl
  | cons name rest ih =>
      by_cases hname : name = ""
      · rw [hname, keyOf_cons_empty, ih]
        rfl
      · rw [keyOf_cons hname, List.dropWhile_cons_of_neg (by simpa using hname)]

/-! ## What both conversions build -/

/-- A value makes no node if it has no place in a catalog. -/
theorem nodeOfJson?_eq_none : nodeOfJson? v = none ↔ v.hasPlace = false := by
  cases v <;> simp [nodeOfJson?, hasPlace]

theorem hasPlace_of_nodeOfJson? {node : Node} (h : nodeOfJson? v = some node) :
    v.hasPlace = true := by
  rw [← Bool.not_eq_false, ← nodeOfJson?_eq_none, h]
  rintro ⟨⟩

/-- Read strictly, a value without a place is an error at its own key. -/
theorem nodeOfJsonStrict_of_not_hasPlace (h : v.hasPlace = false) (key : String) :
    nodeOfJsonStrict key v = .error key := by
  cases v with
  | string text => cases h
  | object members => cases h
  | null => rfl
  | bool b => rfl
  | number n => rfl
  | array items => rfl

/-- What is built, unless one of the values has no place: then the key of the first such value. -/
def unlessForeign {α : Type} (values : List (List String × Value)) (built : α) :
    Except String α :=
  match values.find? fun e => !e.2.hasPlace with
  | some e => .error (keyOf e.1)
  | none => .ok built

theorem unlessForeign_map {α β : Type} (f : α → β) (values : List (List String × Value))
    (built : α) : (unlessForeign values built).map f = unlessForeign values (f built) := by
  rw [unlessForeign, unlessForeign]
  cases values.find? fun e => !e.2.hasPlace <;> rfl

theorem unlessForeign_foreign {α : Type} {e : List String × Value} (he : e.2.hasPlace = false)
    (more : List (List String × Value)) (built : α) :
    unlessForeign (e :: more) built = .error (keyOf e.1) := by
  rw [unlessForeign, List.find?_cons_of_pos (by simp [he])]

/-- Below a value with a place the first one is looked for before all that comes behind it. -/
theorem unlessForeign_cons {α β γ : Type} {e : List String × Value} (he : e.2.hasPlace = true)
    (values more : List (List String × Value)) (first : α) (second : β) (f : α → β → γ) :
    unlessForeign (e :: values ++ more) (f first second)
      = (unlessForeign values first).bind fun a => (unlessForeign more second).map (f a) := by
  have hfirst : (e :: values ++ more).find? (fun e => !e.2.hasPlace)
      = (values.find? fun e => !e.2.hasPlace).or (more.find? fun e => !e.2.hasPlace) := by
    rw [List.cons_append, List.find?_cons_of_neg (by simp [he]), List.find?_append]
  rw [unlessForeign, hfirst, unlessForeign]
  cases values.find? fun e => !e.2.hasPlace with
  | some foreign => rfl
  | none => exact (unlessForeign_map (f first) more second).symm

mutual

/-- Read strictly, a value makes the same node unless some value in it is foreign. -/
theorem nodeOfJsonStrict_eq (path : List String) (v : Value) {node : Node}
    (h : nodeOfJson? v = some node) :
    nodeOfJsonStrict (keyOf path) v = unlessForeign (valuesBelow path v) node := by
  cases v with
  | string text =>
      cases h
      rfl
  | object members =>
      cases h
      rw [nodeOfJsonStrict, ofMembersStrict_eq path members, unlessForeign_map, valuesBelow]
  | null => cases h
  | bool b => cases h
  | number n => cases h
  | array items => cases h

/-- **STRICT AND LENIENT**: the strict conversion builds what the lenient one builds, unless a
    value has no place; then it gives the key of the first one. -/
theorem ofMembersStrict_eq (path : List String) (members : List (String × Value)) :
    ofMembersStrict (keyOf path) members
      = unlessForeign (memberValues path members) (ofMembers members) := by
  cases members with
  | nil => rfl
  | cons m rest =>
      obtain ⟨name, v⟩ := m
      rw [ofMembersStrict, ← keyOf_append, memberValues, ofMembers, ofMembersStrict_eq path rest]
      cases hnode : nodeOfJson? v with
      | none =>
          have hplace := nodeOfJson?_eq_none.mp hnode
          rw [nodeOfJsonStrict_of_not_hasPlace hplace]
          exact (unlessForeign_foreign (e := (path ++ [name], v)) hplace _ _).symm
      | some node =>
          have hplace := hasPlace_of_nodeOfJson? hnode
          rw [nodeOfJsonStrict_eq (path ++ [name]) v hnode]
          show _ = unlessForeign _ (Entries.insert name node (ofMembers rest))
          rw [unlessForeign_cons hplace]
          cases unlessForeign (valuesBelow (path ++ [name]) v) node <;> rfl

end

/-! ## What the lenient conversion leaves out -/

mutual

/-- Without the foreign values nothing is refused. -/
theorem nodeOfJsonStrict_pruned (key : String) (v : Value) {node : Node}
    (h : nodeOfJson? v = some node) : nodeOfJsonStrict key v.pruned = .ok node := by
  cases v with
  | string text =>
      cases h
      rfl
  | object members =>
      cases h
      rw [pruned, nodeOfJsonStrict, ofMembersStrict_pruned key members]
      rfl
  | null => cases h
  | bool b => cases h
  | number n => cases h
  | array items => cases h

/-- **LEFT OUT**: the lenient conversion builds what the strict one builds of the members that have
    a place. -/
theorem ofMembersStrict_pruned (key : String) (members : List (String × Value)) :
    ofMembersStrict key (prunedMembers members) = .ok (ofMembers members) := by
  cases members with
  | nil => rfl
  | cons m rest =>
      obtain ⟨name, v⟩ := m
      have hrest := ofMembersStrict_pruned key rest
      rw [prunedMembers, ofMembers]
      cases hnode : nodeOfJson? v with
      | none => rwa [if_neg (by simp [nodeOfJson?_eq_none.mp hnode])]
      | some node =>
          rw [if_pos (hasPlace_of_nodeOfJson? hnode), ofMembersStrict,
            nodeOfJsonStrict_pruned _ v hnode, hrest]
          rfl

end

/-! ## Nothing is lost -/

/-- The names of the entries are those of the members. -/
theorem mem_names_of_ofMembersStrict (h : ofMembersStrict key members = .ok c) {e : String × Node}
    (he : e ∈ c) : e.1 ∈ members.map (·.1) := by
  induction members generalizing c with
  | nil =>
      cases h
      cases he
  | cons m rest ih =>
      obtain ⟨node, entries, -, hrest, rfl⟩ := ofMembersStrict_cons_eq_ok.mp h
      rcases Entries.mem_insert he with rfl | he
      · exact List.mem_cons_self
      · exact List.mem_cons_of_mem _ (ih hrest he)

theorem membersToJson_append (es fs : List (String × Node)) :
    membersToJson (es ++ fs) = membersToJson es ++ membersToJson fs := by
  induction es with
  | nil => rfl
  | cons e rest ih => exact congrArg ((e.1, nodeToJson e.2) :: ·) ih

mutual

/-- What is read strictly is written back with the same members, in order of their names. -/
theorem sameUpToOrder_nodeToJson (key : String) (v : Value) {node : Node} (hv : v.NamesDistinct)
    (h : nodeOfJsonStrict key v = .ok node) : SameUpToOrder v (nodeToJson node) := by
  cases v with
  | string text =>
      cases h
      exact .refl _
  | object members =>
      obtain ⟨entries, hmembers, rfl⟩ := nodeOfJsonStrict_object_eq_ok.mp h
      exact .object (sameMembers_membersToJson key members hv.1 hv.2 hmembers)
  | null => cases h
  | bool b => cases h
  | number n => cases h
  | array items => cases h

/-- **NOTHING IS LOST**: read back as members, the entries are those of the document, up to
    order. -/
theorem sameMembers_membersToJson (key : String) (members : List (String × Value)) {c : Catalog}
    (hnames : (members.map (·.1)).Nodup) (hbelow : MembersDistinct members)
    (h : ofMembersStrict key members = .ok c) : SameMembers members (membersToJson c) := by
  cases members with
  | nil =>
      cases h
      exact .nil
  | cons m rest =>
      obtain ⟨name, v⟩ := m
      obtain ⟨node, entries, hnode, hrest, rfl⟩ := ofMembersStrict_cons_eq_ok.mp h
      obtain ⟨hnew, hdistinct⟩ := List.nodup_cons.mp hnames
      have hentries : ∀ e ∈ entries, e.1 ≠ name := by
        rintro e he rfl
        exact hnew (mem_names_of_ofMembersStrict hrest he)
      have hsame := sameMembers_membersToJson key rest hdistinct hbelow.2 hrest
      obtain ⟨before, after, rfl, hinsert⟩ := Entries.insert_eq_append node hentries
      rw [membersToJson_append] at hsame
      rw [hinsert, membersToJson_append]
      exact .cons (sameUpToOrder_nodeToJson _ v hbelow.1 hnode) hsame

end

/-! ## The conversions against each other -/

/-- An object is refused for the first foreign value in it. -/
theorem ofJsonStrict_object (members : List (String × Value)) :
    ofJsonStrict (.object members)
      = unlessForeign (valuesBelow [] (.object members)) (ofMembers members) :=
  ofMembersStrict_eq [] members

theorem ofJsonStrict_of_not_isObject (h : ¬ v.IsObject) : ofJsonStrict v = .error "" := by
  cases v with
  | object members => exact absurd ⟨members, rfl⟩ h
  | _ => rfl

theorem ofJson?_of_not_isObject (h : ¬ v.IsObject) : ofJson? v = none := by
  cases v with
  | object members => exact absurd ⟨members, rfl⟩ h
  | _ => rfl

theorem isObject_of_ofJsonStrict (h : ofJsonStrict v = .ok c) : v.IsObject := by
  refine Classical.byContradiction fun hno => ?_
  rw [ofJsonStrict_of_not_isObject hno] at h
  cases h

/-- What is refused is the first value without a place, by the key of its path. -/
theorem ofMembersStrict_eq_error :
    ofMembersStrict "" members = .error key ↔
      ∃ path w, firstForeign? (.object members) = some (path, w) ∧ key = keyOf path := by
  show ofJsonStrict (.object members) = _ ↔ _
  rw [ofJsonStrict_object, unlessForeign, firstForeign?]
  cases (valuesBelow [] (.object members)).find? fun e => !e.2.hasPlace with
  | none => simp
  | some e => simp [Prod.ext_iff, eq_comm]

/-- The key of an error is the path of the first foreign value, or empty if there is no object. -/
theorem ofJsonStrict_eq_error :
    ofJsonStrict v = .error key ↔
      (¬ v.IsObject ∧ key = "") ∨
        (v.IsObject ∧ ∃ path w, v.firstForeign? = some (path, w) ∧ key = keyOf path) := by
  by_cases hobject : v.IsObject
  · rw [or_iff_right fun h => h.1 hobject, and_iff_right hobject]
    obtain ⟨members, rfl⟩ := hobject
    exact ofMembersStrict_eq_error
  · rw [ofJsonStrict_of_not_isObject hobject]
    simp [hobject, eq_comm]

/-- Nothing is refused where all values have a place. -/
theorem exists_ofJsonStrict_iff :
    (∃ c, ofJsonStrict v = .ok c) ↔
      v.IsObject ∧ ∀ e ∈ v.valuesBelow [], e.2.hasPlace = true := by
  by_cases hobject : v.IsObject
  · rw [and_iff_right hobject]
    obtain ⟨members, rfl⟩ := hobject
    have hnone := List.find?_eq_none (p := fun e => !e.2.hasPlace)
      (l := valuesBelow [] (.object members))
    simp only [Bool.not_eq_true, Bool.not_eq_false'] at hnone
    rw [ofJsonStrict_object, ← hnone, unlessForeign]
    cases (valuesBelow [] (.object members)).find? fun e => !e.2.hasPlace <;> simp
  · rw [ofJsonStrict_of_not_isObject hobject]
    simp [hobject]

/-- What is not refused is built by the lenient conversion too. -/
theorem ofJson?_of_ofJsonStrict (h : ofJsonStrict v = .ok c) : ofJson? v = some c := by
  obtain ⟨members, rfl⟩ := isObject_of_ofJsonStrict h
  rw [ofJsonStrict_object, unlessForeign] at h
  split at h
  · cases h
  · cases h
    rfl

/-- **CONVERSION**: for every value without repeated names, the strict conversion succeeds exactly if
    the value is an object and all values below it are texts and objects.  It then builds what the
    lenient one builds, and the catalog has the members of the value, up to order.  Otherwise the
    error is the empty key, if the value is no object, or the dotted path of the first value
    below it that is neither a text nor an object, without empty names at its start.  Of every
    object the lenient conversion builds what the strict one builds once such values are left out,
    and nothing of any other value. -/
theorem strict_conversion_exact (hv : v.NamesDistinct) :
    ((∃ c, ofJsonStrict v = .ok c) ↔
      v.IsObject ∧ ∀ e ∈ v.valuesBelow [], e.2.hasPlace = true) ∧
    (∀ c, ofJsonStrict v = .ok c → ofJson? v = some c ∧ SameUpToOrder v (toJson c)) ∧
    (∀ key, ofJsonStrict v = .error key ↔
      (¬ v.IsObject ∧ key = "") ∨
      (v.IsObject ∧ ∃ path w, v.firstForeign? = some (path, w) ∧
        key = Key.join (path.dropWhile (· = "")))) ∧
    (v.IsObject → ∃ c, ofJson? v = some c ∧ ofJsonStrict v.pruned = .ok c) ∧
    (¬ v.IsObject → ofJson? v = none) := by
  refine ⟨exists_ofJsonStrict_iff, fun c h => ⟨ofJson?_of_ofJsonStrict h, ?_⟩, fun key => ?_, ?_,
    ofJson?_of_not_isObject⟩
  · obtain ⟨members, rfl⟩ := isObject_of_ofJsonStrict h
    exact .object (sameMembers_membersToJson "" members hv.1 hv.2 h)
  · simp only [← keyOf_eq_join]
    exact ofJsonStrict_eq_error
  · rintro ⟨members, rfl⟩
    exact ⟨ofMembers members, rfl, ofMembersStrict_pruned "" members⟩

/-- A boolean in an object of an object under the empty name, and an array of a smaller name behind
    it. -/
def withBoolean : Value :=
  .object [("b", .string "B"),
    ("", .object [("z", .object [("", .bool true), ("y", .string "Y")]), ("a", .array [.null])])]

/-- The boolean comes first in the document, so it is the one that is named. -/
theorem strict_conversion_withBoolean :
    withBoolean.NamesDistinct ∧ ofJsonStrict withBoolean = .error "z." ∧
      withBoolean.firstForeign? = some (["", "z", ""], .bool true) ∧
      ∃ c, ofJson? withBoolean = some c ∧ ofJsonStrict withBoolean.pruned = .ok c ∧
        SameUpToOrder withBoolean.pruned (toJson c) := by
  have hnames : withBoolean.NamesDistinct :=
    ⟨by decide, trivial, ⟨by decide, ⟨by decide, trivial, trivial, trivial⟩, trivial, trivial⟩,
      trivial⟩
  have hpruned : withBoolean.pruned.NamesDistinct :=
    ⟨by decide, trivial, ⟨by decide, ⟨by decide, trivial, trivial⟩, trivial⟩, trivial⟩
  have hfirst : withBoolean.firstForeign? = some (["", "z", ""], .bool true) := rfl
  obtain ⟨-, -, herror, hlenient, -⟩ := strict_conversion_exact hnames
  obtain ⟨-, hsame, -⟩ := strict_conversion_exact hpruned
  obtain ⟨c, hc, hstrict⟩ := hlenient ⟨_, rfl⟩
  refine ⟨hnames, (herror "z.").mpr (.inr ⟨⟨_, rfl⟩, _, _, hfirst, ?_⟩), hfirst, c, hc, hstrict,
    (hsame c hstrict).2⟩
  decide

/-! ## Files -/

/-- **FILES**: a file that is read has the members of its catalog, up to order. -/
theorem sameUpToOrder_of_parse {file : Path} {content : String} (h : parse file content = .ok c) :
    ∃ v, Value.parse? content = some v ∧ SameUpToOrder v (toJson c) := by
  obtain ⟨members, hvalue, hmembers⟩ := parse_eq_ok.mp h
  obtain ⟨hnames, hbelow⟩ := namesDistinct_of_parse? hvalue
  exact ⟨_, hvalue, .object (sameMembers_membersToJson "" members hnames hbelow hmembers)⟩

/-- **REFUSED FILES**: a file is refused for a foreign value exactly if there is an object in it with
    a value below it that has no place; the first such value is named. -/
theorem parse_eq_foreignValue_iff {file : Path} {content : String} :
    parse file content = .error (.foreignValue key) ↔
      ∃ members path w, Value.parse? content = some (.object members) ∧
        firstForeign? (.object members) = some (path, w) ∧ key = keyOf path := by
  rw [parse]
  split
  · next hvalue => simp [hvalue]
  · next members hvalue =>
    rw [mapError_eq_error]
    simp only [CatalogFault.foreignValue.injEq, exists_eq_right, ofMembersStrict_eq_error, hvalue]
    simp
  · next v hno hvalue =>
    refine iff_of_false (by rintro ⟨⟩) ?_
    rintro ⟨members, -, -, hmembers, -⟩
    exact hno members (Option.some.inj (hvalue.symm.trans hmembers))

end Catalog

end MessageKeys
