import MessageKeys.Proofs.Reference.Literal

/-! # What the passes of a renaming find

    A pass replaces references of one kind: the member pass `m.old`, the lookup pass
    `m["old"]`, each with a dollar where there is one.  All these texts, and the new ones too,
    start with the accessor and differ in what follows it, a point or a bracket
    (`access_inj`), so none is taken for another.

    `findMember_eq_reference` and `findLookup_eq_reference` say what each pass finds at the
    front of a text, `pieces_keep` and `pieces_replace` what it does then. -/

namespace MessageKeys.Reference

open Text

namespace Renaming

/-- The accessor is one, and the keys are two different ones, of which the new one has a point. -/
structure ToDotted (r : Renaming) : Prop where
  accessor : IsAccessor r.accessor
  old : IsKey r.oldKey
  new : IsKey r.newKey
  dotted : '.' ∈ r.newKey
  distinct : r.oldKey ≠ r.newKey

/-- The accessor is one, the old key has no point and the new one has. -/
structure Dotted (r : Renaming) : Prop where
  accessor : IsAccessor r.accessor
  old : IsKey r.oldKey
  flat : '.' ∉ r.oldKey
  new : IsKey r.newKey
  dotted : '.' ∈ r.newKey

variable {r : Renaming}

theorem Dotted.toDotted (h : r.Dotted) : r.ToDotted :=
  ⟨h.accessor, h.old, h.new, h.dotted, fun he => h.flat (he ▸ h.dotted)⟩

/-! ## Texts that start with the accessor -/

/-- The accessor, with or without a dollar, and what follows it. -/
def access (r : Renaming) (present : Bool) (sep : Char) (tail : List Char) : List Char :=
  dollar present ++ (r.accessor ++ sep :: tail)

/-- The old key as a member. -/
def memberText (r : Renaming) (present : Bool) : List Char := r.access present '.' r.oldKey

/-- The old key in brackets. -/
def lookupText (r : Renaming) (present : Bool) (b : Brackets) : List Char :=
  r.access present '[' (b.inside r.oldKey)

/-- The new key in brackets. -/
def newText (r : Renaming) (present : Bool) (quote : Char) : List Char :=
  r.access present '[' (quote :: (r.newKey ++ [quote, ']']))

theorem access_append (present : Bool) (sep : Char) (tail rest : List Char) :
    r.access present sep tail ++ rest = r.access present sep (tail ++ rest) := by
  simp [access]

/-- The new text of a reference keeps its dollar. -/
theorem dollar_target (h : r.ToDotted) (present : Bool) (quote : Char) :
    dollar present ++ r.target quote = r.newText present quote := by
  rw [target, if_pos (List.contains_iff_mem.mpr h.dotted), newText, access]
  simp

/-- The characters before what follows the accessor. -/
theorem front_chars (h : IsAccessor r.accessor) (present : Bool) :
    ∀ c ∈ dollar present ++ r.accessor, isAccessorTail c = true := by
  intro c hc
  rcases List.mem_append.mp hc with hc | hc
  · cases present with
    | true =>
        rw [List.mem_singleton.mp hc]
        decide
    | false => exact absurd hc List.not_mem_nil
  · exact h.2 c hc

/-- No boundary lies between the start of a reference and the end of its accessor. -/
theorem front_not_isBoundary (h : IsAccessor r.accessor) (present : Bool) :
    ∀ c ∈ dollar present ++ r.accessor, isBoundary c = false :=
  fun c hc => not_isBoundary_of_isAccessorTail (front_chars h present c hc)

theorem access_front (h : IsAccessor r.accessor) {present : Bool} {sep : Char}
    {tail cs : List Char} {c : Char} (he : c :: cs = r.access present sep tail) :
    isAccessorTail c = true := by
  cases present with
  | true =>
      obtain ⟨rfl, -⟩ := List.cons.inj he
      decide
  | false => exact h.front he

/-- Two such texts are equal in their parts only. -/
theorem access_inj (h : IsAccessor r.accessor) {present present' : Bool} {sep sep' : Char}
    (hsep : isAccessorTail sep = false) (hsep' : isAccessorTail sep' = false)
    {tail tail' : List Char} (he : r.access present sep tail = r.access present' sep' tail') :
    present = present' ∧ sep = sep' ∧ tail = tail' := by
  rw [access, access, ← List.append_assoc, ← List.append_assoc] at he
  obtain ⟨hfront, hrest⟩ := run_unique (front_chars h present) (front_chars h present') hsep hsep' he
  refine ⟨?_, hrest⟩
  have hlength := congrArg List.length (List.append_cancel_right hfront)
  cases present <;> cases present' <;> first | rfl | cases hlength

theorem memberText_append (present : Bool) (rest : List Char) :
    r.memberText present ++ rest = r.access present '.' (r.oldKey ++ rest) :=
  access_append present '.' r.oldKey rest

theorem lookupText_append (present : Bool) (b : Brackets) (rest : List Char) :
    r.lookupText present b ++ rest = r.access present '[' (b.inside r.oldKey ++ rest) :=
  access_append present '[' _ rest

theorem newText_append (present : Bool) (quote : Char) (rest : List Char) :
    r.newText present quote ++ rest
      = r.access present '[' (quote :: (r.newKey ++ quote :: ']' :: rest)) := by
  rw [newText, access_append]
  simp

/-- No text starts with both a member and a lookup: the accessor ends with a point or a bracket. -/
theorem member_ne_bracket (h : IsAccessor r.accessor) {present present' : Bool}
    {rest tail : List Char} : r.memberText present ++ rest ≠ r.access present' '[' tail := by
  rw [memberText_append]
  intro he
  obtain ⟨-, hsep, -⟩ := access_inj h (by decide) (by decide) he
  cases hsep

/-- Where a member stands, its dollar and what follows are determined. -/
theorem memberText_inj (h : IsAccessor r.accessor) {present present' : Bool}
    {rest rest' : List Char}
    (he : r.memberText present ++ rest = r.memberText present' ++ rest') :
    present = present' ∧ rest = rest' := by
  rw [memberText_append, memberText_append] at he
  obtain ⟨hpresent, -, htail⟩ := access_inj h (by decide) (by decide) he
  exact ⟨hpresent, List.append_cancel_left htail⟩

/-- The characters of keys, points included. -/
def isKeyChar (c : Char) : Bool := isAccessorTail c || c = '.'

/-- A key has key characters only. -/
theorem isKeyChar_of_isKey {k : List Char} (h : IsKey k) : ∀ c ∈ k, isKeyChar c = true := by
  intro c hc
  rw [isKeyChar, Bool.or_eq_true, decide_eq_true_eq]
  exact (h.chars c hc).imp isAccessorTail_of_isKeyTail id

theorem front_isKeyChar (h : IsAccessor r.accessor) (present : Bool) :
    ∀ c ∈ dollar present ++ r.accessor, isKeyChar c = true := by
  intro c hc
  rw [isKeyChar, front_chars h present c hc]
  rfl

theorem not_isKeyChar_of_quote {c : Char} (h : isQuote c = true) : isKeyChar c = false := by
  obtain ⟨-, htail, -, hpoint, -⟩ := quote_spec h
  rw [isKeyChar, htail]
  simp [hpoint]

/-- A new reference is none to the old key. -/
theorem new_ne_lookup (h : r.ToDotted) {present present' : Bool} {quote : Char}
    (hquote : isQuote quote = true) {b : Brackets} {rest rest' : List Char} :
    r.newText present quote ++ rest ≠ r.lookupText present' b ++ rest' := by
  rw [newText_append, lookupText_append]
  intro he
  obtain ⟨-, -, hinside⟩ := access_inj h.accessor (by decide) (by decide) he
  rw [Brackets.inside_append] at hinside
  -- the quotes are the first characters that are not blank
  have hquotes : [] ++ quote :: (r.newKey ++ quote :: ']' :: rest)
      = b.before ++ b.opening :: (r.oldKey ++ b.closing :: (b.after ++ ']' :: rest')) := hinside
  obtain ⟨-, -, hkeys⟩ := run_unique (p := isBlank) (fun _ hx => absurd hx List.not_mem_nil)
    b.blank_before (quote_spec hquote).2.2.1 (quote_spec b.quote_opening).2.2.1 hquotes
  -- so the keys in them are the same
  obtain ⟨hsame, -⟩ := run_unique (isKeyChar_of_isKey h.new) (isKeyChar_of_isKey h.old)
    (not_isKeyChar_of_quote hquote) (not_isKeyChar_of_quote b.quote_closing) hkeys
  exact h.distinct hsame.symm

/-- Nothing in a member ends what stands before it. -/
theorem memberText_chars (h : IsAccessor r.accessor) (hold : IsKey r.oldKey) (present : Bool) :
    ∀ x ∈ r.memberText present, isBoundary x = false := by
  intro x hx
  rw [memberText, access, ← List.append_assoc] at hx
  rcases List.mem_append.mp hx with hx | hx
  · exact front_not_isBoundary h present x hx
  · rcases List.mem_cons.mp hx with rfl | hx
    · decide
    · exact hold.not_isBoundary x hx

/-- A member that a key in quotes starts with ends before the quote. -/
theorem member_of_quoted (h : r.ToDotted) {quote : Char} (hquote : isQuote quote = true)
    {present : Bool} {k rest more : List Char}
    (he : k ++ quote :: rest = r.memberText present ++ more) :
    ∃ bs, k = r.memberText present ++ bs ∧ more = bs ++ quote :: rest := by
  have hchars : ∀ x ∈ r.memberText present, isKeyChar x = true := by
    intro x hx
    rw [memberText, access, ← List.append_assoc] at hx
    rcases List.mem_append.mp hx with hx | hx
    · exact front_isKeyChar h.accessor present x hx
    · rcases List.mem_cons.mp hx with rfl | hx
      · decide
      · exact isKeyChar_of_isKey h.old x hx
  rcases List.append_eq_append_iff.mp he with ⟨as, has, hmore⟩ | ⟨bs, hbs, hmore⟩
  · cases as with
    | nil =>
        rw [List.append_nil] at has
        exact ⟨[], by rw [has, List.append_nil], hmore.symm⟩
    | cons a as =>
        -- the member would go on with the quote
        obtain ⟨rfl, -⟩ := List.cons.inj hmore
        have hkey := hchars quote (has ▸ List.mem_append_right _ List.mem_cons_self)
        rw [not_isKeyChar_of_quote hquote] at hkey
        cases hkey
  · exact ⟨bs, hbs, hmore⟩

/-! ## What is found -/

/-- A member is read where its text stands. -/
theorem withDollar?_memberRest? (h : IsAccessor r.accessor) {cs rest : List Char}
    {present : Bool} :
    withDollar? r.memberRest? cs = some (present, rest) ↔ cs = r.memberText present ++ rest := by
  have hread : withDollar? r.memberRest? cs = some (present, rest) ↔
      ∃ tail, cs = dollar present ++ (r.accessor ++ '.' :: tail)
        ∧ after? r.oldKey tail = some rest :=
    withDollar?_eq_some h (by decide)
  rw [hread, memberText_append]
  constructor
  · rintro ⟨tail, rfl, htail⟩
    rw [after?_eq_some.mp htail]
    rfl
  · rintro rfl
    exact ⟨_, rfl, after?_eq_some.mpr rfl⟩

/-- The member pass finds a member that is not followed by more of a key, for any two keys. -/
theorem findMember_iff (h : IsAccessor r.accessor) {cs new rest : List Char} :
    r.findMember cs = .reference new rest ↔
      ∃ present, cs = r.memberText present ++ rest ∧ continues rest = false ∧
        new = dollar present ++ r.target '"' := by
  rw [findMember]
  constructor
  · intro hfind
    split at hfind
    · cases hfind
    · next present tail hread =>
      split at hfind
      · cases hfind
      · next hends =>
        cases hfind
        exact ⟨present, (withDollar?_memberRest? h).mp hread, Bool.eq_false_iff.mpr hends, rfl⟩
  · rintro ⟨present, hcs, hends, rfl⟩
    rw [(withDollar?_memberRest? h).mpr hcs]
    dsimp only
    rw [if_neg (by simp [hends])]

/-- The same for a new key with a point. -/
theorem findMember_eq_reference (h : r.ToDotted) {cs new rest : List Char} :
    r.findMember cs = .reference new rest ↔
      ∃ present, cs = r.memberText present ++ rest ∧ continues rest = false ∧
        new = r.newText present '"' := by
  rw [findMember_iff h.accessor]
  simp only [dollar_target h]

/-- What the lookup pass reads behind the bracket. -/
private def quotedOld? (old cs : List Char) : Option (Char × List Char) :=
  match skipBlanks cs with
  | [] => none
  | q :: cs =>
    if isQuote q then
      match after? old cs with
      | some (p :: rest) =>
        if isQuote p then (skip? ']' (skipBlanks rest)).map fun rest => (q, rest) else none
      | _ => none
    else none

private theorem lookupRest?_eq (r : Renaming) :
    r.lookupRest? = fun cs => ((after? r.accessor cs).bind (skip? '[')).bind (quotedOld? r.oldKey) := by
  funext cs
  rw [lookupRest?]
  cases (after? r.accessor cs).bind (skip? '[') with
  | none => rfl
  | some tail => rfl

private theorem quotedOld?_eq_some {old cs rest : List Char} {q : Char} :
    quotedOld? old cs = some (q, rest) ↔
      ∃ b : Brackets, b.opening = q ∧ cs = b.inside old ++ rest := by
  rw [quotedOld?]
  constructor
  · intro h
    split at h
    · cases h
    · next quote tail hskip =>
      obtain ⟨before, hbefore, -, rfl⟩ := skipBlanks_eq_cons.mp hskip
      split at h
      · next hq =>
        split at h
        · next p more hafter =>
          rw [after?_eq_some.mp hafter]
          split at h
          · next hp =>
            obtain ⟨r, hr, he⟩ := Option.map_eq_some_iff.mp h
            obtain ⟨after, hblank, rfl⟩ := (skip?_skipBlanks (by decide)).mp hr
            obtain ⟨rfl, rfl⟩ := Prod.mk.inj he
            refine ⟨⟨before, quote, p, after, hbefore, hq, hp, hblank⟩, rfl, ?_⟩
            rw [Brackets.inside_append]
          · cases h
        · cases h
      · cases h
  · rintro ⟨b, rfl, rfl⟩
    rw [b.skipBlanks_inside]
    dsimp only
    rw [if_pos b.quote_opening, after?_eq_some.mpr rfl]
    dsimp only
    rw [if_pos b.quote_closing, b.skip?_after]
    rfl

/-- The lookup pass finds the old key in brackets, for any two keys. -/
theorem findLookup_iff (h : IsAccessor r.accessor) {cs new rest : List Char} :
    r.findLookup cs = .reference new rest ↔
      ∃ present, ∃ b : Brackets, cs = r.lookupText present b ++ rest ∧
        new = dollar present ++ r.target b.opening := by
  have hread : ∀ present q tail, withDollar? r.lookupRest? cs = some (present, q, tail) ↔
      ∃ more, cs = dollar present ++ (r.accessor ++ '[' :: more)
        ∧ quotedOld? r.oldKey more = some (q, tail) := by
    intro present q tail
    rw [lookupRest?_eq]
    exact withDollar?_eq_some h (by decide)
  rw [findLookup]
  constructor
  · intro hfind
    split at hfind
    · cases hfind
    · next present q tail hsome =>
      cases hfind
      obtain ⟨more, rfl, hmore⟩ := (hread _ _ _).mp hsome
      obtain ⟨b, rfl, rfl⟩ := quotedOld?_eq_some.mp hmore
      exact ⟨present, b, (lookupText_append _ _ _).symm, rfl⟩
  · rintro ⟨present, b, hcs, rfl⟩
    rw [lookupText_append] at hcs
    rw [(hread present b.opening rest).mpr ⟨_, hcs, quotedOld?_eq_some.mpr ⟨b, rfl, rfl⟩⟩]

/-- The same for a new key with a point. -/
theorem findLookup_eq_reference (h : r.ToDotted) {cs new rest : List Char} :
    r.findLookup cs = .reference new rest ↔
      ∃ present, ∃ b : Brackets, cs = r.lookupText present b ++ rest ∧
        new = r.newText present b.opening := by
  rw [findLookup_iff h.accessor]
  simp only [dollar_target h]

/-- A member that ends there is found, and replaced by a lookup in double quotes. -/
theorem findMember_memberText (h : r.ToDotted) (present : Bool) {rest : List Char}
    (hends : continues rest = false) :
    r.findMember (r.memberText present ++ rest) = .reference (r.newText present '"') rest :=
  (findMember_eq_reference h).mpr ⟨present, rfl, hends, rfl⟩

/-- A lookup is found, and keeps its opening quote. -/
theorem findLookup_lookupText (h : r.ToDotted) (present : Bool) (b : Brackets) (rest : List Char) :
    r.findLookup (r.lookupText present b ++ rest) = .reference (r.newText present b.opening) rest :=
  (findLookup_eq_reference h).mpr ⟨present, b, rfl, rfl⟩

/-- A lookup ends with its bracket, so none is the start of a longer one. -/
theorem findLookup_ne_longer (r : Renaming) (cs : List Char) : r.findLookup cs ≠ .longer := by
  rw [findLookup]
  split
  · rintro ⟨⟩
  · rintro ⟨⟩

end Renaming

/-! ## What a pass does -/

/-- Whatever is found starts with a character of an accessor. -/
def FindsAccess (find : List Char → Finding) : Prop :=
  ∀ c cs, find (c :: cs) ≠ .nothing → isAccessorTail c = true

/-- A member starts with its dollar or with its accessor. -/
theorem Renaming.findsAccess_findMember {r : Renaming} (h : IsAccessor r.accessor) :
    FindsAccess r.findMember := by
  intro c cs hfind
  rw [Renaming.findMember] at hfind
  split at hfind
  · exact absurd rfl hfind
  · next hread =>
    have he := (Renaming.withDollar?_memberRest? h).mp hread
    rw [Renaming.memberText_append] at he
    exact Renaming.access_front h he

/-- So does a lookup. -/
theorem Renaming.findsAccess_findLookup {r : Renaming} (h : IsAccessor r.accessor) :
    FindsAccess r.findLookup := by
  intro c cs hfind
  cases hresult : r.findLookup (c :: cs) with
  | nothing => exact absurd hresult hfind
  | longer => exact absurd hresult (Renaming.findLookup_ne_longer r _)
  | reference new rest =>
      obtain ⟨present, b, he, -⟩ := (Renaming.findLookup_iff h).mp hresult
      rw [Renaming.lookupText_append] at he
      exact Renaming.access_front h he

section Pass

variable {find : List Char → Finding} {free : Bool} {c : Char} {cs : List Char}

/-- Where no reference is found, one character is kept. -/
theorem pieces_keep (hfinds : FindsAccess find)
    (h : free = true → ∀ new rest, find (c :: cs) ≠ .reference new rest) :
    pieces find free (c :: cs) = .kept c :: pieces find (isBoundary c) cs := by
  rw [pieces]
  split
  · rfl
  · next hfind =>
    split at hfind
    · have hc : isBoundary c = false :=
        not_isBoundary_of_isAccessorTail (hfinds c cs (by rw [hfind]; rintro ⟨⟩))
      have hfeed : c ≠ '\n' := by
        rintro rfl
        cases hc
      rw [hc, decide_eq_false hfeed]
    · cases hfind
  · next new rest hfind =>
    split at hfind
    · next hfree => exact absurd hfind (h hfree new rest)
    · cases hfind

/-- A reference that is found is replaced, and right behind it none is looked for. -/
theorem pieces_replace {before new rest : List Char}
    (hne : before ≠ []) (hlast : before.getLast? ≠ some '\n')
    (h : find (before ++ rest) = .reference new rest) :
    pieces find true (before ++ rest) = .replaced before new :: pieces find false rest := by
  cases before with
  | nil => exact absurd rfl hne
  | cons c before =>
      rw [List.cons_append] at h ⊢
      have hextra : (before ++ rest).length - rest.length = before.length := by simp
      rw [pieces, if_pos rfl, h]
      dsimp only
      rw [hextra, List.take_left, List.drop_left, decide_eq_false hlast]

/-- A character that no accessor has is kept. -/
theorem pieces_skip (hfinds : FindsAccess find) (hc : isAccessorTail c = false) :
    pieces find free (c :: cs) = .kept c :: pieces find (isBoundary c) cs := by
  refine pieces_keep hfinds fun _ new rest hfind => ?_
  have htail := hfinds c cs (by rw [hfind]; rintro ⟨⟩)
  rw [htail] at hc
  cases hc

/-- Blanks in front of a text are kept. -/
theorem pieces_blanks (hfinds : FindsAccess find) {bs : List Char} (hbs : Blanks bs) :
    pieces find true (bs ++ cs) = bs.map .kept ++ pieces find true cs := by
  induction bs with
  | nil => rfl
  | cons b bs ih =>
      obtain ⟨hbound, htail, -⟩ := blank_spec (hbs b List.mem_cons_self)
      rw [List.cons_append, pieces_skip hfinds htail, hbound,
        ih fun d hd => hbs d (List.mem_cons_of_mem _ hd)]
      rfl

/-- Where no reference may start, characters that end nothing are kept. -/
theorem pieces_run (hfinds : FindsAccess find) {run : List Char}
    (hrun : ∀ d ∈ run, isBoundary d = false) :
    pieces find false (run ++ cs) = run.map .kept ++ pieces find false cs := by
  induction run with
  | nil => rfl
  | cons d run ih =>
      have hkeep : pieces find false (d :: (run ++ cs))
          = .kept d :: pieces find (isBoundary d) (run ++ cs) :=
        pieces_keep hfinds fun hfree => by cases hfree
      rw [List.cons_append, hkeep, hrun d List.mem_cons_self,
        ih fun e he => hrun e (List.mem_cons_of_mem _ he)]
      rfl

/-- The same where a reference may start but none is found. -/
theorem pieces_front (hfinds : FindsAccess find) {run : List Char} (hne : run ≠ [])
    (hrun : ∀ d ∈ run, isBoundary d = false)
    (h : free = true → ∀ new rest, find (run ++ cs) ≠ .reference new rest) :
    pieces find free (run ++ cs) = run.map .kept ++ pieces find false cs := by
  cases run with
  | nil => exact absurd rfl hne
  | cons d run =>
      rw [List.cons_append] at h ⊢
      rw [pieces_keep hfinds h, hrun d List.mem_cons_self,
        pieces_run hfinds fun e he => hrun e (List.mem_cons_of_mem _ he)]
      rfl

/-- **BRACKETS ARE KEPT**: a lookup that is not to be replaced is kept as it is, if nothing is
    found at its key either. -/
theorem pieces_brackets (hfinds : FindsAccess find) {r : Renaming} (hr : IsAccessor r.accessor)
    {present : Bool} {b : Brackets} {k : List Char} (hk : IsKey k)
    (hlookup : free = true →
      ∀ new rest, find (r.access present '[' (b.inside k ++ cs)) ≠ .reference new rest)
    (hkey : ∀ new rest, find (k ++ b.closing :: (b.after ++ ']' :: cs)) ≠ .reference new rest) :
    pieces find free (r.access present '[' (b.inside k ++ cs))
      = (r.access present '[' (b.inside k)).map .kept ++ pieces find true cs := by
  have hfront := Renaming.front_not_isBoundary hr present
  have hchars := hk.not_isBoundary
  obtain ⟨hopening, hopening', -⟩ := quote_spec b.quote_opening
  obtain ⟨hclosing, hclosing', -⟩ := quote_spec b.quote_closing
  have hne : Renaming.dollar present ++ r.accessor ≠ [] := by
    intro he
    exact hr.1 (List.append_eq_nil_iff.mp he).2
  have hbracket : isBoundary '[' = true := by decide
  have hbracket' : isBoundary ']' = true := by decide
  rw [Renaming.access, ← List.append_assoc] at hlookup ⊢
  -- from left to right: the accessor, the bracket, blanks, a quote, the key, and so on
  rw [pieces_front hfinds hne hfront hlookup, pieces_skip hfinds (by decide), hbracket,
    b.inside_append, pieces_blanks hfinds b.blank_before, pieces_skip hfinds hopening', hopening,
    pieces_front hfinds hk.ne_nil hchars fun _ => hkey, pieces_skip hfinds hclosing', hclosing,
    pieces_blanks hfinds b.blank_after, pieces_skip hfinds (by decide), hbracket']
  simp [Renaming.access, Brackets.inside]

/-- The old texts of the pieces are the text. -/
theorem pieces_old (find : List Char → Finding) (free : Bool) (cs : List Char) :
    (pieces find free cs).flatMap Piece.old = cs := by
  fun_induction pieces find free cs with
  | case1 free => rfl
  | case2 free c cs _ ih => exact congrArg (c :: ·) ih
  | case3 free c cs _ ih => exact congrArg (c :: ·) ih
  | case4 free c cs new rest _ extra before ih =>
      rw [List.flatMap_cons, ih]
      exact congrArg (c :: ·) (List.take_append_drop _ _)

/-- Where nothing was replaced, the text is the same. -/
theorem new_eq_old {ps : List Piece} (h : ps.any Piece.isReplaced = false) :
    ps.flatMap Piece.new = ps.flatMap Piece.old := by
  induction ps with
  | nil => rfl
  | cons p ps ih =>
      rw [List.any_cons, Bool.or_eq_false_iff] at h
      cases p with
      | kept c => exact congrArg (c :: ·) (ih h.2)
      | replaced before after => cases h.1

end Pass

/-- The result of a renaming is what the two passes make of the text. -/
theorem Renaming.applyToChars?_getD (r : Renaming) (cs : List Char) :
    (r.applyToChars? cs).getD cs
      = (r.lookupPieces ((r.memberPieces cs).flatMap Piece.new)).flatMap Piece.new := by
  rw [Renaming.applyToChars?]
  split
  · rfl
  · next hnone =>
    obtain ⟨hfirst, hsecond⟩ := Bool.or_eq_false_iff.mp (Bool.eq_false_iff.mpr hnone)
    rw [new_eq_old hsecond, Renaming.lookupPieces, pieces_old, new_eq_old hfirst,
      Renaming.memberPieces, pieces_old]
    rfl

end MessageKeys.Reference
