import MessageKeys.Proofs.Reference.Passes
import MessageKeys.Proofs.Reference.Scanner

/-! # The result of a renaming — where the old key can stand in it

    What the scanner takes for the old key starts with it as a member or with a lookup of it
    (`MemberAt`, `LookupAt`).  Outside of templates it stands at the start of the result or
    behind a boundary.

    There are three ways for a text to stand behind a boundary of the result (`Behind`): the
    pass went on there where references may start, or it had just replaced a reference, or
    the boundary lies inside of a new reference.  Nothing refers to the old key in there
    (`not_inside`). -/

namespace MessageKeys.Reference

open Text

namespace Renaming

variable {r : Renaming} {free free' : Bool} {cs : List Char} {ps : List Piece}

/-! ## What follows a key -/

/-- What follows a key that was read up to there is as before. -/
theorem Copied.goesOn {before out : List Char} (h : Copied r false before out) :
    goesOn out = goesOn before := by
  cases h with
  | nil => rfl
  | @kept free c cs out tail =>
      by_cases hc : c = '.'
      · subst hc
        -- no reference starts behind a point
        have hpoint : isBoundary '.' = false := by decide
        rw [hpoint] at tail
        cases tail with
        | nil => rfl
        | kept tail => rfl
      · show (isKeyTail c || (decide (c = '.') && _)) = (isKeyTail c || (decide (c = '.') && _))
        rw [decide_eq_false hc, Bool.false_and, Bool.false_and]

theorem Copied.continues {before out : List Char} (h : Copied r false before out) :
    continues out = continues before := by
  cases h with
  | nil => rfl
  | kept tail => rfl

/-- The end of a line ends a key. -/
theorem goesOn_append_end {rest more : List Char}
    (h : ∀ c, more.head? = some c → c = '\r' ∨ c = '\n') : goesOn (rest ++ more) = goesOn rest := by
  have hmore : goesOn more = false ∧ startsSegment more = false := by
    cases more with
    | nil => exact ⟨rfl, rfl⟩
    | cons c more =>
        rcases h c rfl with rfl | rfl
        · exact ⟨rfl, rfl⟩
        · exact ⟨rfl, rfl⟩
  cases rest with
  | nil => exact hmore.1
  | cons c rest =>
      cases rest with
      | nil =>
          show (isKeyTail c || (decide (c = '.') && startsSegment more)) = goesOn [c]
          rw [hmore.2]
          rfl
      | cons d rest => rfl

/-- What may follow a member for the scanner: a parenthesis, a brace or a blank. -/
def closesMember (c : Char) : Bool := c = '(' || c = '\x7d' || isBlank c

theorem closesMember_spec {c : Char} (h : closesMember c = true) :
    isAlphanumeric c = false ∧ c ≠ '_' ∧ c ≠ '.' ∧ isKeyChar c = false ∧ isQuote c = false := by
  rw [closesMember, Bool.or_eq_true, Bool.or_eq_true, decide_eq_true_eq, decide_eq_true_eq] at h
  rcases h with (rfl | rfl) | h
  · decide
  · decide
  · obtain ⟨-, htail, hquote, halnum, hpoint, hline, -⟩ := blank_spec h
    refine ⟨halnum, hline, hpoint, ?_, hquote⟩
    rw [isKeyChar, htail]
    simp [hpoint]

/-! ## References to the old key -/

/-- A member stands here that the scanner takes for the old key: a reactive reference, or one
    that something follows which ends it. -/
def MemberAt (r : Renaming) (cs : List Char) : Prop :=
  ∃ present rest, cs = r.memberText present ++ rest ∧ goesOn rest = false ∧
    (present = true ∨ ∃ c more, rest = c :: more ∧ closesMember c = true)

/-- A lookup of the old key stands here. -/
def LookupAt (r : Renaming) (cs : List Char) : Prop :=
  ∃ present, ∃ b : Brackets, ∃ rest, cs = r.lookupText present b ++ rest

/-- What the scanner reads outside of templates. -/
theorem memberAt_or_lookupAt (h : r.Dotted) {form : Form} (hform : form.isTemplate = false)
    (hstands : Stands form r.accessor r.oldKey cs) : r.MemberAt cs ∨ r.LookupAt cs := by
  obtain ⟨rest, hfront⟩ := hstands
  obtain ⟨more, hmore, hend⟩ := firstLine_spec cs
  cases form with
  | templateCall => cases hform
  | templateRef => cases hform
  | bareCall =>
      obtain ⟨-, hline⟩ := Literal.bareCall?_eq_some.mp hfront
      refine .inl ⟨false, '(' :: ')' :: (rest ++ more), ?_, rfl, .inr ⟨_, _, rfl, rfl⟩⟩
      rw [hmore, hline, memberText_append]
      simp [access, dollar]
  | callWithArgs =>
      obtain ⟨-, args, -, -, hline⟩ := Literal.callWithArgs?_eq_some.mp hfront
      refine .inl ⟨false, '(' :: (args ++ ')' :: (rest ++ more)), ?_, rfl, .inr ⟨_, _, rfl, rfl⟩⟩
      rw [hmore, hline, memberText_append]
      simp [access, dollar]
  | reactive =>
      obtain ⟨-, hrest, hline⟩ := Literal.reactive?_eq_some.mp hfront
      refine .inl ⟨true, rest ++ more, ?_, (goesOn_append_end hend).trans hrest, .inl rfl⟩
      rw [hmore, hline, memberText_append]
      simp [access, dollar]
  | dynamicLookup =>
      obtain ⟨-, present, b, hline⟩ := (Literal.dynamicLookup?_eq_some h.accessor).mp hfront
      refine .inr ⟨present, b, rest ++ more, ?_⟩
      rw [hmore, hline, lookupText_append]
      simp [access]

/-! ## The front of the result -/

/-- A member that the result starts with was there before; where the pass looked for members, it
    is the start of a longer one. -/
theorem Passed.member_at_front (h : r.ToDotted) (hpassed : Passed r free free' cs ps)
    {present : Bool} {rest : List Char} (he : ps.flatMap Piece.new = r.memberText present ++ rest) :
    ∃ before, cs = r.memberText present ++ before ∧ Copied r false before rest ∧
      (free = true → Renaming.continues before = true) := by
  cases hpassed with
  | nil => exact absurd he.symm (List.append_ne_nil_of_left_ne_nil (memberText_ne_nil present) rest)
  | @kept _ _ c cs ps hmember _ tail =>
      have hcopied := tail.copied
      rw [Bool.or_self] at hcopied
      obtain ⟨before, hbefore, hrest⟩ := hcopied.member h he
      exact ⟨before, hbefore, hrest, fun hfree => hmember hfree present before hbefore⟩
  | member _ tail =>
      rw [List.flatMap_cons, Piece.new, newText_append] at he
      exact absurd he.symm (member_ne_bracket h.accessor)
  | lookup tail =>
      rw [List.flatMap_cons, Piece.new, newText_append] at he
      exact absurd he.symm (member_ne_bracket h.accessor)

/-- So was a lookup, and the pass did not look for lookups there. -/
theorem Passed.lookup_at_front (h : r.ToDotted) (hpassed : Passed r free free' cs ps)
    (hat : r.LookupAt (ps.flatMap Piece.new)) : free' = false ∧ r.LookupAt cs := by
  obtain ⟨present, b, rest, he⟩ := hat
  cases hpassed with
  | nil => exact absurd he.symm (List.append_ne_nil_of_left_ne_nil (lookupText_ne_nil present b) rest)
  | @kept _ _ c cs ps _ hlookup tail =>
      have hcopied := tail.copied
      rw [Bool.or_self] at hcopied
      obtain ⟨before, hbefore, -⟩ := hcopied.lookup h he
      refine ⟨Bool.eq_false_iff.mpr fun hfree => ?_, present, b, before, hbefore⟩
      exact hlookup hfree present b before hbefore
  | member _ tail => exact absurd he (new_ne_lookup h (by decide))
  | @lookup _ _ b' _ _ tail => exact absurd he (new_ne_lookup h b'.quote_opening)

/-! ## Places of the result -/

/-- The first boundary of a text is the first of its characters that is one. -/
theorem boundary_split {xs ys front tail : List Char} {c d : Char}
    (hxs : ∀ x ∈ xs, isBoundary x = false) (hc : isBoundary c = true)
    (h : xs ++ d :: ys = front ++ c :: tail) :
    (c = d ∧ tail = ys) ∨ ∃ front', ys = front' ++ c :: tail := by
  induction xs generalizing front with
  | nil =>
      cases front with
      | nil =>
          obtain ⟨rfl, rfl⟩ := List.cons.inj h
          exact .inl ⟨rfl, rfl⟩
      | cons e front => exact .inr ⟨front, (List.cons.inj h).2⟩
  | cons x xs ih =>
      cases front with
      | nil =>
          obtain ⟨rfl, -⟩ := List.cons.inj h
          rw [hxs x List.mem_cons_self] at hc
          cases hc
      | cons e front =>
          exact ih (fun y hy => hxs y (List.mem_cons_of_mem _ hy)) (List.cons.inj h).2

/-- What can follow a boundary inside of a new reference. -/
theorem newText_split (h : r.Dotted) {present : Bool} {quote : Char} {front tail : List Char}
    {c : Char} (hc : isBoundary c = true) (hne : tail ≠ [])
    (hsplit : r.newText present quote = front ++ c :: tail) :
    tail = quote :: (r.newKey ++ [quote, ']']) ∨ tail = r.newKey ++ [quote, ']'] ∨
      tail = [']'] := by
  have hfront := front_not_isBoundary h.accessor present
  have hkey := h.new.not_isBoundary
  rw [newText, access, ← List.append_assoc] at hsplit
  rcases boundary_split hfront hc hsplit with ⟨-, rfl⟩ | ⟨front, hquote⟩
  · exact .inl rfl
  · have hnone : ∀ x ∈ ([] : List Char), isBoundary x = false :=
      fun x hx => absurd hx List.not_mem_nil
    rcases boundary_split hnone hc hquote with ⟨-, rfl⟩ | ⟨front, hnew⟩
    · exact .inr (.inl rfl)
    · rcases boundary_split hkey hc hnew with ⟨-, rfl⟩ | ⟨front, hlast⟩
      · exact .inr (.inr rfl)
      · rcases boundary_split hnone hc hlast with ⟨-, rfl⟩ | ⟨front, hend⟩
        · exact absurd rfl hne
        · cases front with
          | nil => cases hend
          | cons e front => cases hend

section

variable {quote : Char} {tail rest more : List Char}

/-- What starts with the accessor inside of a new reference starts with the new key. -/
theorem inside_access (h : r.Dotted) (hquote : isQuote quote = true)
    (htail : tail = quote :: (r.newKey ++ [quote, ']']) ∨ tail = r.newKey ++ [quote, ']'] ∨
      tail = [']']) {present : Bool} {sep : Char} (he : tail ++ rest = r.access present sep more) :
    r.newKey ++ quote :: ']' :: rest = r.access present sep more := by
  -- the text goes on with the first quote, with the new key or with the last bracket
  rcases htail with rfl | rfl | rfl
  · have hfront := access_front h.accessor he
    rw [(quote_spec hquote).2.1] at hfront
    cases hfront
  · rw [← he]
    simp
  · cases access_front h.accessor he

/-- A member that stands inside of a new reference is what the new key starts with. -/
theorem inside_member (h : r.Dotted) (hquote : isQuote quote = true)
    (htail : tail = quote :: (r.newKey ++ [quote, ']']) ∨ tail = r.newKey ++ [quote, ']'] ∨
      tail = [']']) {present : Bool} (he : tail ++ rest = r.memberText present ++ more) :
    ∃ bs, r.newKey = r.memberText present ++ bs ∧ more = bs ++ quote :: ']' :: rest := by
  rw [memberText_append] at he
  have hkey := inside_access h hquote htail he
  rw [← memberText_append] at hkey
  exact member_of_quoted h.toDotted hquote hkey

/-- No lookup stands inside of a new reference. -/
theorem inside_ne_lookup (h : r.Dotted) (hquote : isQuote quote = true)
    (htail : tail = quote :: (r.newKey ++ [quote, ']']) ∨ tail = r.newKey ++ [quote, ']'] ∨
      tail = [']']) : ¬ r.LookupAt (tail ++ rest) := by
  rintro ⟨present, b, more, he⟩
  rw [lookupText_append] at he
  have hkey := inside_access h hquote htail he
  rw [access, ← List.append_assoc] at hkey
  exact (quote_spec hquote).2.2.2.2.1 (run_unique (isKeyChar_of_isKey h.new)
    (front_isKeyChar h.accessor present) (not_isKeyChar_of_quote hquote) (by decide) hkey).2.1

/-- A key has no dollar in it, so no member with one. -/
theorem newKey_ne_dollar (h : r.Dotted) {bs : List Char} : r.newKey ≠ r.memberText true ++ bs := by
  intro he
  have hdollar : '$' ∈ r.newKey := he ▸ List.mem_append_left _ List.mem_cons_self
  rcases h.new.chars '$' hdollar with hdollar | hdollar
  · cases hdollar
  · cases hdollar

/-- Inside of a new reference nothing refers to the old key for the scanner. -/
theorem not_inside (h : r.Dotted) (hquote : isQuote quote = true)
    (htail : tail = quote :: (r.newKey ++ [quote, ']']) ∨ tail = r.newKey ++ [quote, ']'] ∨
      tail = [']']) : ¬ (r.MemberAt (tail ++ rest) ∨ r.LookupAt (tail ++ rest)) := by
  rintro (⟨present, more, he, -, hcloses⟩ | hlookup)
  · -- the new key starts with the member, and nothing in a key closes one
    obtain ⟨bs, hbs, rfl⟩ := inside_member h hquote htail he
    rcases hcloses with rfl | ⟨c, others, hc, hcloses⟩
    · exact newKey_ne_dollar h hbs
    · obtain ⟨-, -, -, hnokey, hnoquote⟩ := closesMember_spec hcloses
      cases bs with
      | nil =>
          obtain ⟨rfl, -⟩ := List.cons.inj hc
          rw [hquote] at hnoquote
          cases hnoquote
      | cons b bs =>
          obtain ⟨rfl, -⟩ := List.cons.inj hc
          have hkey := isKeyChar_of_isKey h.new b
            (hbs ▸ List.mem_append_right _ List.mem_cons_self)
          rw [hnokey] at hkey
          cases hkey
  · exact inside_ne_lookup h hquote htail hlookup

end

/-- New references end with a bracket. -/
theorem newText_concat (present : Bool) (quote : Char) :
    r.newText present quote = r.access present '[' (quote :: (r.newKey ++ [quote])) ++ [']'] := by
  rw [newText, access_append]
  simp

theorem freeAfter_newText (free : Bool) (present : Bool) (quote : Char) :
    freeAfter free (r.newText present quote) = true := by
  rw [newText_concat, freeAfter_append]
  rfl

/-- How it comes that a text stands behind a character of the result: the pass went on there
    where references may start, or it had just replaced a reference, or the character is one
    of a new reference. -/
inductive Behind (r : Renaming) (c : Char) : List Char → List Piece → List Char → Prop
  | free {before rest : List Char} {ds es : List Piece} (passed : Passed r true true rest es) :
      Behind r c (before ++ c :: rest) (ds ++ es) (es.flatMap Piece.new)
  | replaced {cs before after : List Char} {ds es : List Piece} (bracket : c = ']') :
      Behind r c cs (ds ++ .replaced before after :: es) (es.flatMap Piece.new)
  | inside {cs front tail rest : List Char} {ps : List Piece} {present : Bool} {quote : Char}
      (hquote : isQuote quote = true) (hne : tail ≠ [])
      (hsplit : r.newText present quote = front ++ c :: tail) :
      Behind r c cs ps (tail ++ rest)

theorem Behind.cons {c : Char} {post : List Char} (h : Behind r c cs ps post)
    (front : List Char) (p : Piece) : Behind r c (front ++ cs) (p :: ps) post := by
  cases h with
  | @free before rest ds es passed =>
      rw [← List.append_assoc]
      exact @Behind.free r c (front ++ before) rest (p :: ds) es passed
  | @replaced _ before after ds es bracket =>
      exact @Behind.replaced r c (front ++ cs) before after (p :: ds) es bracket
  | inside hquote hne hsplit => exact .inside hquote hne hsplit

/-- Behind a character of a replaced reference, or of what follows it. -/
theorem behind_replaced {present : Bool} {quote c : Char} {before rest post init : List Char}
    {es : List Piece} (hquote : isQuote quote = true)
    (hrest : ∀ front, es.flatMap Piece.new = front ++ c :: post → Behind r c rest es post)
    (hout : r.newText present quote ++ es.flatMap Piece.new = init ++ c :: post) :
    Behind r c (before ++ rest) (.replaced before (r.newText present quote) :: es) post := by
  rcases List.append_eq_append_iff.mp hout with ⟨more, rfl, hmore⟩ | ⟨more, hnew, hmore⟩
  · exact (hrest more hmore).cons before _
  · cases more with
    | nil =>
        exact (hrest [] hmore.symm).cons before _
    | cons d tail =>
        obtain ⟨rfl, rfl⟩ := List.cons.inj hmore
        cases tail with
        | nil =>
            rw [newText_concat] at hnew
            have hlast : ']' = c := by simpa using congrArg List.getLast? hnew
            exact @Behind.replaced r c _ before _ [] es hlast.symm
        | cons e tail => exact .inside hquote (List.cons_ne_nil _ _) hnew

/-- **PLACES BEHIND BOUNDARIES**: there are no other places behind a boundary of the result. -/
theorem Passed.behind (hpassed : Passed r free free' cs ps) {init post : List Char} {c : Char}
    (hc : isBoundary c = true) (hout : ps.flatMap Piece.new = init ++ c :: post) :
    Behind r c cs ps post := by
  induction hpassed generalizing init with
  | nil => exact absurd hout.symm (List.append_ne_nil_of_right_ne_nil _ (List.cons_ne_nil _ _))
  | @kept free free' d cs ps _ _ tail ih =>
      rw [List.flatMap_cons] at hout
      -- the boundary is the kept character, or it comes further on
      cases init with
      | nil =>
          obtain ⟨rfl, rfl⟩ := List.cons.inj hout
          rw [hc] at tail
          exact @Behind.free r d [] cs [.kept d] ps tail
      | cons e init =>
          obtain ⟨rfl, htail⟩ := List.cons.inj hout
          exact (ih htail).cons [d] _
  | member _ _ ih => exact behind_replaced (by decide) (fun _ he => ih he) hout
  | @lookup free present b rest ps tail ih =>
      exact behind_replaced b.quote_opening (fun _ he => ih he) hout

end Renaming

end MessageKeys.Reference
