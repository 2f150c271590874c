import MessageKeys.Proofs.Reference.Grammar

/-! # The six forms — the texts of references

    Each form of reference is given by the texts that it has: `bareCall?_eq_some` and so on
    say that the reader of the form accepts these and no others.  What stands between the
    brackets of a lookup is a structure of its own, `Brackets`, which the scanner and the
    renaming read alike.

    A dollar in front of a reference is read as such whatever the accessor is: with and
    without it, the characters up to the point or the bracket differ
    (`withDollar?_eq_some`). -/

namespace MessageKeys.Reference

open Text

/-! ## Brackets -/

/-- What surrounds the key of a lookup: blanks, two quotes that may differ, and blanks. -/
structure Brackets where
  before : List Char
  opening : Char
  closing : Char
  after : List Char
  blank_before : Blanks before
  quote_opening : isQuote opening = true
  quote_closing : isQuote closing = true
  blank_after : Blanks after

namespace Brackets

/-- What follows the opening bracket, up to the closing one. -/
def inside (b : Brackets) (key : List Char) : List Char :=
  b.before ++ b.opening :: (key ++ b.closing :: (b.after ++ [']']))

/-- The brackets without blanks, with the same quote on both sides. -/
def plain (quote : Char) (h : isQuote quote = true) : Brackets where
  before := []
  opening := quote
  closing := quote
  after := []
  blank_before _ hc := absurd hc List.not_mem_nil
  quote_opening := h
  quote_closing := h
  blank_after _ hc := absurd hc List.not_mem_nil

theorem inside_plain (quote : Char) (h : isQuote quote = true) (key : List Char) :
    (plain quote h).inside key = quote :: (key ++ [quote, ']']) := rfl

/-- A lookup in front of more text, piece by piece. -/
theorem inside_append (b : Brackets) (key rest : List Char) :
    b.inside key ++ rest
      = b.before ++ b.opening :: (key ++ b.closing :: (b.after ++ ']' :: rest)) := by
  simp [inside]

/-- Up to the opening quote there are blanks only. -/
theorem skipBlanks_inside (b : Brackets) (key rest : List Char) :
    skipBlanks (b.inside key ++ rest)
      = b.opening :: (key ++ b.closing :: (b.after ++ ']' :: rest)) :=
  skipBlanks_eq_cons.mpr ⟨b.before, b.blank_before, (quote_spec b.quote_opening).2.2.1,
    b.inside_append key rest⟩

/-- So are there from the closing quote up to the bracket. -/
theorem skip?_after (b : Brackets) (rest : List Char) :
    skip? ']' (skipBlanks (b.after ++ ']' :: rest)) = some rest :=
  (skip?_skipBlanks (by decide)).mpr ⟨b.after, b.blank_after, rfl⟩

end Brackets

/-! ## Lookups -/

/-- **LOOKUPS**: a key between brackets, with blanks around its quotes. -/
theorem quotedKey?_eq_some {cs k rest : List Char} :
    quotedKey? cs = some (k, rest) ↔ IsKey k ∧ ∃ b : Brackets, cs = b.inside k ++ rest := by
  rw [quotedKey?]
  constructor
  · intro h
    split at h
    · cases h
    · next q tail hskip =>
      obtain ⟨before, hbefore, -, rfl⟩ := skipBlanks_eq_cons.mp hskip
      split at h
      · next hq =>
        split at h
        · next key p more hkey =>
          obtain ⟨hk, -, rfl⟩ := key?_eq_some.mp hkey
          split at h
          · next hp =>
            obtain ⟨r, hr, he⟩ := Option.map_eq_some_iff.mp h
            obtain ⟨after, hafter, rfl⟩ := (skip?_skipBlanks (by decide)).mp hr
            obtain ⟨rfl, rfl⟩ := Prod.mk.inj he
            refine ⟨hk, ⟨before, q, p, after, hbefore, hq, hp, hafter⟩, ?_⟩
            rw [Brackets.inside_append]
          · cases h
        · cases h
      · cases h
  · rintro ⟨hk, b, rfl⟩
    obtain ⟨-, htail, hblank, hpoint, -, -⟩ := quote_spec b.quote_closing
    have hends := not_goesOn_cons htail hpoint (b.after ++ ']' :: rest)
    have hkey : key? (k ++ b.closing :: (b.after ++ ']' :: rest))
        = some (k, b.closing :: (b.after ++ ']' :: rest)) :=
      key?_eq_some.mpr ⟨hk, hends, rfl⟩
    rw [b.skipBlanks_inside]
    dsimp only
    rw [if_pos b.quote_opening, hkey]
    dsimp only
    rw [if_pos b.quote_closing, b.skip?_after]
    rfl

/-! ## Dollars -/

/-- No text starts with the accessor both with and without a dollar, if a character that
    cannot belong to the accessor stands behind it. -/
theorem dollar_exclusive {accessor : List Char} (ha : IsAccessor accessor) {sep sep' : Char}
    (hsep : isAccessorTail sep = false) (hsep' : isAccessorTail sep' = false)
    {cs ds : List Char} : '$' :: (accessor ++ sep :: cs) ≠ accessor ++ sep' :: ds := by
  intro h
  have hdollar : ∀ c ∈ '$' :: accessor, isAccessorTail c = true := by
    intro c hc
    rcases List.mem_cons.mp hc with rfl | hc
    · decide
    · exact ha.2 c hc
  have hsame : '$' :: accessor = accessor := (run_unique hdollar ha.2 hsep hsep' h).1
  have hlength := congrArg List.length hsame
  simp at hlength

/-- **DOLLARS**: a reference is read with a dollar where there is one, and without it where
    there is none. -/
theorem withDollar?_eq_some {α : Type} {accessor cs : List Char} (ha : IsAccessor accessor)
    {sep : Char} (hsep : isAccessorTail sep = false) {read? : List Char → Option α}
    {present : Bool} {a : α} :
    withDollar? (fun cs => ((after? accessor cs).bind (skip? sep)).bind read?) cs
        = some (present, a) ↔
      ∃ rest, cs = Renaming.dollar present ++ (accessor ++ sep :: rest) ∧ read? rest = some a := by
  have hwith : ∀ b, (skip? '$' cs).bind
      (fun cs => ((after? accessor cs).bind (skip? sep)).bind read?) = some b ↔
      ∃ rest, cs = '$' :: (accessor ++ sep :: rest) ∧ read? rest = some b := by
    intro b
    simp only [Option.bind_eq_some_iff (x := skip? '$' cs), skip?_eq_some, afterAccessor_eq_some]
    constructor
    · rintro ⟨_, rfl, rest, rfl, hread⟩
      exact ⟨rest, rfl, hread⟩
    · rintro ⟨rest, rfl, hread⟩
      exact ⟨_, rfl, rest, rfl, hread⟩
  rw [withDollar?]
  cases hdollar : (skip? '$' cs).bind
      (fun cs => ((after? accessor cs).bind (skip? sep)).bind read?) with
  | some b =>
      obtain ⟨rest, rfl, hread⟩ := (hwith b).mp hdollar
      dsimp only
      cases present with
      | true =>
          constructor
          · intro h
            cases h
            exact ⟨rest, rfl, hread⟩
          · rintro ⟨other, he, hother⟩
            have := List.append_cancel_left (List.cons.inj he).2
            cases this
            rw [hother] at hread
            cases hread
            rfl
      | false =>
          refine iff_of_false (by rintro ⟨⟩) ?_
          rintro ⟨other, he, -⟩
          exact dollar_exclusive ha hsep hsep he
  | none =>
      dsimp only
      cases present with
      | true =>
          refine iff_of_false ?_ ?_
          · intro h
            obtain ⟨b, -, hb⟩ := Option.map_eq_some_iff.mp h
            cases hb
          · rintro ⟨rest, rfl, hread⟩
            rw [(hwith a).mpr ⟨rest, rfl, hread⟩] at hdollar
            cases hdollar
      | false =>
          have hmap : ∀ x : Option α, x.map (fun b => (false, b)) = some (false, a) ↔ x = some a := by
            intro x
            cases x <;> simp
          rw [hmap, afterAccessor_eq_some]
          rfl

/-! ## The forms -/

namespace Literal

variable {accessor cs k rest : List Char}

/-- A key that a parenthesis follows is read up to it. -/
private theorem member?_parenthesis {tail : List Char} :
    member? accessor cs = some (k, '(' :: tail) ↔
      IsKey k ∧ cs = accessor ++ '.' :: (k ++ '(' :: tail) := by
  rw [member?_eq_some]
  constructor
  · rintro ⟨hk, -, hcs⟩
    exact ⟨hk, hcs⟩
  · rintro ⟨hk, hcs⟩
    exact ⟨hk, rfl, hcs⟩

/-- A bare call has nothing between its parentheses. -/
theorem bareCall?_eq_some :
    bareCall? accessor cs = some (k, rest) ↔
      IsKey k ∧ cs = accessor ++ '.' :: (k ++ '(' :: ')' :: rest) := by
  rw [← member?_parenthesis, bareCall?]
  constructor
  · intro h
    split at h
    · next hm =>
      cases h
      exact hm
    · cases h
  · intro h
    rw [h]
    rfl

/-- The arguments of a call go up to the first closing parenthesis, and there are some. -/
theorem callWithArgs?_eq_some :
    callWithArgs? accessor cs = some (k, rest) ↔
      IsKey k ∧ ∃ args, args ≠ [] ∧ ')' ∉ args ∧
        cs = accessor ++ '.' :: (k ++ '(' :: (args ++ ')' :: rest)) := by
  rw [callWithArgs?]
  constructor
  · intro h
    split at h
    · next tail hm =>
      obtain ⟨hk, rfl⟩ := member?_parenthesis.mp hm
      obtain ⟨r, hr, he⟩ := Option.map_eq_some_iff.mp h
      cases he
      rw [arguments?.eq_def] at hr
      split at hr
      · next c more =>
        split at hr
        · cases hr
        · next hc =>
          obtain ⟨args, hargs, he⟩ := afterParenthesis?_eq_some.mp hr
          refine ⟨hk, args, ?_, hargs, by rw [he]⟩
          rintro rfl
          exact hc (List.cons.inj he).1
      · cases hr
    · cases h
  · rintro ⟨hk, args, hne, hargs, rfl⟩
    rw [member?_parenthesis.mpr ⟨hk, rfl⟩]
    cases args with
    | nil => exact absurd rfl hne
    | cons c args =>
        have hc : c ≠ ')' := fun he => hargs (he ▸ List.mem_cons_self)
        have hclose : afterParenthesis? (c :: (args ++ ')' :: rest)) = some rest :=
          afterParenthesis?_eq_some.mpr ⟨c :: args, hargs, rfl⟩
        show (arguments? (c :: (args ++ ')' :: rest))).map _ = _
        rw [arguments?, if_neg hc]
        exact congrArg (Option.map _) hclose

/-- A key behind a dollar goes as far as it can. -/
theorem reactive?_eq_some :
    reactive? accessor cs = some (k, rest) ↔
      IsKey k ∧ goesOn rest = false ∧ cs = '$' :: (accessor ++ '.' :: (k ++ rest)) := by
  rw [reactive?]
  simp only [Option.bind_eq_some_iff, skip?_eq_some, member?_eq_some]
  constructor
  · rintro ⟨_, rfl, hk, hrest, rfl⟩
    exact ⟨hk, hrest, rfl⟩
  · rintro ⟨hk, hrest, rfl⟩
    exact ⟨_, rfl, hk, hrest, rfl⟩

/-- A lookup may have a dollar, and any brackets. -/
theorem dynamicLookup?_eq_some (ha : IsAccessor accessor) :
    (withDollar? (lookup? accessor) cs).map (·.2) = some (k, rest) ↔
      IsKey k ∧ ∃ present, ∃ b : Brackets,
        cs = Renaming.dollar present ++ (accessor ++ '[' :: (b.inside k ++ rest)) := by
  have hread : ∀ present, withDollar? (lookup? accessor) cs = some (present, (k, rest)) ↔
      ∃ tail, cs = Renaming.dollar present ++ (accessor ++ '[' :: tail)
        ∧ quotedKey? tail = some (k, rest) :=
    fun present => withDollar?_eq_some ha (by decide)
  rw [Option.map_eq_some_iff]
  constructor
  · rintro ⟨⟨present, found⟩, hsome, rfl⟩
    obtain ⟨tail, rfl, htail⟩ := (hread present).mp hsome
    obtain ⟨hk, b, rfl⟩ := quotedKey?_eq_some.mp htail
    exact ⟨hk, present, b, rfl⟩
  · rintro ⟨hk, present, b, rfl⟩
    exact ⟨(present, (k, rest)), (hread present).mpr
      ⟨_, rfl, quotedKey?_eq_some.mpr ⟨hk, b, rfl⟩⟩, rfl⟩

/-! ## Templates -/

/-- There may be blanks in front of a closing brace. -/
theorem closeBrace?_eq_some :
    closeBrace? cs = some rest ↔ ∃ bs, Blanks bs ∧ cs = bs ++ '\x7d' :: rest :=
  skip?_skipBlanks (by decide)

/-- A call between braces may have arguments or none. -/
theorem templateCallBody?_eq_some :
    templateCallBody? accessor cs = some (k, rest) ↔
      IsKey k ∧ ∃ args bs, ')' ∉ args ∧ Blanks bs ∧
        cs = accessor ++ '.' :: (k ++ '(' :: (args ++ ')' :: (bs ++ '\x7d' :: rest))) := by
  rw [templateCallBody?]
  constructor
  · intro h
    split at h
    · next tail hm =>
      obtain ⟨hk, rfl⟩ := member?_parenthesis.mp hm
      obtain ⟨r, hr, he⟩ := Option.map_eq_some_iff.mp h
      cases he
      obtain ⟨more, hmore, hclose⟩ := Option.bind_eq_some_iff.mp hr
      obtain ⟨args, hargs, rfl⟩ := afterParenthesis?_eq_some.mp hmore
      obtain ⟨bs, hbs, rfl⟩ := closeBrace?_eq_some.mp hclose
      exact ⟨hk, args, bs, hargs, hbs, rfl⟩
    · cases h
  · rintro ⟨hk, args, bs, hargs, hbs, rfl⟩
    rw [member?_parenthesis.mpr ⟨hk, rfl⟩]
    show ((afterParenthesis? _).bind closeBrace?).map _ = _
    rw [afterParenthesis?_eq_some.mpr ⟨args, hargs, rfl⟩, Option.bind_some,
      closeBrace?_eq_some.mpr ⟨bs, hbs, rfl⟩]
    rfl

theorem templateRefBody?_eq_some :
    templateRefBody? accessor cs = some (k, rest) ↔
      IsKey k ∧ ∃ bs, Blanks bs ∧ cs = accessor ++ '.' :: (k ++ (bs ++ '\x7d' :: rest)) := by
  rw [templateRefBody?]
  constructor
  · intro h
    split at h
    · next key tail hm =>
      obtain ⟨hk, -, rfl⟩ := member?_eq_some.mp hm
      obtain ⟨r, hr, he⟩ := Option.map_eq_some_iff.mp h
      cases he
      obtain ⟨bs, hbs, rfl⟩ := closeBrace?_eq_some.mp hr
      exact ⟨hk, bs, hbs, rfl⟩
    · cases h
  · rintro ⟨hk, bs, hbs, rfl⟩
    rw [member?_eq_some.mpr ⟨hk, not_goesOn_closing hbs rest, rfl⟩]
    dsimp only
    rw [closeBrace?_eq_some.mpr ⟨bs, hbs, rfl⟩]
    rfl

theorem mem_afterBlanks {x : List Char} :
    x ∈ afterBlanks cs ↔ ∃ bs, Blanks bs ∧ cs = bs ++ x := by
  induction cs with
  | nil =>
      rw [afterBlanks, List.mem_singleton]
      constructor
      · rintro rfl
        exact ⟨[], fun _ h => absurd h List.not_mem_nil, rfl⟩
      · rintro ⟨bs, -, h⟩
        exact (List.append_eq_nil_iff.mp h.symm).2
  | cons c cs ih =>
      rw [afterBlanks]
      constructor
      · intro h
        split at h
        · next hc =>
          rcases List.mem_append.mp h with h | h
          · obtain ⟨bs, hbs, rfl⟩ := ih.mp h
            refine ⟨c :: bs, ?_, rfl⟩
            intro d hd
            rcases List.mem_cons.mp hd with rfl | hd
            · exact hc
            · exact hbs d hd
          · exact ⟨[], fun _ h => absurd h List.not_mem_nil, (List.mem_singleton.mp h).symm⟩
        · exact ⟨[], fun _ h => absurd h List.not_mem_nil, (List.mem_singleton.mp h).symm⟩
      · rintro ⟨bs, hbs, h⟩
        cases bs with
        | nil =>
            rw [List.nil_append] at h
            split
            · exact List.mem_append_right _ (List.mem_singleton.mpr h.symm)
            · exact List.mem_singleton.mpr h.symm
        | cons b bs =>
            obtain ⟨rfl, htail⟩ := List.cons.inj h
            rw [if_pos (hbs c List.mem_cons_self)]
            refine List.mem_append_left _ (ih.mpr ⟨bs, ?_, htail⟩)
            exact fun d hd => hbs d (List.mem_cons_of_mem _ hd)

/-- The body of a template starts with the accessor, so all blanks before it are skipped. -/
theorem braced?_eq_some {body? : List Char → Option (List Char × List Char)}
    (hbody : ∀ x r, body? x = some r → ∃ c y, isBlank c = false ∧ x = c :: y) :
    braced? body? cs = some (k, rest) ↔
      ∃ bs x, Blanks bs ∧ cs = '\x7b' :: (bs ++ x) ∧ body? x = some (k, rest) := by
  rw [braced?]
  constructor
  · intro h
    split at h
    · next tail hskip =>
      obtain ⟨x, hx, hread⟩ := List.exists_of_findSome?_eq_some h
      obtain ⟨bs, hbs, rfl⟩ := mem_afterBlanks.mp hx
      exact ⟨bs, x, hbs, skip?_eq_some.mp hskip, hread⟩
    · cases h
  · rintro ⟨bs, x, hbs, rfl, hread⟩
    rw [skip?_eq_some.mpr rfl]
    dsimp only
    cases hfound : (afterBlanks (bs ++ x)).findSome? body? with
    | none =>
        have := List.findSome?_eq_none_iff.mp hfound x (mem_afterBlanks.mpr ⟨bs, hbs, rfl⟩)
        rw [hread] at this
        cases this
    | some found =>
        -- there is one way only to skip blanks up to a character that is none
        obtain ⟨y, hy, hyread⟩ := List.exists_of_findSome?_eq_some hfound
        obtain ⟨bs', hbs', hsame⟩ := mem_afterBlanks.mp hy
        obtain ⟨c, x', hc, rfl⟩ := hbody x _ hread
        obtain ⟨d, y', hd, rfl⟩ := hbody y _ hyread
        obtain ⟨-, rfl, rfl⟩ := run_unique hbs hbs' hc hd hsame
        rw [← hyread, hread]

/-- Accessors are not blank. -/
private theorem accessor_front (ha : IsAccessor accessor) (tail : List Char) :
    ∃ c y, isBlank c = false ∧ accessor ++ tail = c :: y := by
  obtain ⟨hne, hchars⟩ := ha
  cases accessor with
  | nil => exact absurd rfl hne
  | cons c more =>
      exact ⟨c, more ++ tail, not_isBlank_of_isAccessorTail (hchars c List.mem_cons_self), rfl⟩

/-- Blanks may stand behind the opening brace as well. -/
theorem templateCall?_eq_some (ha : IsAccessor accessor) :
    braced? (templateCallBody? accessor) cs = some (k, rest) ↔
      IsKey k ∧ ∃ bs args bs', Blanks bs ∧ ')' ∉ args ∧ Blanks bs' ∧
        cs = '\x7b' :: (bs ++ (accessor ++ '.' ::
          (k ++ '(' :: (args ++ ')' :: (bs' ++ '\x7d' :: rest))))) := by
  rw [braced?_eq_some]
  · simp only [templateCallBody?_eq_some]
    constructor
    · rintro ⟨bs, _, hbs, rfl, hk, args, bs', hargs, hbs', rfl⟩
      exact ⟨hk, bs, args, bs', hbs, hargs, hbs', rfl⟩
    · rintro ⟨hk, bs, args, bs', hbs, hargs, hbs', rfl⟩
      exact ⟨bs, _, hbs, rfl, hk, args, bs', hargs, hbs', rfl⟩
  · rintro x ⟨key, r⟩ hread
    obtain ⟨-, args, bs, -, -, rfl⟩ := templateCallBody?_eq_some.mp hread
    exact accessor_front ha _

/-- So they may around a key alone. -/
theorem templateRef?_eq_some (ha : IsAccessor accessor) :
    braced? (templateRefBody? accessor) cs = some (k, rest) ↔
      IsKey k ∧ ∃ bs bs', Blanks bs ∧ Blanks bs' ∧
        cs = '\x7b' :: (bs ++ (accessor ++ '.' :: (k ++ (bs' ++ '\x7d' :: rest)))) := by
  rw [braced?_eq_some]
  · simp only [templateRefBody?_eq_some]
    constructor
    · rintro ⟨bs, _, hbs, rfl, hk, bs', hbs', rfl⟩
      exact ⟨hk, bs, bs', hbs, hbs', rfl⟩
    · rintro ⟨hk, bs, bs', hbs, hbs', rfl⟩
      exact ⟨bs, _, hbs, rfl, hk, bs', hbs', rfl⟩
  · rintro x ⟨key, r⟩ hread
    obtain ⟨-, bs, -, rfl⟩ := templateRefBody?_eq_some.mp hread
    exact accessor_front ha _

end Literal

end MessageKeys.Reference
