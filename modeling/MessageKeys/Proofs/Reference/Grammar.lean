import MessageKeys.Proofs.Text
import MessageKeys.Reference.Renaming

/-! # The grammar of references — what each reader recognises

    For each reader there is one lemma that says which texts it accepts, what it takes for
    the key and what it leaves (`key?_eq_some`, `member?_eq_some`).  A key is read as far as
    it goes, so what follows it must not go on (`goesOn`).

    All classes of characters are kept apart here: white space, quotes and what ends a
    reference have no character in common with keys and accessors (`blank_spec`,
    `quote_spec`). -/

namespace MessageKeys.Reference

open Text

/-! ## Characters -/

theorem isAlphanum_spec {c : Char} (h : c.isAlphanum = true) :
    48 ≤ c.toNat ∧ c.toNat < 128 := by
  have hclasses : (decide (c.val ≥ 'A'.val ∧ c.val ≤ 'Z'.val)
      || (decide (c.val ≥ 'a'.val) && decide (c.val ≤ 'z'.val))
      || (decide (c.val ≥ '0'.val) && decide (c.val ≤ '9'.val))) = true := h
  simp only [Bool.or_eq_true, Bool.and_eq_true, decide_eq_true_eq, ge_iff_le,
    UInt32.le_iff_toNat_le] at hclasses
  show 48 ≤ c.val.toNat ∧ c.val.toNat < 128
  have hends : 'Z'.val.toNat < 128 ∧ 'z'.val.toNat < 128 ∧ '9'.val.toNat < 128 := by decide
  have hstarts : 48 ≤ 'A'.val.toNat ∧ 48 ≤ 'a'.val.toNat ∧ '0'.val.toNat = 48 := by decide
  omega

/-- What continues a key continues an accessor. -/
theorem isAccessorTail_of_isKeyTail {c : Char} (h : isKeyTail c = true) :
    isAccessorTail c = true := by
  rw [isAccessorTail]
  rw [isKeyTail] at h
  rw [h]
  rfl

theorem isKeyTail_of_isKeyHead {c : Char} (h : isKeyHead c = true) : isKeyTail c = true := by
  rw [isKeyHead, Bool.or_eq_true] at h
  rw [isKeyTail, Bool.or_eq_true]
  refine h.imp (fun hc => ?_) id
  rw [Char.isAlphanum, hc]
  rfl

/-- The characters of an accessor end nothing. -/
theorem not_isBoundary_of_isAccessorTail {c : Char} (h : isAccessorTail c = true) :
    isBoundary c = false := by
  rw [isAccessorTail, Bool.or_eq_true, Bool.or_eq_true, decide_eq_true_eq, decide_eq_true_eq] at h
  rcases h with (h | rfl) | rfl
  · have hascii : isAscii c = true := decide_eq_true (isAlphanum_spec h).2
    rw [isBoundary, isWord, if_pos hascii, h]
    rfl
  · decide
  · decide

theorem isQuote_iff (c : Char) : isQuote c = true ↔ c = '"' ∨ c = '\'' := by
  rw [isQuote, Bool.or_eq_true, decide_eq_true_eq, decide_eq_true_eq]

/-- The code points of white space. -/
private def blankRanges : List (Nat × Nat) :=
  [(9, 13), (0x20, 0x20), (0x85, 0x85), (0xA0, 0xA0), (0x1680, 0x1680), (0x2000, 0x200A),
    (0x2028, 0x2029), (0x202F, 0x202F), (0x205F, 0x205F), (0x3000, 0x3000)]

private theorem exists_blankRange {c : Char} (h : isBlank c = true) :
    c.toNat ≤ 0x3000 ∧ ∃ b ∈ blankRanges, b.1 ≤ c.toNat ∧ c.toNat ≤ b.2 := by
  simp only [isBlank, Bool.or_eq_true, Bool.and_eq_true, decide_eq_true_eq] at h
  simp only [blankRanges, List.mem_cons, List.not_mem_nil, or_false, exists_eq_or_imp,
    exists_eq_left]
  omega

/-- No code point of the range is white space. -/
private def isApart (r : Nat × Nat) : Bool :=
  0x3000 < r.1 || blankRanges.all fun b => r.2 < b.1 || b.2 < r.1

private theorem not_inRanges_of_isBlank {ranges : List (Nat × Nat)}
    (hapart : ranges.all isApart = true) {c : Char} (h : isBlank c = true) :
    inRanges ranges c.toNat = false := by
  obtain ⟨hlast, b, hb, hlow, hhigh⟩ := exists_blankRange h
  refine Bool.eq_false_iff.mpr fun hin => ?_
  obtain ⟨r, hr, hrange⟩ := List.any_eq_true.mp hin
  have hr' := List.all_eq_true.mp hapart r hr
  rw [isApart, Bool.or_eq_true, List.all_eq_true, decide_eq_true_eq] at hr'
  simp only [Bool.and_eq_true, decide_eq_true_eq] at hrange
  rcases hr' with hfar | hall
  · omega
  · have hb' := hall b hb
    simp only [Bool.or_eq_true, decide_eq_true_eq] at hb'
    omega

/-- The ranges of word characters and of alphanumerics. -/
private def wordTables : List (List (Nat × Nat)) :=
  [alphabeticRanges, laterAlphabeticRanges, markRanges, connectorRanges, digitRanges,
    laterDigitRanges, numberRanges]

private theorem wordTables_apart : ∀ ranges ∈ wordTables, ranges.all isApart = true := by
  decide +kernel

/-- White space ends what stands before it, and is part of no key and of no accessor. -/
theorem blank_spec {c : Char} (h : isBlank c = true) :
    isBoundary c = true ∧ isAccessorTail c = false ∧ isQuote c = false ∧
      isAlphanumeric c = false ∧ c ≠ '.' ∧ c ≠ '_' ∧ c ≠ '[' ∧ c ≠ ']' := by
  have hne : ∀ d, isBlank d = false → c ≠ d := by
    rintro d hd rfl
    rw [hd] at h
    cases h
  have hline := hne '_' (by decide)
  have hpoint := hne '.' (by decide)
  have hdollar := hne '$' (by decide)
  have halnum : c.isAlphanum = false := by
    refine Bool.eq_false_iff.mpr fun hc => ?_
    obtain ⟨hlow, hhigh⟩ := isAlphanum_spec hc
    obtain ⟨-, b, hb, hmem⟩ := exists_blankRange h
    have hends : ∀ b ∈ blankRanges, b.2 < 48 ∨ 128 ≤ b.1 := by decide
    have hb' := hends b hb
    omega
  have hnone : ∀ ranges ∈ wordTables, inRanges ranges c.toNat = false :=
    fun ranges hranges => not_inRanges_of_isBlank (wordTables_apart ranges hranges) h
  simp only [wordTables, List.forall_mem_cons] at hnone
  obtain ⟨halphabetic, hlater, hmark, hconnector, hdigit, hlaterDigit, hnumber, -⟩ := hnone
  have hword : isWord c = false := by
    simp [isWord, halnum, hline, halphabetic, hmark, hdigit, hconnector,
      hne '\u200c' (by decide), hne '\u200d' (by decide)]
  refine ⟨?_, ?_, ?_, ?_, hpoint, hline, hne '[' (by decide), hne ']' (by decide)⟩
  · simp [isBoundary, hword, hpoint, hdollar]
  · simp [isAccessorTail, halnum, hline, hdollar]
  · simp [isQuote, hne '"' (by decide), hne '\'' (by decide)]
  · simp [isAlphanumeric, halnum, halphabetic, hlater, hdigit, hlaterDigit, hnumber]

/-- No accessor holds a blank. -/
theorem not_isBlank_of_isAccessorTail {c : Char} (h : isAccessorTail c = true) :
    isBlank c = false := by
  refine Bool.eq_false_iff.mpr fun hblank => ?_
  rw [(blank_spec hblank).2.1] at h
  cases h

/-- Quotes end what stands before them too. -/
theorem quote_spec {c : Char} (h : isQuote c = true) :
    isBoundary c = true ∧ isAccessorTail c = false ∧ isBlank c = false ∧ c ≠ '.' ∧ c ≠ '[' ∧
      c ≠ ']' := by
  rcases (isQuote_iff c).mp h with rfl | rfl
  · decide
  · decide

/-! ## Accessors -/

/-- The characters of an accessor. -/
def IsAccessor (accessor : List Char) : Prop :=
  accessor ≠ [] ∧ ∀ c ∈ accessor, isAccessorTail c = true

/-- An accessor that is accepted is one. -/
theorem isAccessor_spec {name : String} (h : isAccessor name = true) : IsAccessor name.toList := by
  rw [isAccessor] at h
  cases hname : name.toList with
  | nil => rw [hname] at h; cases h
  | cons c cs =>
      rw [hname, Bool.and_eq_true] at h
      refine ⟨List.cons_ne_nil _ _, ?_⟩
      intro d hd
      rcases List.mem_cons.mp hd with rfl | hd
      · have hhead := h.1
        rw [isAccessorHead, Bool.or_eq_true, Bool.or_eq_true] at hhead
        rw [isAccessorTail, Bool.or_eq_true, Bool.or_eq_true, Char.isAlphanum, Bool.or_eq_true]
        exact hhead.imp (Or.imp .inl id) id
      · exact List.all_eq_true.mp h.2 d hd

/-- A text that starts with the accessor starts with one of its characters. -/
theorem IsAccessor.front {accessor : List Char} (ha : IsAccessor accessor) {c : Char}
    {cs tail : List Char} (h : c :: cs = accessor ++ tail) : isAccessorTail c = true := by
  obtain ⟨hne, hchars⟩ := ha
  cases accessor with
  | nil => exact absurd rfl hne
  | cons d more =>
      obtain ⟨rfl, -⟩ := List.cons.inj h
      exact hchars _ List.mem_cons_self

/-! ## Keys -/

/-- A key that was read up to here goes on. -/
def goesOn : List Char → Bool
  | [] => false
  | c :: cs => isKeyTail c || (c = '.' && startsSegment cs)

/-- A key ends at what is in no segment and no point. -/
theorem not_goesOn_cons {c : Char} (hc : isAccessorTail c = false) (hpoint : c ≠ '.')
    (cs : List Char) : goesOn (c :: cs) = false := by
  have htail : isKeyTail c = false := by
    refine Bool.eq_false_iff.mpr fun h => ?_
    rw [isAccessorTail_of_isKeyTail h] at hc
    cases hc
  rw [goesOn, htail, decide_eq_false hpoint]
  rfl

/-- So it does at a brace with blanks before it. -/
theorem not_goesOn_closing {blanks : List Char} (hblanks : Blanks blanks) (rest : List Char) :
    goesOn (blanks ++ '\x7d' :: rest) = false := by
  cases blanks with
  | nil => rfl
  | cons c blanks =>
      obtain ⟨-, htail, -, -, hpoint, -⟩ := blank_spec (hblanks c List.mem_cons_self)
      exact not_goesOn_cons htail hpoint _

/-- The whole text is a key. -/
def IsKey (cs : List Char) : Prop := key? cs = some (cs, [])

instance : DecidablePred IsKey := fun cs => inferInstanceAs (Decidable (key? cs = some (cs, [])))

/-- A key is read on as long as it goes on. -/
theorem keyRest_cons (c : Char) (cs : List Char) :
    keyRest (c :: cs)
      = if goesOn (c :: cs) then (c :: (keyRest cs).1, (keyRest cs).2) else ([], c :: cs) := rfl

/-- What is read and what is left make up the text, and what is left does not go on. -/
theorem keyRest_spec (cs : List Char) :
    (keyRest cs).1 ++ (keyRest cs).2 = cs ∧ goesOn (keyRest cs).2 = false := by
  induction cs with
  | nil => exact ⟨rfl, rfl⟩
  | cons c cs ih =>
      rw [keyRest_cons]
      by_cases h : goesOn (c :: cs) = true
      · rw [if_pos h]
        exact ⟨congrArg (c :: ·) ih.1, ih.2⟩
      · rw [if_neg h]
        exact ⟨rfl, Bool.eq_false_iff.mpr h⟩

theorem startsSegment_append {cs : List Char} (h : startsSegment cs = true) (more : List Char) :
    startsSegment (cs ++ more) = true := by
  cases cs with
  | nil => cases h
  | cons c cs => exact h

theorem goesOn_append {cs : List Char} (h : goesOn cs = true) (more : List Char) :
    goesOn (cs ++ more) = true := by
  cases cs with
  | nil => cases h
  | cons c cs =>
      rw [goesOn, Bool.or_eq_true, Bool.and_eq_true] at h
      rw [List.cons_append, goesOn, Bool.or_eq_true, Bool.and_eq_true]
      exact h.imp id fun hpoint => ⟨hpoint.1, startsSegment_append hpoint.2 more⟩

/-- Nothing is read of what does not go on. -/
theorem keyRest_of_not_goesOn {rest : List Char} (h : goesOn rest = false) :
    keyRest rest = ([], rest) := by
  cases rest with
  | nil => rfl
  | cons c cs => rw [keyRest_cons, if_neg (by simp [h])]

/-- Behind what is read as a whole, reading goes on. -/
theorem keyRest_append {k : List Char} (hk : keyRest k = (k, [])) (rest : List Char) :
    keyRest (k ++ rest) = (k ++ (keyRest rest).1, (keyRest rest).2) := by
  induction k with
  | nil => rfl
  | cons c k ih =>
      rw [keyRest_cons] at hk
      split at hk
      · next hc =>
        have hktail : keyRest k = (k, []) := by
          obtain ⟨hfst, hsnd⟩ := Prod.mk.inj hk
          exact Prod.ext (List.cons.inj hfst).2 hsnd
        have hgoes : goesOn (c :: (k ++ rest)) = true := goesOn_append hc rest
        rw [List.cons_append, keyRest_cons, if_pos hgoes, ih hktail]
        rfl
      · cases hk

/-- What was read is read again from itself alone. -/
theorem keyRest_fst (cs : List Char) : keyRest (keyRest cs).1 = ((keyRest cs).1, []) := by
  induction cs with
  | nil => rfl
  | cons c cs ih =>
      rw [keyRest_cons]
      split
      · next hc =>
        dsimp only
        have hgoes : goesOn (c :: (keyRest cs).1) = true := by
          rw [goesOn, Bool.or_eq_true, Bool.and_eq_true] at hc ⊢
          refine hc.imp id fun h => ⟨h.1, ?_⟩
          -- the segment that starts is read, so it starts in what was read too
          cases cs with
          | nil => cases h.2
          | cons d ds =>
              have hd : isKeyHead d = true := h.2
              have hread : goesOn (d :: ds) = true := by
                rw [goesOn, isKeyTail_of_isKeyHead hd]
                rfl
              rw [keyRest_cons, if_pos hread]
              exact hd
        rw [keyRest_cons, if_pos hgoes, ih]
      · rfl

/-- A key is a text that starts as one and is read to its end. -/
theorem isKey_iff (k : List Char) :
    IsKey k ↔ startsSegment k = true ∧ keyRest k = (k, []) := by
  rw [IsKey, key?]
  by_cases h : startsSegment k = true
  · rw [if_pos h, Option.some.injEq]
    exact ⟨fun hk => ⟨h, hk⟩, fun hk => hk.2⟩
  · rw [if_neg h]
    exact iff_of_false (by rintro ⟨⟩) fun hk => h hk.1

/-- **KEYS**: the longest key at the front. -/
theorem key?_eq_some {cs k rest : List Char} :
    key? cs = some (k, rest) ↔ IsKey k ∧ goesOn rest = false ∧ cs = k ++ rest := by
  constructor
  · intro h
    rw [key?] at h
    split at h
    · next hstart =>
      have hread : keyRest cs = (k, rest) := Option.some.inj h
      obtain ⟨hglue, hrest⟩ := keyRest_spec cs
      have hagain := keyRest_fst cs
      rw [hread] at hglue hrest hagain
      refine ⟨(isKey_iff k).mpr ⟨?_, hagain⟩, hrest, hglue.symm⟩
      -- nothing read would mean that nothing goes on where a segment starts
      cases k with
      | nil =>
          rw [← hglue] at hstart
          cases rest with
          | nil => cases hstart
          | cons c more =>
              have hc : isKeyHead c = true := hstart
              rw [goesOn, isKeyTail_of_isKeyHead hc] at hrest
              cases hrest
      | cons c more =>
          rw [← hglue] at hstart
          exact hstart
    · cases h
  · rintro ⟨hk, hrest, rfl⟩
    obtain ⟨hstart, hread⟩ := (isKey_iff k).mp hk
    rw [key?, if_pos (startsSegment_append hstart rest), keyRest_append hread,
      keyRest_of_not_goesOn hrest, List.append_nil]

/-- A key is told from what follows it, if that does not go on. -/
theorem key_unique {k k' rest rest' : List Char} (hk : IsKey k) (hk' : IsKey k')
    (hends : goesOn rest = false) (hends' : goesOn rest' = false) (he : k ++ rest = k' ++ rest') :
    k = k' ∧ rest = rest' := by
  have hread : key? (k ++ rest) = some (k, rest) := key?_eq_some.mpr ⟨hk, hends, rfl⟩
  have hread' : key? (k ++ rest) = some (k', rest') := key?_eq_some.mpr ⟨hk', hends', he⟩
  rw [hread, Option.some.injEq, Prod.mk.injEq] at hread'
  exact hread'

/-- A key is made of segments and points. -/
theorem keyRest_chars {k : List Char} (h : keyRest k = (k, [])) :
    ∀ c ∈ k, isKeyTail c = true ∨ c = '.' := by
  induction k with
  | nil => exact fun _ hc => absurd hc List.not_mem_nil
  | cons c k ih =>
      rw [keyRest_cons] at h
      split at h
      · next hc =>
        obtain ⟨hfst, hsnd⟩ := Prod.mk.inj h
        intro d hd
        rcases List.mem_cons.mp hd with rfl | hd
        · rw [goesOn, Bool.or_eq_true, Bool.and_eq_true, decide_eq_true_eq] at hc
          exact hc.imp id And.left
        · exact ih (Prod.ext (List.cons.inj hfst).2 hsnd) d hd
      · cases h

/-- A key has no other characters than those of its segments and points. -/
theorem IsKey.chars {k : List Char} (h : IsKey k) : ∀ c ∈ k, isKeyTail c = true ∨ c = '.' :=
  keyRest_chars ((isKey_iff k).mp h).2

/-- Nothing in a key ends what stands before it. -/
theorem IsKey.not_isBoundary {k : List Char} (h : IsKey k) : ∀ c ∈ k, isBoundary c = false := by
  intro c hc
  rcases h.chars c hc with htail | rfl
  · exact not_isBoundary_of_isAccessorTail (isAccessorTail_of_isKeyTail htail)
  · decide

/-- Without points it is one segment. -/
theorem IsKey.flat {k : List Char} (h : IsKey k) (hflat : '.' ∉ k) :
    ∀ c ∈ k, isKeyTail c = true := by
  intro c hc
  rcases h.chars c hc with hc' | rfl
  · exact hc'
  · exact absurd hc hflat

theorem IsKey.ne_nil {k : List Char} (h : IsKey k) : k ≠ [] := by
  rintro rfl
  cases h

/-- No key holds what ends it, whatever it is. -/
theorem IsKey.not_mem {k : List Char} (h : IsKey k) {c : Char} (hc : isAccessorTail c = false)
    (hpoint : c ≠ '.') : c ∉ k := by
  intro hmem
  rcases h.chars c hmem with htail | he
  · rw [isAccessorTail_of_isKeyTail htail] at hc
    cases hc
  · exact hpoint he

private theorem keyRest_point (x y : List Char) :
    keyRest (x ++ '.' :: y) = (x ++ '.' :: y, []) ↔ keyRest x = (x, []) ∧ IsKey y := by
  -- one more character is read on both sides or on neither
  have hstep : ∀ (c : Char) (cs : List Char),
      keyRest (c :: cs) = (c :: cs, []) ↔ goesOn (c :: cs) = true ∧ keyRest cs = (cs, []) := by
    intro c cs
    rw [keyRest_cons]
    by_cases h : goesOn (c :: cs) = true
    · rw [if_pos h]
      simp [h, Prod.ext_iff]
    · rw [if_neg h]
      exact iff_of_false (by rintro ⟨⟩) fun hk => h hk.1
  induction x with
  | nil =>
      rw [List.nil_append, hstep, isKey_iff]
      have hpoint : goesOn ('.' :: y) = startsSegment y := by
        show (isKeyTail '.' || (decide ('.' = '.') && startsSegment y)) = startsSegment y
        rfl
      rw [hpoint]
      exact ⟨fun h => ⟨rfl, h⟩, fun h => h.2⟩
  | cons c x ih =>
      have hgoes : goesOn (c :: (x ++ '.' :: y)) = goesOn (c :: x) := by
        cases x with
        | nil => rfl
        | cons d ds => rfl
      rw [List.cons_append, hstep, hstep, hgoes, and_assoc]
      exact and_congr_right fun _ => ih

/-- **DOTTED KEYS**: two texts joined by a point are a key exactly if both are. -/
theorem isKey_point (x y : List Char) : IsKey (x ++ '.' :: y) ↔ IsKey x ∧ IsKey y := by
  rw [isKey_iff, keyRest_point, isKey_iff x]
  have hstart : startsSegment (x ++ '.' :: y) = startsSegment x := by
    cases x with
    | nil => rfl
    | cons c cs => rfl
  rw [hstart, and_assoc]

/-- Segments joined by points are a key exactly if each of them is one. -/
theorem isKey_glue {ss : List (List Char)} (hne : ss ≠ []) :
    IsKey (glue '.' ss) ↔ ∀ s ∈ ss, IsKey s := by
  induction ss with
  | nil => exact absurd rfl hne
  | cons s rest ih =>
      cases rest with
      | nil => rw [glue, List.forall_mem_singleton]
      | cons t rest => rw [glue, isKey_point, ih (List.cons_ne_nil _ _), List.forall_mem_cons (a := s)]

/-! ## Parts of references -/

@[simp] theorem skip?_eq_some {c : Char} {cs rest : List Char} :
    skip? c cs = some rest ↔ cs = c :: rest := by
  cases cs with
  | nil => exact iff_of_false (by rintro ⟨⟩) (by rintro ⟨⟩)
  | cons d ds =>
      rw [skip?]
      split
      · next h => rw [h]; simp
      · next h => exact iff_of_false (by rintro ⟨⟩) fun he => h (List.cons.inj he).1

/-- An opening brace with blanks behind it ends with one of these characters. -/
theorem brace_ne_concat {pre init blanks : List Char} {c : Char} (hblanks : Blanks blanks)
    (hc : isBlank c = false) (hbrace : c ≠ '\x7b') : pre ++ '\x7b' :: blanks ≠ init ++ [c] := by
  intro he
  have hlast : ('\x7b' :: blanks).getLast? = some c := by
    have hends := congrArg List.getLast? he
    rw [List.getLast?_concat, List.getLast?_append, List.getLast?_cons] at hends
    rw [List.getLast?_cons]
    exact hends
  rcases List.mem_cons.mp (List.mem_of_getLast? hlast) with he | hmem
  · exact hbrace he
  · rw [hblanks c hmem] at hc
    cases hc

/-- What stands between an accessor and what it is followed by. -/
theorem afterAccessor_eq_some {α : Type} {accessor cs : List Char} {sep : Char}
    {read? : List Char → Option α} {a : α} :
    ((after? accessor cs).bind (skip? sep)).bind read? = some a ↔
      ∃ rest, cs = accessor ++ sep :: rest ∧ read? rest = some a := by
  simp only [Option.bind_eq_some_iff, after?_eq_some, skip?_eq_some]
  constructor
  · rintro ⟨rest, ⟨_, rfl, rfl⟩, hread⟩
    exact ⟨rest, rfl, hread⟩
  · rintro ⟨rest, rfl, hread⟩
    exact ⟨rest, ⟨_, rfl, rfl⟩, hread⟩

/-- The accessor, a point and the longest key. -/
theorem member?_eq_some {accessor cs k rest : List Char} :
    member? accessor cs = some (k, rest) ↔
      IsKey k ∧ goesOn rest = false ∧ cs = accessor ++ '.' :: (k ++ rest) := by
  rw [member?, afterAccessor_eq_some]
  simp only [key?_eq_some]
  constructor
  · rintro ⟨_, rfl, hk, hrest, rfl⟩
    exact ⟨hk, hrest, rfl⟩
  · rintro ⟨hk, hrest, rfl⟩
    exact ⟨_, rfl, hk, hrest, rfl⟩

/-- Arguments end at the first closing parenthesis. -/
theorem afterParenthesis?_eq_some {cs rest : List Char} :
    afterParenthesis? cs = some rest ↔ ∃ inside, ')' ∉ inside ∧ cs = inside ++ ')' :: rest := by
  rw [afterParenthesis?]
  constructor
  · intro h
    split at h
    · next c more hdrop =>
      cases h
      obtain ⟨inside, hinside, hc, rfl⟩ := dropWhile_eq_cons.mp hdrop
      have hc : c = ')' := by simpa using hc
      subst hc
      exact ⟨inside, fun hmem => by simpa using hinside _ hmem, rfl⟩
    · cases h
  · rintro ⟨inside, hinside, rfl⟩
    have hdrop : (inside ++ ')' :: rest).dropWhile (· ≠ ')') = ')' :: rest := by
      refine dropWhile_eq_cons.mpr ⟨inside, ?_, by simp, rfl⟩
      intro c hc
      simpa using fun he : c = ')' => hinside (he ▸ hc)
    rw [hdrop]

/-- Blanks are skipped up to a character that is none. -/
theorem skipBlanks_eq_cons {cs rest : List Char} {c : Char} :
    skipBlanks cs = c :: rest ↔ ∃ bs, Blanks bs ∧ isBlank c = false ∧ cs = bs ++ c :: rest :=
  dropWhile_eq_cons

/-- Blanks and a character that is none. -/
theorem skip?_skipBlanks {cs rest : List Char} {c : Char} (hc : isBlank c = false) :
    skip? c (skipBlanks cs) = some rest ↔ ∃ bs, Blanks bs ∧ cs = bs ++ c :: rest := by
  rw [skip?_eq_some, skipBlanks_eq_cons]
  constructor
  · rintro ⟨bs, hbs, -, hcs⟩
    exact ⟨bs, hbs, hcs⟩
  · rintro ⟨bs, hbs, hcs⟩
    exact ⟨bs, hbs, hc, hcs⟩

end MessageKeys.Reference
