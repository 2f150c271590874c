import MessageKeys.Proofs.Reference.Literal

/-! # The syntax of references — the grammar without its readers

    Keys and references are told here by how they are put together, as one writes them down,
    and not by how they are read: `KeySyntax` builds keys from identifiers, and `Writes`
    has one constructor for each form of reference.  Nothing is said of longest matches or of
    how far one looks ahead, except for the reactive form: it ends with its key, so that key
    has to be the longest one (`IsLongest`).

    The readers agree with it: `isKey_iff_keySyntax` for keys, and `front?_eq_some` for all six
    forms at once. -/

namespace MessageKeys.Reference

open Text

/-! ## Keys -/

/-- An identifier: a letter or `_`, then letters, digits and `_`. -/
def IsSegment (s : List Char) : Prop :=
  ∃ c cs, s = c :: cs ∧ isKeyHead c = true ∧ ∀ d ∈ cs, isKeyTail d = true

/-- Keys are identifiers joined by points. -/
inductive KeySyntax : List Char → Prop where
  | single {s : List Char} : IsSegment s → KeySyntax s
  | dotted {s k : List Char} : IsSegment s → KeySyntax k → KeySyntax (s ++ '.' :: k)

theorem keyRest_segment {cs : List Char} (h : ∀ c ∈ cs, isKeyTail c = true) :
    keyRest cs = (cs, []) := by
  induction cs with
  | nil => rfl
  | cons c cs ih =>
      have hgoes : goesOn (c :: cs) = true := by
        rw [goesOn, h c List.mem_cons_self]
        rfl
      rw [keyRest_cons, if_pos hgoes, ih fun d hd => h d (List.mem_cons_of_mem _ hd)]

/-- A segment alone is a key. -/
theorem IsSegment.isKey {s : List Char} (h : IsSegment s) : IsKey s := by
  obtain ⟨c, cs, rfl, hhead, htail⟩ := h
  refine (isKey_iff _).mpr ⟨hhead, keyRest_segment ?_⟩
  intro d hd
  rcases List.mem_cons.mp hd with rfl | hd
  · exact isKeyTail_of_isKeyHead hhead
  · exact htail d hd

/-- A key without a point is an identifier. -/
theorem IsKey.isSegment {s : List Char} (h : IsKey s) (hflat : '.' ∉ s) : IsSegment s := by
  cases s with
  | nil => exact absurd rfl h.ne_nil
  | cons c cs =>
      have hhead : startsSegment (c :: cs) = true := ((isKey_iff _).mp h).1
      exact ⟨c, cs, rfl, hhead, fun d hd => h.flat hflat d (List.mem_cons_of_mem _ hd)⟩

/-- Segments with points between them are a key. -/
theorem keySyntax_glue {ss : List (List Char)} (hne : ss ≠ []) (h : ∀ s ∈ ss, IsSegment s) :
    KeySyntax (glue '.' ss) := by
  induction ss with
  | nil => exact absurd rfl hne
  | cons s rest ih =>
      obtain ⟨hs, hrest⟩ := List.forall_mem_cons.mp h
      cases rest with
      | nil => exact .single hs
      | cons t rest => exact .dotted hs (ih (List.cons_ne_nil _ _) hrest)

/-- **KEYS BY SYNTAX**: a text is read as a key as a whole exactly if it is built as one. -/
theorem isKey_iff_keySyntax (k : List Char) : IsKey k ↔ KeySyntax k := by
  constructor
  · intro h
    have hglue := glue_cut '.' k
    rw [← hglue] at h ⊢
    have hpieces := (isKey_glue (cut_ne_nil '.' k)).mp h
    exact keySyntax_glue (cut_ne_nil '.' k) fun s hs =>
      (hpieces s hs).isSegment (not_mem_of_mem_cut hs)
  · intro h
    induction h with
    | single hs => exact hs.isKey
    | dotted hs _ ih => exact (isKey_point _ _).mpr ⟨hs.isKey, ih⟩

/-! ## Longest keys -/

/-- No longer key than this one stands at the front of this one and what follows it. -/
def IsLongest (k rest : List Char) : Prop :=
  ∀ more, more ≠ [] → more <+: rest → ¬ KeySyntax (k ++ more)

/-- A key is longest exactly if it does not go on. -/
theorem isLongest_iff {k : List Char} (hk : IsKey k) {rest : List Char} :
    IsLongest k rest ↔ goesOn rest = false := by
  obtain ⟨hstart, hread⟩ := (isKey_iff k).mp hk
  constructor
  · intro h
    refine Bool.eq_false_iff.mpr fun hgoes => ?_
    -- what is read of the rest makes the key longer
    obtain ⟨hsplit, -⟩ := keyRest_spec rest
    have hlonger : IsKey (k ++ (keyRest rest).1) := by
      refine (isKey_iff _).mpr ⟨startsSegment_append hstart _, ?_⟩
      rw [keyRest_append hread, keyRest_fst]
    refine h _ ?_ ⟨_, hsplit⟩ ((isKey_iff_keySyntax _).mp hlonger)
    cases rest with
    | nil => cases hgoes
    | cons c cs =>
        rw [keyRest_cons, if_pos hgoes]
        exact List.cons_ne_nil _ _
  · rintro hends more hne ⟨after, rfl⟩ hkey
    have hmore : goesOn more = false := by
      refine Bool.eq_false_iff.mpr fun hgoes => ?_
      rw [goesOn_append hgoes after] at hends
      cases hends
    have hwhole := ((isKey_iff _).mp ((isKey_iff_keySyntax _).mpr hkey)).2
    rw [keyRest_append hread, keyRest_of_not_goesOn hmore] at hwhole
    exact hne (Prod.mk.inj hwhole).2

/-! ## References -/

/-- How a reference of a form to a key is written. -/
inductive Writes (accessor : List Char) : Form → List Char → List Char → Prop where
  | templateCall {k blanks args blanks' : List Char} : KeySyntax k → Blanks blanks → ')' ∉ args →
      Blanks blanks' →
      Writes accessor .templateCall k
        ('\x7b' :: (blanks ++ (accessor ++ '.' :: (k ++ '(' :: (args ++ ')' :: (blanks' ++ ['\x7d']))))))
  | templateRef {k blanks blanks' : List Char} : KeySyntax k → Blanks blanks → Blanks blanks' →
      Writes accessor .templateRef k
        ('\x7b' :: (blanks ++ (accessor ++ '.' :: (k ++ (blanks' ++ ['\x7d'])))))
  | bareCall {k : List Char} : KeySyntax k →
      Writes accessor .bareCall k (accessor ++ '.' :: (k ++ ['(', ')']))
  | callWithArgs {k args : List Char} : KeySyntax k → args ≠ [] → ')' ∉ args →
      Writes accessor .callWithArgs k (accessor ++ '.' :: (k ++ '(' :: (args ++ [')'])))
  | reactive {k : List Char} : KeySyntax k →
      Writes accessor .reactive k ('$' :: (accessor ++ '.' :: k))
  | dynamicLookup {k : List Char} (present : Bool) (b : Brackets) : KeySyntax k →
      Writes accessor .dynamicLookup k
        (Renaming.dollar present ++ (accessor ++ '[' :: b.inside k))

variable {accessor : List Char} {form : Form} {k literal : List Char}

theorem Writes.isKey (h : Writes accessor form k literal) : IsKey k := by
  refine (isKey_iff_keySyntax k).mpr ?_
  cases h with
  | templateCall hk => exact hk
  | templateRef hk => exact hk
  | bareCall hk => exact hk
  | callWithArgs hk => exact hk
  | reactive hk => exact hk
  | dynamicLookup _ _ hk => exact hk

/-- A reference holds its key. -/
theorem Writes.holds_key (h : Writes accessor form k literal) : k <:+: literal := by
  cases h with
  | @templateCall _ bs args bs' =>
      refine ⟨'\x7b' :: (bs ++ (accessor ++ ['.'])), '(' :: (args ++ ')' :: (bs' ++ ['\x7d'])), ?_⟩
      simp
  | @templateRef _ bs bs' =>
      refine ⟨'\x7b' :: (bs ++ (accessor ++ ['.'])), bs' ++ ['\x7d'], ?_⟩
      simp
  | bareCall => exact ⟨accessor ++ ['.'], ['(', ')'], by simp⟩
  | @callWithArgs _ args => exact ⟨accessor ++ ['.'], '(' :: (args ++ [')']), by simp⟩
  | reactive => exact ⟨'$' :: (accessor ++ ['.']), [], by simp⟩
  | dynamicLookup present b =>
      refine ⟨Renaming.dollar present ++ (accessor ++ '[' :: (b.before ++ [b.opening])),
        b.closing :: (b.after ++ [']']), ?_⟩
      simp [Brackets.inside]

/-- No reference is empty. -/
theorem Writes.ne_nil (h : Writes accessor form k literal) : literal ≠ [] := by
  rintro rfl
  exact h.isKey.ne_nil (List.infix_nil.mp h.holds_key)

/-- **REFERENCES BY SYNTAX**: a reference is read at the front of a text exactly if one is
    written there; a reactive one has the longest key. -/
theorem front?_eq_some (ha : IsAccessor accessor) {cs rest : List Char} :
    Literal.front? form accessor cs = some (k, rest) ↔
      ∃ literal, cs = literal ++ rest ∧ Writes accessor form k literal ∧
        (form = .reactive → IsLongest k rest) := by
  constructor
  · intro h
    cases form with
    | bareCall =>
        obtain ⟨hk, rfl⟩ := Literal.bareCall?_eq_some.mp h
        exact ⟨_, by simp, .bareCall ((isKey_iff_keySyntax k).mp hk), by rintro ⟨⟩⟩
    | callWithArgs =>
        obtain ⟨hk, args, hne, hargs, rfl⟩ := Literal.callWithArgs?_eq_some.mp h
        exact ⟨_, by simp, .callWithArgs ((isKey_iff_keySyntax k).mp hk) hne hargs, by rintro ⟨⟩⟩
    | reactive =>
        obtain ⟨hk, hends, rfl⟩ := Literal.reactive?_eq_some.mp h
        exact ⟨_, by simp, .reactive ((isKey_iff_keySyntax k).mp hk),
          fun _ => (isLongest_iff hk).mpr hends⟩
    | templateCall =>
        rw [Literal.front?, Literal.templateCall?_eq_some ha] at h
        obtain ⟨hk, bs, args, bs', hbs, hargs, hbs', rfl⟩ := h
        exact ⟨_, by simp, .templateCall ((isKey_iff_keySyntax k).mp hk) hbs hargs hbs',
          by rintro ⟨⟩⟩
    | templateRef =>
        rw [Literal.front?, Literal.templateRef?_eq_some ha] at h
        obtain ⟨hk, bs, bs', hbs, hbs', rfl⟩ := h
        exact ⟨_, by simp, .templateRef ((isKey_iff_keySyntax k).mp hk) hbs hbs', by rintro ⟨⟩⟩
    | dynamicLookup =>
        obtain ⟨hk, present, b, rfl⟩ := (Literal.dynamicLookup?_eq_some ha).mp h
        exact ⟨_, by simp, .dynamicLookup present b ((isKey_iff_keySyntax k).mp hk),
          by rintro ⟨⟩⟩
  · rintro ⟨literal, rfl, hwrites, hlongest⟩
    have hk := hwrites.isKey
    cases hwrites with
    | bareCall => exact Literal.bareCall?_eq_some.mpr ⟨hk, by simp⟩
    | callWithArgs _ hne hargs =>
        exact Literal.callWithArgs?_eq_some.mpr ⟨hk, _, hne, hargs, by simp⟩
    | reactive =>
        exact Literal.reactive?_eq_some.mpr ⟨hk, (isLongest_iff hk).mp (hlongest rfl), by simp⟩
    | templateCall _ hbs hargs hbs' =>
        rw [Literal.front?, Literal.templateCall?_eq_some ha]
        refine ⟨hk, _, _, _, hbs, hargs, hbs', ?_⟩
        simp
    | templateRef _ hbs hbs' =>
        rw [Literal.front?, Literal.templateRef?_eq_some ha]
        refine ⟨hk, _, _, hbs, hbs', ?_⟩
        simp
    | dynamicLookup present b =>
        exact (Literal.dynamicLookup?_eq_some ha).mpr ⟨hk, present, b, by simp⟩

end MessageKeys.Reference
