import MessageKeys.Proofs.Reference.Places

/-! # Which references to the old key remain

    A renaming and the scanner decide on their own what a reference is, and they do not agree
    everywhere.  A reactive reference `$m.old` that goes on like a longer key for the renaming
    but not for the scanner is skipped and still seen (`Skipped`).  A reference right behind
    a replaced one is not looked for, but it is seen if the new text ends in a boundary
    (`BehindReplaced`).

    `old_key_remains_iff` says that there is no other way: a text that was gone over still
    refers to the old key exactly if one of the two happened. -/

namespace MessageKeys.Reference

open Text

namespace Renaming

variable {r : Renaming} {free free' : Bool} {cs : List Char} {ps : List Piece}

/-- A reactive reference to the old key, where one may start, that for the renaming is the
    start of a longer one. -/
def Skipped (r : Renaming) (cs : List Char) : Prop :=
  ∃ before rest, cs = before ++ (r.memberText true ++ rest) ∧ freeAfter true before = true ∧
    goesOn rest = false ∧ continues rest = true

/-- In the result, a reference to the old key stands right behind one that was replaced. -/
def BehindReplaced (r : Renaming) (cs : List Char) : Prop :=
  ∃ ds before after es, r.passOver true true cs = ds ++ .replaced before after :: es ∧
    ∃ form : Form, form.isTemplate = false ∧
      Stands form r.accessor r.oldKey (es.flatMap Piece.new)

/-- Two references to the old key of one kind stand side by side. -/
def Adjacent (r : Renaming) (cs : List Char) : Prop :=
  ∃ before rest,
    (∃ present present', cs = before ++ (r.memberText present ++ (r.memberText present' ++ rest))) ∨
      ∃ present present', ∃ b b' : Brackets,
        cs = before ++ (r.lookupText present b ++ (r.lookupText present' b' ++ rest))

/-! ## What remains was skipped or stands behind a replaced reference -/

/-- A reference that the pass leaves at its start is a member that goes on for the renaming, or
    one of a kind that the pass does not look for there. -/
theorem Passed.standing (h : r.Dotted) (hpassed : Passed r free free' cs ps)
    (hat : r.MemberAt (ps.flatMap Piece.new) ∨ r.LookupAt (ps.flatMap Piece.new)) :
    (∃ rest, cs = r.memberText true ++ rest ∧ goesOn rest = false ∧
        Renaming.continues rest = true) ∨
      (free = false ∧ ∃ present rest, cs = r.memberText present ++ rest) ∨
      (free' = false ∧ r.LookupAt cs) := by
  rcases hat with ⟨present, rest, he, hends, hcloses⟩ | hlookup
  · obtain ⟨before, hbefore, hrest, hcontinues⟩ := hpassed.member_at_front h.toDotted he
    cases free with
    | false => exact .inr (.inl ⟨rfl, present, before, hbefore⟩)
    | true =>
        have hgoes := hcontinues rfl
        rw [hrest.goesOn] at hends
        rcases hcloses with rfl | ⟨d, more, rfl, hcloses⟩
        · exact .inl ⟨before, hbefore, hends, hgoes⟩
        · -- nothing that closes a member goes on with it
          obtain ⟨halnum, hline, hpoint, -⟩ := closesMember_spec hcloses
          rw [← hrest.continues, Renaming.continues, halnum, decide_eq_false hline,
            decide_eq_false hpoint] at hgoes
          cases hgoes
  · exact .inr (.inr (hpassed.lookup_at_front h.toDotted hlookup))

/-- Where references of both kinds may start, only a member is left that goes on. -/
theorem Passed.skipped (h : r.Dotted) (hpassed : Passed r true true cs ps)
    (hat : r.MemberAt (ps.flatMap Piece.new) ∨ r.LookupAt (ps.flatMap Piece.new)) :
    ∃ rest, cs = r.memberText true ++ rest ∧ goesOn rest = false ∧
      Renaming.continues rest = true := by
  rcases hpassed.standing h hat with hmember | ⟨hfree, -⟩ | ⟨hfree, -⟩
  · exact hmember
  · cases hfree
  · cases hfree

/-- **WHAT REMAINS**: a reference to the old key that stands in the result was skipped, or it
    stands right behind one that was replaced. -/
theorem skipped_or_behind (h : r.Dotted) {pre post : List Char}
    (hout : (r.passOver true true cs).flatMap Piece.new = pre ++ post)
    (hfree : freeAfter true pre = true) (hat : r.MemberAt post ∨ r.LookupAt post) :
    r.Skipped cs ∨ (∃ init, pre = init ++ [']']) ∧
      ∃ ds before after es, r.passOver true true cs = ds ++ .replaced before after :: es ∧
        post = es.flatMap Piece.new := by
  have hpassed := passed_passOver h.toDotted true true cs
  rcases freeAfter_iff.mp hfree with rfl | ⟨init, c, rfl, hc⟩
  · rw [List.nil_append] at hout
    rw [← hout] at hat
    obtain ⟨rest, rfl, hends, hcontinues⟩ := hpassed.skipped h hat
    exact .inl ⟨[], rest, rfl, rfl, hends, hcontinues⟩
  · rw [List.append_assoc] at hout
    generalize r.passOver true true cs = ps at hpassed hout ⊢
    cases hpassed.behind hc hout with
    | @free before rest ds es passed =>
        obtain ⟨rest, rfl, hends, hcontinues⟩ := passed.skipped h hat
        refine .inl ⟨before ++ [c], rest, ?_, ?_, hends, hcontinues⟩
        · rw [List.append_assoc]
          rfl
        · rw [freeAfter_append]
          exact hc
    | @replaced _ before after ds es bracket =>
        subst bracket
        exact .inr ⟨⟨init, rfl⟩, ds, before, after, es, rfl, rfl⟩
    | inside hquote hne hsplit => exact absurd hat (not_inside h hquote (newText_split h hc hne hsplit))

/-! ## References in templates -/

theorem freeAfter_blanks {bs : List Char} (hbs : Blanks bs) : freeAfter true bs = true := by
  induction bs with
  | nil => rfl
  | cons b bs ih =>
      rw [freeAfter, (blank_spec (hbs b List.mem_cons_self)).1]
      exact ih fun c hc => hbs c (List.mem_cons_of_mem _ hc)

/-- A template call holds a call. -/
theorem stands_call_of_template {accessor k : List Char} (ha : IsAccessor accessor)
    (h : Stands .templateCall accessor k cs) :
    ∃ bs rest form, Blanks bs ∧ cs = '\x7b' :: bs ++ rest ∧ Form.isTemplate form = false ∧
      Stands form accessor k rest := by
  obtain ⟨more, hfront⟩ := h
  obtain ⟨hk, bs, args, bs', hbs, hargs, -, hline⟩ := (Literal.templateCall?_eq_some ha).mp hfront
  have hne : accessor ++ '.' :: (k ++ '(' :: (args ++ ')' :: (bs' ++ '\x7d' :: more))) ≠ [] :=
    List.append_ne_nil_of_left_ne_nil ha.1 _
  rw [← List.cons_append] at hline
  obtain ⟨rest, hcs, hrest⟩ := firstLine_eq_append hline hne
  cases args with
  | nil =>
      refine ⟨bs, rest, .bareCall, hbs, hcs, rfl, bs' ++ '\x7d' :: more, ?_⟩
      exact Literal.bareCall?_eq_some.mpr ⟨hk, hrest⟩
  | cons c args =>
      refine ⟨bs, rest, .callWithArgs, hbs, hcs, rfl, bs' ++ '\x7d' :: more, ?_⟩
      exact Literal.callWithArgs?_eq_some.mpr ⟨hk, c :: args, List.cons_ne_nil _ _, hargs, hrest⟩

/-- A template reference holds a member that is closed. -/
theorem memberAt_of_template (h : r.Dotted) (hstands : Stands .templateRef r.accessor r.oldKey cs) :
    ∃ bs rest, Blanks bs ∧ cs = '\x7b' :: bs ++ rest ∧ r.MemberAt rest := by
  obtain ⟨more, hfront⟩ := hstands
  obtain ⟨-, bs, bs', hbs, hbs', hline⟩ := (Literal.templateRef?_eq_some h.accessor).mp hfront
  obtain ⟨tail, hcs, -⟩ := firstLine_spec cs
  refine ⟨bs, r.memberText false ++ (bs' ++ '\x7d' :: (more ++ tail)), hbs, ?_, false, _, rfl, ?_⟩
  · rw [hcs, hline, memberText_append]
    simp [access, dollar]
  · refine ⟨not_goesOn_closing hbs' _, .inr ?_⟩
    cases bs' with
    | nil => exact ⟨_, _, rfl, rfl⟩
    | cons b bs' =>
        refine ⟨b, _, rfl, ?_⟩
        rw [closesMember, hbs' b List.mem_cons_self, Bool.or_true]

/-- Whatever refers to the old key in the result was skipped or stands behind a reference that
    was replaced. -/
theorem remains_only (h : r.Dotted) {form : Form} {pre post : List Char}
    (hout : (r.passOver true true cs).flatMap Piece.new = pre ++ post)
    (hfree : (form.isTemplate || freeAfter true pre) = true)
    (hstands : Stands form r.accessor r.oldKey post) : r.Skipped cs ∨ r.BehindReplaced cs := by
  -- outside of templates the reference itself stands where references may start
  have houtside : ∀ {form : Form} {pre post : List Char},
      (r.passOver true true cs).flatMap Piece.new = pre ++ post → form.isTemplate = false →
      freeAfter true pre = true → Stands form r.accessor r.oldKey post →
      r.Skipped cs ∨ r.BehindReplaced cs := by
    intro form pre post hout hform hfree hstands
    rcases skipped_or_behind h hout hfree (memberAt_or_lookupAt h hform hstands) with
      hskipped | ⟨-, ds, before, after, es, hpieces, rfl⟩
    · exact .inl hskipped
    · exact .inr ⟨ds, before, after, es, hpieces, form, hform, hstands⟩
  have hbrace : ∀ {bs : List Char}, Blanks bs → freeAfter true (pre ++ '\x7b' :: bs) = true := by
    intro bs hbs
    rw [freeAfter_append]
    exact freeAfter_blanks hbs
  cases hform : form.isTemplate with
  | false =>
      rw [hform, Bool.false_or] at hfree
      exact houtside hout hform hfree hstands
  | true =>
      cases form with
      | templateCall =>
          obtain ⟨bs, rest, call, hbs, rfl, hcall, hstands⟩ :=
            stands_call_of_template h.accessor hstands
          rw [← List.append_assoc] at hout
          exact houtside hout hcall (hbrace hbs) hstands
      | templateRef =>
          obtain ⟨bs, rest, hbs, rfl, hat⟩ := memberAt_of_template h hstands
          rw [← List.append_assoc] at hout
          rcases skipped_or_behind h hout (hbrace hbs) (.inl hat) with hskipped | ⟨⟨init, he⟩, -⟩
          · exact .inl hskipped
          · exact absurd he (brace_ne_concat hbs (by decide) (by decide))
      | bareCall => cases hform
      | callWithArgs => cases hform
      | reactive => cases hform
      | dynamicLookup => cases hform

/-! ## Both remain -/

theorem freeAfter_mono {cs : List Char} (h : freeAfter false cs = true) :
    freeAfter true cs = true := by
  cases cs with
  | nil => rfl
  | cons c cs => exact h

theorem freeAfter_lookupText (free present : Bool) (b : Brackets) :
    freeAfter free (r.lookupText present b) = true := by
  obtain ⟨init, hinit⟩ := List.getLast?_eq_some_iff.mp
    (getLast?_access_brackets (r := r) present b r.oldKey)
  rw [lookupText, hinit, freeAfter_append]
  rfl

/-- What is replaced ends with a bracket afterwards. -/
theorem Passed.replaced_ends (hpassed : Passed r free free' cs ps) {before after : List Char}
    (hmem : .replaced before after ∈ ps) (free : Bool) : freeAfter free after = true := by
  obtain ⟨present, quote, -, rfl⟩ := (hpassed.replaces hmem).exists_newText
  exact freeAfter_newText free present quote

/-- There is no dollar in brackets. -/
theorem dollar_not_mem_inside (h : r.Dotted) (b : Brackets) : '$' ∉ b.inside r.oldKey := by
  have hquote : ∀ {c : Char}, isQuote c = true → '$' ≠ c := by
    rintro c hc rfl
    cases hc
  have hblank : ∀ {bs : List Char}, Blanks bs → '$' ∉ bs := by
    intro bs hbs hmem
    cases hbs _ hmem
  have hkey : '$' ∉ r.oldKey := fun hmem => by cases h.old.flat h.flat _ hmem
  simp [Brackets.inside, hblank b.blank_before, hquote b.quote_opening, hkey,
    hquote b.quote_closing, hblank b.blank_after]

/-- No dollar stands behind a boundary of a lookup. -/
theorem lookupText_ne_dollar (h : r.Dotted) {present : Bool} {b : Brackets}
    {init more : List Char} {c : Char} (hc : isBoundary c = true) :
    r.lookupText present b ≠ init ++ c :: '$' :: more := by
  intro he
  refine dollar_not_mem_inside h b ?_
  -- the boundary is the bracket or stands behind it, and so does the dollar
  rw [lookupText, access, ← List.append_assoc] at he
  rcases boundary_split (front_not_isBoundary h.accessor present) hc he with
    ⟨-, hinside⟩ | ⟨front, hinside⟩
  · exact hinside ▸ List.mem_cons_self
  · exact hinside ▸ List.mem_append_right _ (List.mem_cons_of_mem _ List.mem_cons_self)

/-- The pass comes to a dollar at which a reference may start. -/
theorem Passed.reach (h : r.Dotted) (hpassed : Passed r free free' cs ps) {before rest : List Char}
    (hcs : cs = before ++ '$' :: rest) {start : Bool} (hfree : freeAfter start before = true) :
    ∃ ds es g g', ps = ds ++ es ∧ Passed r g g' ('$' :: rest) es ∧
      freeAfter start (ds.flatMap Piece.new) = true := by
  induction hpassed generalizing before start with
  | nil => exact absurd hcs.symm (List.append_ne_nil_of_right_ne_nil _ (List.cons_ne_nil _ _))
  | @kept free free' c cs ps hmember hlookup tail ih =>
      cases before with
      | nil =>
          rw [List.nil_append] at hcs
          rw [← hcs]
          exact ⟨[], _, free, free', rfl, .kept hmember hlookup tail, hfree⟩
      | cons d before =>
          rw [List.cons_append] at hcs
          obtain ⟨rfl, htail⟩ := List.cons.inj hcs
          obtain ⟨ds, es, g, g', rfl, hes, hds⟩ := ih htail hfree
          exact ⟨.kept c :: ds, es, g, g', rfl, hes, hds⟩
  | @member free' present tail ps hends htail ih =>
      have hnone := memberText_chars h.accessor h.old present
      rcases List.append_eq_append_iff.mp hcs with ⟨more, rfl, hmore⟩ | ⟨more, hmember, hmore⟩
      · -- the place stands behind the member
        rw [freeAfter_append, freeAfter_run (memberText_ne_nil present) hnone] at hfree
        obtain ⟨ds, es, g, g', rfl, hes, hds⟩ := ih hmore hfree
        refine ⟨_ :: ds, es, g, g', rfl, hes, ?_⟩
        rw [List.flatMap_cons, freeAfter_append, Piece.new, freeAfter_newText]
        exact freeAfter_mono hds
      · cases before with
        | nil =>
            rw [List.nil_append] at hcs
            rw [← hcs]
            exact ⟨[], _, true, free', rfl, .member hends htail, hfree⟩
        | cons d before =>
            -- inside of the member there is no boundary that the dollar could stand behind
            have hinside : ∀ x ∈ d :: before, isBoundary x = false :=
              fun x hx => hnone x (hmember ▸ List.mem_append_left _ hx)
            rw [freeAfter_run (List.cons_ne_nil _ _) hinside] at hfree
            cases hfree
  | @lookup free present b tail ps htail ih =>
      have hbehind : ∀ {more}, before = r.lookupText present b ++ more →
          tail = more ++ '$' :: rest → ∃ ds es g g',
            .replaced (r.lookupText present b) (r.newText present b.opening) :: ps = ds ++ es ∧
            Passed r g g' ('$' :: rest) es ∧ freeAfter start (ds.flatMap Piece.new) = true := by
        rintro more rfl hmore
        rw [freeAfter_append, freeAfter_lookupText] at hfree
        obtain ⟨ds, es, g, g', rfl, hes, hds⟩ := ih hmore hfree
        refine ⟨_ :: ds, es, g, g', rfl, hes, ?_⟩
        rw [List.flatMap_cons, freeAfter_append, Piece.new, freeAfter_newText]
        exact hds
      rcases List.append_eq_append_iff.mp hcs with ⟨more, hbefore, hmore⟩ | ⟨more, htext, hmore⟩
      · exact hbehind hbefore hmore
      · cases more with
        | nil =>
            rw [List.append_nil] at htext
            exact @hbehind [] (by rw [htext, List.append_nil]) hmore.symm
        | cons d more =>
            obtain ⟨rfl, -⟩ := List.cons.inj hmore
            rcases List.eq_nil_or_concat before with rfl | ⟨init, c, he⟩
            · rw [List.nil_append] at hcs
              rw [← hcs]
              exact ⟨[], _, free, true, rfl, .lookup htail, hfree⟩
            · rw [List.concat_eq_append] at he
              subst he
              rw [freeAfter_append] at hfree
              rw [List.append_assoc] at htext
              exact absurd htext (lookupText_ne_dollar h hfree)

/-- Characters that end nothing stay where no new reference starts. -/
theorem Copied.keeps {xs out : List Char} (hxs : ∀ x ∈ xs, isBoundary x = false)
    (h : Copied r false (xs ++ cs) out) : ∃ after, out = xs ++ after ∧ Copied r false cs after := by
  induction xs generalizing out with
  | nil => exact ⟨out, rfl, h⟩
  | cons x xs ih =>
      rw [List.cons_append] at h
      generalize he : x :: (xs ++ cs) = text at h
      cases h with
      | nil => cases he
      | kept tail =>
          obtain ⟨rfl, rfl⟩ := List.cons.inj he
          rw [hxs x List.mem_cons_self] at tail
          obtain ⟨after, rfl, hafter⟩ := ih (fun y hy => hxs y (List.mem_cons_of_mem _ hy)) tail
          exact ⟨after, rfl, hafter⟩

/-- A member is left where it is if the pass does not look for members there, or if it goes on
    like a longer one. -/
theorem Passed.keeps_member (h : r.ToDotted) {present : Bool} {rest : List Char}
    (hpassed : Passed r free free' (r.memberText present ++ rest) ps)
    (hleft : free = true → continues rest = true) :
    ∃ after, ps.flatMap Piece.new = r.memberText present ++ after ∧ Copied r false rest after := by
  have hchars := memberText_chars h.accessor h.old present
  obtain ⟨d, ds, hd⟩ := exists_cons_access (r := r) present '.' r.oldKey
  generalize he : r.memberText present ++ rest = text at hpassed
  cases hpassed with
  | nil => exact absurd he (List.append_ne_nil_of_left_ne_nil (memberText_ne_nil present) rest)
  | @kept _ _ c cs ps _ _ tail =>
      have hcopied := tail.copied
      rw [Bool.or_self] at hcopied
      rw [memberText, hd] at he hchars ⊢
      obtain ⟨rfl, rfl⟩ := List.cons.inj he
      rw [hchars d List.mem_cons_self] at hcopied
      obtain ⟨after, hafter, hrest⟩ :=
        hcopied.keeps fun x hx => hchars x (List.mem_cons_of_mem _ hx)
      exact ⟨after, congrArg (d :: ·) hafter, hrest⟩
  | member hends tail =>
      obtain ⟨-, rfl⟩ := memberText_inj h.accessor he
      rw [hleft rfl] at hends
      cases hends
  | lookup tail =>
      rw [lookupText_append] at he
      exact absurd he (member_ne_bracket h.accessor)

/-- A reactive reference stands wherever the key does not go on. -/
theorem stands_reactive (h : r.Dotted) {rest : List Char} (hends : goesOn rest = false) :
    Stands .reactive r.accessor r.oldKey (r.memberText true ++ rest) := by
  have hchars := memberText_chars h.accessor h.old true
  have hnone : ∀ c, isBoundary c = true → c ∉ r.memberText true := by
    intro c hc hmem
    rw [hchars c hmem] at hc
    cases hc
  -- the end of the line cannot make the key longer
  obtain ⟨more, hrest, hmore⟩ := firstLine_spec rest
  have hline : goesOn (firstLine rest) = false := by
    rw [hrest, goesOn_append_end hmore] at hends
    exact hends
  refine ⟨firstLine rest, Literal.reactive?_eq_some.mpr ⟨h.old, hline, ?_⟩⟩
  rw [firstLine_append (hnone '\n' (by decide)) (hnone '\r' (by decide)), memberText_append]
  rfl

theorem Skipped.remains (h : r.Dotted) (hskipped : r.Skipped cs) :
    ∃ form pre post, (r.passOver true true cs).flatMap Piece.new = pre ++ post ∧
      (Form.isTemplate form || freeAfter true pre) = true ∧
      Stands form r.accessor r.oldKey post := by
  obtain ⟨before, rest, rfl, hfree, hends, hcontinues⟩ := hskipped
  have hpassed := passed_passOver h.toDotted true true (before ++ (r.memberText true ++ rest))
  obtain ⟨ds, es, g, g', hsplit, hes, hds⟩ := hpassed.reach h rfl hfree
  have hfront : Passed r g g' (r.memberText true ++ rest) es := hes
  obtain ⟨after, hafter, hcopied⟩ := hfront.keeps_member h.toDotted fun _ => hcontinues
  rw [hsplit, List.flatMap_append, hafter]
  refine ⟨.reactive, _, _, rfl, ?_, stands_reactive h (hcopied.goesOn.trans hends)⟩
  rw [hds, Bool.or_true]

theorem BehindReplaced.remains (h : r.Dotted) (hbehind : r.BehindReplaced cs) :
    ∃ form pre post, (r.passOver true true cs).flatMap Piece.new = pre ++ post ∧
      (Form.isTemplate form || freeAfter true pre) = true ∧
      Stands form r.accessor r.oldKey post := by
  obtain ⟨ds, before, after, es, hsplit, form, -, hstands⟩ := hbehind
  have hmem : .replaced before after ∈ r.passOver true true cs :=
    hsplit ▸ List.mem_append_right _ List.mem_cons_self
  have hfree := (passed_passOver h.toDotted true true cs).replaced_ends hmem
  refine ⟨form, ds.flatMap Piece.new ++ after, es.flatMap Piece.new, ?_, ?_, hstands⟩
  · rw [hsplit, List.flatMap_append, List.flatMap_cons, Piece.new, List.append_assoc]
  · rw [freeAfter_append, hfree, Bool.or_true]

/-! ## What stands behind a replaced reference -/

/-- Behind a replaced reference the pass looks for the other kind only. -/
theorem Passed.split_replaced {ds es : List Piece} {before after : List Char}
    (hpassed : Passed r free free' cs (ds ++ .replaced before after :: es)) :
    ∃ front rest, cs = front ++ (before ++ rest) ∧
      ((∃ present, before = r.memberText present ∧ Passed r false true rest es) ∨
        ∃ present b, before = r.lookupText present b ∧ Passed r true false rest es) := by
  induction ds generalizing free free' cs with
  | nil =>
      cases hpassed with
      | member _ tail => exact ⟨[], _, rfl, .inl ⟨_, rfl, tail⟩⟩
      | lookup tail => exact ⟨[], _, rfl, .inr ⟨_, _, rfl, tail⟩⟩
  | cons p ds ih =>
      cases hpassed with
      | @kept _ _ c _ _ _ _ tail =>
          obtain ⟨front, rest, rfl, hkinds⟩ := ih tail
          exact ⟨c :: front, rest, rfl, hkinds⟩
      | @member _ present _ _ _ tail =>
          obtain ⟨front, rest, rfl, hkinds⟩ := ih tail
          exact ⟨r.memberText present ++ front, rest, (List.append_assoc _ _ _).symm, hkinds⟩
      | @lookup _ present b _ _ tail =>
          obtain ⟨front, rest, rfl, hkinds⟩ := ih tail
          exact ⟨r.lookupText present b ++ front, rest, (List.append_assoc _ _ _).symm, hkinds⟩

/-- A reference that stands right behind a replaced one was of the same kind. -/
theorem BehindReplaced.adjacent (h : r.Dotted) (hbehind : r.BehindReplaced cs) :
    r.Skipped cs ∨ r.Adjacent cs := by
  obtain ⟨ds, before, after, es, hsplit, form, hform, hstands⟩ := hbehind
  have hpassed := passed_passOver h.toDotted true true cs
  rw [hsplit] at hpassed
  have hat := memberAt_or_lookupAt h hform hstands
  -- behind a member only members are left, behind a lookup only lookups
  obtain ⟨front, rest, rfl, ⟨present, rfl, tail⟩ | ⟨present, b, rfl, tail⟩⟩ := hpassed.split_replaced
  · rcases tail.standing h hat with ⟨more, rfl, -⟩ | ⟨-, present', more, rfl⟩ | ⟨hfree, -⟩
    · exact .inr ⟨front, more, .inl ⟨present, true, rfl⟩⟩
    · exact .inr ⟨front, more, .inl ⟨present, present', rfl⟩⟩
    · cases hfree
  · rcases tail.standing h hat with ⟨more, rfl, hends⟩ | ⟨hfree, -⟩ | ⟨-, present', b', more, rfl⟩
    · refine .inl ⟨front ++ r.lookupText present b, more, (List.append_assoc _ _ _).symm, ?_, hends⟩
      rw [freeAfter_append, freeAfter_lookupText]
    · cases hfree
    · exact .inr ⟨front, more, .inr ⟨present, present', b, b', rfl⟩⟩

end Renaming

/-! ## Renamed texts -/

/-- What is reported of a renamed text stands in the result of the pass. -/
theorem old_key_reported_iff {accessor old new : String}
    (h : (Renaming.ofKeys accessor old new).Dotted) (ha : isAccessor accessor = true)
    (text : String) :
    (∃ s ∈ scan (Pattern.defaults accessor)
        (((Renaming.ofKeys accessor old new).applyTo? text).getD text), s.key = old) ↔
      ∃ form pre post,
        ((Renaming.ofKeys accessor old new).passOver true true text.toList).flatMap Piece.new
            = pre ++ post ∧
          (Form.isTemplate form || freeAfter true pre) = true ∧
          Stands form accessor.toList old.toList post := by
  have hresult : (((Renaming.ofKeys accessor old new).applyTo? text).getD text).toList
      = ((Renaming.ofKeys accessor old new).passOver true true text.toList).flatMap Piece.new := by
    rw [← Renaming.applyToChars?_eq_passOver h.toDotted, Renaming.applyTo?]
    cases (Renaming.ofKeys accessor old new).applyToChars? text.toList with
    | none => rfl
    | some out => exact String.toList_ofList
  have hplaces := @exists_place_iff accessor ha
    (((Renaming.ofKeys accessor old new).applyTo? text).getD text) old.toList
  rw [String.ofList_toList, hresult] at hplaces
  exact hplaces

/-- **NO DANGLING REFERENCES**: unless a reactive reference is skipped or two references of one
    kind stand side by side, nothing refers to the old key after a renaming. -/
theorem old_key_gone {accessor old new : String}
    (h : (Renaming.ofKeys accessor old new).Dotted) (ha : isAccessor accessor = true)
    {text : String} (hskipped : ¬ (Renaming.ofKeys accessor old new).Skipped text.toList)
    (hadjacent : ¬ (Renaming.ofKeys accessor old new).Adjacent text.toList) :
    ∀ s ∈ scan (Pattern.defaults accessor)
        (((Renaming.ofKeys accessor old new).applyTo? text).getD text), s.key ≠ old := by
  intro s hs hkey
  obtain ⟨form, pre, post, hout, hfree, hstands⟩ := (old_key_reported_iff h ha text).mp ⟨s, hs, hkey⟩
  rcases Renaming.remains_only h hout hfree hstands with hremains | hbehind
  · exact hskipped hremains
  · exact (hbehind.adjacent h).elim hskipped hadjacent

/-- **OLD KEYS**: a text that a renaming went over still refers to the old key exactly if a
    reactive reference was skipped for the start of a longer one, or a reference stands right
    behind one that was replaced. -/
theorem old_key_remains_iff {accessor old new : String} (ha : isAccessor accessor = true)
    (hold : IsKey old.toList) (hflat : '.' ∉ old.toList) (hnew : IsKey new.toList)
    (hdotted : '.' ∈ new.toList) (text : String) :
    (∃ s ∈ scan (Pattern.defaults accessor)
        (((Renaming.ofKeys accessor old new).applyTo? text).getD text), s.key = old) ↔
      (Renaming.ofKeys accessor old new).Skipped text.toList ∨
        (Renaming.ofKeys accessor old new).BehindReplaced text.toList := by
  have h : (Renaming.ofKeys accessor old new).Dotted :=
    ⟨isAccessor_spec ha, hold, hflat, hnew, hdotted⟩
  rw [old_key_reported_iff h ha]
  constructor
  · rintro ⟨form, pre, post, hout, hfree, hstands⟩
    exact Renaming.remains_only h hout hfree hstands
  · rintro (hskipped | hbehind)
    · exact hskipped.remains h
    · exact hbehind.remains h

/-- A point ends the sentence, and two lookups stand side by side. -/
theorem old_key_remains_sample :
    (∃ s ∈ scan (Pattern.defaults "m")
        (((Renaming.ofKeys "m" "hello" "home.hello").applyTo? "$m.hello.").getD "$m.hello."),
      s.key = "hello") ∧
    ∃ s ∈ scan (Pattern.defaults "m")
        (((Renaming.ofKeys "m" "hello" "home.hello").applyTo? "m['hello']m['hello']").getD
          "m['hello']m['hello']"),
      s.key = "hello" := by
  have hremains := @old_key_remains_iff "m" "hello" "home.hello"
    (by decide) rfl (by decide) rfl (by decide)
  constructor
  · exact (hremains _).mpr (.inl ⟨[], ['.'], rfl, rfl, rfl, rfl⟩)
  · refine (hremains _).mpr (.inr ?_)
    have hpieces : (Renaming.ofKeys "m" "hello" "home.hello").passOver true true
        "m['hello']m['hello']".toList
        = [] ++ .replaced "m['hello']".toList "m['home.hello']".toList
          :: "m['hello']".toList.map .kept := by decide +kernel
    exact ⟨_, _, _, _, hpieces, .dynamicLookup, rfl, [], by decide⟩

end MessageKeys.Reference
