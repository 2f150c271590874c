import MessageKeys.Proofs.Reference.Renaming

/-! # Both passes at once

    The lookup pass goes over what the member pass has left.  What one pass replaces does not
    get in the way of the other: both keep the new references, and a lookup holds no member.
    So the two passes do what a single one does that looks for both kinds of references
    (`passOver`, `layered_passOver`, `applyToChars?_eq_passOver`).

    `Passed` describes that pass step by step.  It looks for members and for lookups where a
    reference may start; only right behind a replaced reference these places differ, since
    the search for the same kind goes on behind the reference and does not see that it ends
    in a boundary. -/

namespace MessageKeys.Reference

open Text

namespace Renaming

variable {r : Renaming}

/-- A pass that looks for members where `free` says so and for lookups where `free'` does. -/
def passOver (r : Renaming) (free free' : Bool) : List Char → List Piece
  | [] => []
  | c :: cs =>
    match if free then r.findMember (c :: cs) else .nothing,
        if free' then r.findLookup (c :: cs) else .nothing with
    | .reference new rest, _ =>
      let extra := cs.length - rest.length
      .replaced (c :: cs.take extra) new :: passOver r false true (cs.drop extra)
    | _, .reference new rest =>
      let extra := cs.length - rest.length
      .replaced (c :: cs.take extra) new :: passOver r true false (cs.drop extra)
    | _, _ => .kept c :: passOver r (isBoundary c) (isBoundary c) cs
termination_by cs => cs.length
decreasing_by all_goals (simp only [List.length_cons, List.length_drop]; omega)

/-- The pieces that the pass makes of a text. -/
inductive Passed (r : Renaming) : Bool → Bool → List Char → List Piece → Prop
  | nil {free free' : Bool} : Passed r free free' [] []
  | kept {free free' : Bool} {c : Char} {cs : List Char} {ps : List Piece}
      (member : free = true → ∀ present rest, c :: cs = r.memberText present ++ rest →
        continues rest = true)
      (lookup : free' = true → ∀ present b rest, c :: cs ≠ r.lookupText present b ++ rest)
      (tail : Passed r (isBoundary c) (isBoundary c) cs ps) :
      Passed r free free' (c :: cs) (.kept c :: ps)
  | member {free' present : Bool} {rest : List Char} {ps : List Piece}
      (ends : continues rest = false) (tail : Passed r false true rest ps) :
      Passed r true free' (r.memberText present ++ rest)
        (.replaced (r.memberText present) (r.newText present '"') :: ps)
  | lookup {free present : Bool} {b : Brackets} {rest : List Char} {ps : List Piece}
      (tail : Passed r true false rest ps) :
      Passed r free true (r.lookupText present b ++ rest)
        (.replaced (r.lookupText present b) (r.newText present b.opening) :: ps)

/-! ## Texts are not empty -/

theorem access_ne_nil (present : Bool) (sep : Char) (tail : List Char) :
    r.access present sep tail ≠ [] := by
  intro h
  have hlength := congrArg List.length h
  simp [access] at hlength

theorem memberText_ne_nil (present : Bool) : r.memberText present ≠ [] := access_ne_nil _ _ _

theorem lookupText_ne_nil (present : Bool) (b : Brackets) : r.lookupText present b ≠ [] :=
  access_ne_nil _ _ _

theorem exists_cons_access (present : Bool) (sep : Char) (tail : List Char) :
    ∃ c cs, r.access present sep tail = c :: cs :=
  List.exists_cons_of_ne_nil (access_ne_nil present sep tail)

/-- The old text of a piece and what follows it, as a pass computes them. -/
theorem take_drop_front {front rest : List Char} {c : Char} {cs : List Char} (hne : front ≠ [])
    (he : c :: cs = front ++ rest) :
    c :: cs.take (cs.length - rest.length) = front ∧ cs.drop (cs.length - rest.length) = rest := by
  cases front with
  | nil => exact absurd rfl hne
  | cons d front =>
      rw [List.cons_append] at he
      obtain ⟨rfl, rfl⟩ := List.cons.inj he
      have hextra : (front ++ rest).length - rest.length = front.length := by simp
      rw [hextra, List.take_left, List.drop_left]
      exact ⟨rfl, rfl⟩

/-- What the pass makes of a text. -/
theorem passed_passOver (h : r.ToDotted) (free free' : Bool) (cs : List Char) :
    Passed r free free' cs (r.passOver free free' cs) := by
  -- the cases are those of the pass: a member, a lookup where there is no member, neither
  fun_induction passOver r free free' cs with
  | case1 free free' => exact .nil
  | case2 free free' c cs new rest hmember extra ih =>
      split at hmember
      · next hfree =>
        subst hfree
        obtain ⟨present, he, hends, rfl⟩ := (findMember_eq_reference h).mp hmember
        obtain ⟨hfront, hrest⟩ := take_drop_front (access_ne_nil _ _ _) he
        rw [hfront]
        rw [hrest] at ih ⊢
        rw [he]
        exact .member hends ih
      · cases hmember
  | case3 free free' c cs new rest hlookup extra _ ih =>
      split at hlookup
      · next hfree =>
        subst hfree
        obtain ⟨present, b, he, rfl⟩ := (findLookup_eq_reference h).mp hlookup
        obtain ⟨hfront, hrest⟩ := take_drop_front (access_ne_nil _ _ _) he
        rw [hfront]
        rw [hrest] at ih ⊢
        rw [he]
        exact .lookup ih
      · cases hlookup
  | case4 free free' c cs hmember hlookup ih =>
      refine .kept ?_ ?_ ih
      · intro hfree present rest he
        refine Bool.of_not_eq_false fun hends => ?_
        have hfind := (findMember_eq_reference h).mpr ⟨present, he, hends, rfl⟩
        exact hmember _ _ (by rw [dif_pos hfree, hfind])
      · intro hfree present b rest he
        have hfind := (findLookup_eq_reference h).mpr ⟨present, b, he, rfl⟩
        exact hlookup _ _ (by rw [dif_pos hfree, hfind])

/-! ## What is replaced -/

/-- A text that refers to the old key, and the one that takes its place: the dollar stays, and
    so does the quote that a lookup has. -/
inductive Replaces (r : Renaming) : List Char → List Char → Prop
  | member (present : Bool) : Replaces r (r.memberText present) (r.newText present '"')
  | lookup (present : Bool) (b : Brackets) :
      Replaces r (r.lookupText present b) (r.newText present b.opening)

/-- Only references are replaced. -/
theorem Passed.replaces {free free' : Bool} {cs : List Char} {ps : List Piece}
    (hpassed : Passed r free free' cs ps) {before after : List Char}
    (hmem : .replaced before after ∈ ps) : r.Replaces before after := by
  induction hpassed with
  | nil => exact absurd hmem List.not_mem_nil
  | kept _ _ _ ih => exact ih ((List.mem_cons.mp hmem).resolve_left (by rintro ⟨⟩))
  | member _ _ ih =>
      rcases List.mem_cons.mp hmem with he | hmem
      · cases he
        exact .member _
      · exact ih hmem
  | lookup _ ih =>
      rcases List.mem_cons.mp hmem with he | hmem
      · cases he
        exact .lookup _ _
      · exact ih hmem

/-- What takes the place of a reference is one to the new key. -/
theorem Replaces.exists_newText {before after : List Char} (h : r.Replaces before after) :
    ∃ present quote, isQuote quote = true ∧ after = r.newText present quote := by
  cases h with
  | member present => exact ⟨present, '"', by decide, rfl⟩
  | lookup present b => exact ⟨present, b.opening, b.quote_opening, rfl⟩

/-! ## Reading the text back from the result -/

/-- The second text is the first one with new references in place of some of its parts;
    `free` says that it may start with one. -/
inductive Copied (r : Renaming) : Bool → List Char → List Char → Prop
  | nil {free : Bool} : Copied r free [] []
  | kept {free : Bool} {c : Char} {cs out : List Char} (tail : Copied r (isBoundary c) cs out) :
      Copied r free (c :: cs) (c :: out)
  | replaced {present : Bool} {quote : Char} {front cs out : List Char}
      (tail : Copied r true cs out) :
      Copied r true (front ++ cs) (r.newText present quote ++ out)

namespace Copied

variable {free : Bool} {c : Char} {cs out : List Char}

theorem mono (h : Copied r false cs out) : Copied r free cs out := by
  cases h with
  | nil => exact .nil
  | kept tail => exact .kept tail

/-- A character that starts no new reference was there before. -/
theorem front (h : r.ToDotted) (hcopied : Copied r free cs (c :: out))
    (hc : free = false ∨ isAccessorTail c = false) :
    ∃ rest, cs = c :: rest ∧ Copied r (isBoundary c) rest out := by
  generalize he : c :: out = text at hcopied
  cases hcopied with
  | nil => cases he
  | kept tail =>
      obtain ⟨rfl, rfl⟩ := List.cons.inj he
      exact ⟨_, rfl, tail⟩
  | replaced tail =>
      rw [newText_append] at he
      rcases hc with hfree | hc
      · cases hfree
      · rw [access_front h.accessor he] at hc
        cases hc

/-- So were characters that end nothing, where no new reference starts. -/
theorem run (h : r.ToDotted) {xs : List Char} (hxs : ∀ x ∈ xs, isBoundary x = false)
    (hcopied : Copied r false cs (xs ++ out)) :
    ∃ rest, cs = xs ++ rest ∧ Copied r false rest out := by
  induction xs generalizing cs with
  | nil => exact ⟨cs, rfl, hcopied⟩
  | cons x xs ih =>
      obtain ⟨rest, rfl, hrest⟩ := front h hcopied (.inl rfl)
      rw [hxs x List.mem_cons_self] at hrest
      obtain ⟨more, rfl, hmore⟩ := ih (fun y hy => hxs y (List.mem_cons_of_mem _ hy)) hrest
      exact ⟨more, rfl, hmore⟩

/-- So were blanks. -/
theorem blanks (h : r.ToDotted) {bs : List Char} (hbs : Blanks bs)
    (hcopied : Copied r true cs (bs ++ out)) :
    ∃ rest, cs = bs ++ rest ∧ Copied r true rest out := by
  induction bs generalizing cs with
  | nil => exact ⟨cs, rfl, hcopied⟩
  | cons b bs ih =>
      obtain ⟨hbound, htail, -⟩ := blank_spec (hbs b List.mem_cons_self)
      obtain ⟨rest, rfl, hrest⟩ := front h hcopied (.inr htail)
      rw [hbound] at hrest
      obtain ⟨more, rfl, hmore⟩ := ih (fun y hy => hbs y (List.mem_cons_of_mem _ hy)) hrest
      exact ⟨more, rfl, hmore⟩

/-- So was the old key in quotes: it is not the front of a new reference, which goes on with a
    bracket. -/
theorem quoted (h : r.ToDotted) {quote : Char} (hquote : isQuote quote = true)
    (hcopied : Copied r true cs (r.oldKey ++ quote :: out)) :
    ∃ rest, cs = r.oldKey ++ quote :: rest ∧ Copied r true rest out := by
  obtain ⟨hbound, -, -, -, hbracket, -⟩ := quote_spec hquote
  have hnone := h.old.not_isBoundary
  obtain ⟨k, ks, hold⟩ := List.exists_cons_of_ne_nil h.old.ne_nil
  generalize he : r.oldKey ++ quote :: out = text at hcopied
  cases hcopied with
  | nil => rw [hold] at he; cases he
  | kept tail =>
      rw [hold] at he hnone ⊢
      obtain ⟨rfl, rfl⟩ := List.cons.inj he
      rw [hnone k List.mem_cons_self] at tail
      obtain ⟨rest, rfl, hrest⟩ := tail.run h fun x hx => hnone x (List.mem_cons_of_mem _ hx)
      obtain ⟨more, rfl, hmore⟩ := hrest.front h (.inl rfl)
      rw [hbound] at hmore
      exact ⟨more, rfl, hmore⟩
  | replaced tail =>
      -- the accessor would end where the key does, but a quote follows the key
      rw [newText_append, access, ← List.append_assoc] at he
      have hsame := (run_unique (isKeyChar_of_isKey h.old) (front_isKeyChar h.accessor _)
        (not_isKeyChar_of_quote hquote) (by decide) he).2.1
      exact absurd hsame hbracket

/-- **MEMBERS**: a member that does not start with a new reference was there before. -/
theorem member (h : r.ToDotted) {present : Bool} {rest : List Char}
    (hcopied : Copied r (isBoundary c) cs out) (he : c :: out = r.memberText present ++ rest) :
    ∃ before, c :: cs = r.memberText present ++ before ∧ Copied r false before rest := by
  have hchars := memberText_chars h.accessor h.old present
  obtain ⟨d, ds, hd⟩ := exists_cons_access (r := r) present '.' r.oldKey
  rw [memberText, hd] at he hchars ⊢
  obtain ⟨rfl, rfl⟩ := List.cons.inj he
  rw [hchars c List.mem_cons_self] at hcopied
  obtain ⟨before, rfl, hbefore⟩ := hcopied.run h fun x hx => hchars x (List.mem_cons_of_mem _ hx)
  exact ⟨before, rfl, hbefore⟩

/-- **LOOKUPS**: so was a lookup. -/
theorem lookup (h : r.ToDotted) {present : Bool} {b : Brackets} {rest : List Char}
    (hcopied : Copied r (isBoundary c) cs out) (he : c :: out = r.lookupText present b ++ rest) :
    ∃ before, c :: cs = r.lookupText present b ++ before ∧ Copied r true before rest := by
  have hchars := front_not_isBoundary h.accessor present
  obtain ⟨d, ds, hd⟩ := List.exists_cons_of_ne_nil fun he : dollar present ++ r.accessor = [] =>
    h.accessor.1 (List.append_eq_nil_iff.mp he).2
  have htext : ∀ tail, r.lookupText present b ++ tail = d :: (ds ++ '[' :: (b.inside r.oldKey ++ tail)) := by
    intro tail
    rw [lookupText_append, access, ← List.append_assoc, hd]
    rfl
  rw [htext] at he
  rw [hd] at hchars
  obtain ⟨rfl, rfl⟩ := List.cons.inj he
  obtain ⟨hopening, hopening', -⟩ := quote_spec b.quote_opening
  have hbracket : isBoundary '[' = true := by decide
  have hbracket' : isBoundary ']' = true := by decide
  rw [hchars c List.mem_cons_self] at hcopied
  -- piece by piece: the accessor, the bracket, blanks, quotes with the key in them, and so on
  obtain ⟨_, rfl, h1⟩ := hcopied.run h fun x hx => hchars x (List.mem_cons_of_mem _ hx)
  obtain ⟨_, rfl, h2⟩ := h1.front h (.inl rfl)
  rw [hbracket, b.inside_append] at h2
  obtain ⟨_, rfl, h3⟩ := h2.blanks h b.blank_before
  obtain ⟨_, rfl, h4⟩ := h3.front h (.inr hopening')
  rw [hopening] at h4
  obtain ⟨_, rfl, h5⟩ := h4.quoted h b.quote_closing
  obtain ⟨_, rfl, h6⟩ := h5.blanks h b.blank_after
  obtain ⟨before, rfl, h7⟩ := h6.front h (.inr (by decide))
  rw [hbracket'] at h7
  refine ⟨before, ?_, h7⟩
  rw [htext, b.inside_append]

end Copied

/-! ## The two passes are one -/

/-- The old texts of neither kind end a line. -/
theorem getLast?_memberText (h : r.ToDotted) (present : Bool) :
    (r.memberText present).getLast? ≠ some '\n' := by
  intro he
  obtain ⟨init, hinit⟩ := List.getLast?_eq_some_iff.mp he
  have hmem : '\n' ∈ r.memberText present := hinit ▸ List.mem_append_right _ (List.mem_singleton_self _)
  rw [memberText, access, ← List.append_assoc] at hmem
  rcases List.mem_append.mp hmem with hmem | hmem
  · cases front_chars h.accessor present _ hmem
  · exact h.old.not_mem (by decide) (by decide) ((List.mem_cons.mp hmem).resolve_left (by decide))

theorem getLast?_access_brackets (present : Bool) (b : Brackets) (k : List Char) :
    (r.access present '[' (b.inside k)).getLast? = some ']' := by
  have hsplit : r.access present '[' (b.inside k)
      = r.access present '[' (b.before ++ b.opening :: (k ++ b.closing :: b.after)) ++ [']'] := by
    simp [access, Brackets.inside]
  rw [hsplit, List.getLast?_concat]

/-- The text of a member pass is the old one with new references in it. -/
theorem copied_memberPieces (h : r.ToDotted) (free : Bool) (cs : List Char) :
    Copied r free cs ((pieces r.findMember free cs).flatMap Piece.new) := by
  fun_induction pieces r.findMember free cs with
  | case1 free => exact .nil
  | case2 free c cs _ ih => exact .kept ih
  | case3 free c cs hfind ih =>
      -- a longer key starts with the accessor, behind whose characters none starts
      split at hfind
      · have hc := findsAccess_findMember h.accessor c cs (by rw [hfind]; rintro ⟨⟩)
        have hbound := not_isBoundary_of_isAccessorTail hc
        have hfeed : c ≠ '\n' := by
          rintro rfl
          cases hc
        rw [decide_eq_false hfeed, ← hbound] at ih
        rw [decide_eq_false hfeed, ← hbound]
        exact .kept ih
      · cases hfind
  | case4 free c cs new rest hfind extra before ih =>
      split at hfind
      · next hfree =>
        subst hfree
        obtain ⟨present, he, -, rfl⟩ := (findMember_eq_reference h).mp hfind
        obtain ⟨hfront, hrest⟩ := take_drop_front (access_ne_nil _ _ _) he
        have hlast : before.getLast? ≠ some '\n' := by
          show (c :: cs.take (cs.length - rest.length)).getLast? ≠ _
          rw [hfront]
          exact getLast?_memberText h present
        rw [decide_eq_false hlast, hrest] at ih ⊢
        rw [he]
        exact .replaced ih.mono
      · cases hfind

/-- The member pass keeps lookups. -/
theorem memberPieces_lookup (h : r.ToDotted) (free present : Bool) (b : Brackets)
    (rest : List Char) :
    pieces r.findMember free (r.lookupText present b ++ rest)
      = (r.lookupText present b).map .kept ++ pieces r.findMember true rest := by
  rw [lookupText_append]
  refine pieces_brackets (findsAccess_findMember h.accessor) h.accessor h.old ?_ ?_
  · intro _ new rest' hfind
    obtain ⟨present', he, -⟩ := (findMember_eq_reference h).mp hfind
    exact member_ne_bracket h.accessor he.symm
  · intro new rest' hfind
    obtain ⟨present', he, -⟩ := (findMember_eq_reference h).mp hfind
    -- the old key does not start with itself as a member, which is longer
    obtain ⟨bs, hbs, -⟩ := member_of_quoted h b.quote_closing he
    have hlength := congrArg List.length hbs
    simp only [memberText, access, List.length_append, List.length_cons] at hlength
    omega

/-- No lookup starts with a key that a quote follows. -/
theorem findLookup_key (h : r.ToDotted) {k : List Char} (hk : IsKey k) {quote : Char}
    (hquote : isQuote quote = true) (cs new rest : List Char) :
    r.findLookup (k ++ quote :: cs) ≠ .reference new rest := by
  intro hfind
  obtain ⟨present, b, he, -⟩ := (findLookup_eq_reference h).mp hfind
  rw [lookupText_append, access, ← List.append_assoc] at he
  have hsame := (run_unique (isKeyChar_of_isKey hk) (front_isKeyChar h.accessor present)
    (not_isKeyChar_of_quote hquote) (by decide) he).2.1
  exact (quote_spec hquote).2.2.2.2.1 hsame

/-- The lookup pass keeps new references. -/
theorem lookupPieces_new (h : r.ToDotted) (free present : Bool) {quote : Char}
    (hquote : isQuote quote = true) (rest : List Char) :
    pieces r.findLookup free (r.newText present quote ++ rest)
      = (r.newText present quote).map .kept ++ pieces r.findLookup true rest := by
  have htext : r.newText present quote
      = r.access present '[' ((Brackets.plain quote hquote).inside r.newKey) := rfl
  have hne : ∀ new rest', r.findLookup (r.newText present quote ++ rest) ≠ .reference new rest' := by
    intro new rest' hfind
    obtain ⟨present', b, he, -⟩ := (findLookup_eq_reference h).mp hfind
    exact new_ne_lookup h hquote he
  rw [htext, access_append] at hne ⊢
  exact pieces_brackets (findsAccess_findLookup h.accessor) h.accessor h.new (fun _ => hne)
    (findLookup_key h h.new hquote _)

/-- It keeps a lookup right behind one that it has replaced. -/
theorem lookupPieces_behind (h : r.ToDotted) (present : Bool) (b : Brackets) (rest : List Char) :
    pieces r.findLookup false (r.lookupText present b ++ rest)
      = (r.lookupText present b).map .kept ++ pieces r.findLookup true rest := by
  rw [lookupText_append]
  refine pieces_brackets (findsAccess_findLookup h.accessor) h.accessor h.old ?_
    (findLookup_key h h.old b.quote_closing _)
  rintro ⟨⟩

theorem flatMap_new_kept (cs : List Char) : (cs.map Piece.kept).flatMap Piece.new = cs := by
  induction cs with
  | nil => rfl
  | cons c cs ih => exact congrArg (c :: ·) ih

/-- The pieces of the one pass, and those that the first and the second pass make: what one of
    them replaces the other one keeps, the first pass as it was, the second one as it is then. -/
inductive Layered (r : Renaming) : List Piece → List Piece → List Piece → Prop
  | nil : Layered r [] [] []
  | kept {c : Char} {ps first second : List Piece} (tail : Layered r ps first second) :
      Layered r (.kept c :: ps) (.kept c :: first) (.kept c :: second)
  | member {present : Bool} {ps first second : List Piece} (tail : Layered r ps first second) :
      Layered r (.replaced (r.memberText present) (r.newText present '"') :: ps)
        (.replaced (r.memberText present) (r.newText present '"') :: first)
        ((r.newText present '"').map .kept ++ second)
  | lookup {present : Bool} {b : Brackets} {ps first second : List Piece}
      (tail : Layered r ps first second) :
      Layered r (.replaced (r.lookupText present b) (r.newText present b.opening) :: ps)
        ((r.lookupText present b).map .kept ++ first)
        (.replaced (r.lookupText present b) (r.newText present b.opening) :: second)

theorem Layered.new_eq {ps first second : List Piece} (h : Layered r ps first second) :
    second.flatMap Piece.new = ps.flatMap Piece.new := by
  induction h with
  | nil => rfl
  | @kept c _ _ _ _ ih => exact congrArg (c :: ·) ih
  | member _ ih =>
      rw [List.flatMap_append, flatMap_new_kept, ih]
      rfl
  | lookup _ ih => rw [List.flatMap_cons, List.flatMap_cons, ih]

/-- **ONE PASS**: the two passes replace in a text what the one pass replaces in it. -/
theorem Passed.layered (h : r.ToDotted) {free free' : Bool} {cs : List Char} {ps : List Piece}
    (hpassed : Passed r free free' cs ps) :
    Layered r ps (pieces r.findMember free cs)
      (pieces r.findLookup free' ((pieces r.findMember free cs).flatMap Piece.new)) := by
  induction hpassed with
  | nil =>
      rw [pieces, List.flatMap_nil, pieces]
      exact .nil
  | @kept free free' c cs ps hmember hlookup tail ih =>
      have hnone : free = true → ∀ new rest, r.findMember (c :: cs) ≠ .reference new rest := by
        intro hfree new rest hfind
        obtain ⟨present, he, hends, -⟩ := (findMember_eq_reference h).mp hfind
        rw [hmember hfree present rest he] at hends
        cases hends
      rw [pieces_keep (findsAccess_findMember h.accessor) hnone]
      -- a lookup that the second pass sees was there before the first one
      show Layered r _ _ (pieces r.findLookup free' (c :: _))
      rw [pieces_keep (findsAccess_findLookup h.accessor)]
      · exact .kept ih
      · intro hfree new rest hfind
        obtain ⟨present, b, he, -⟩ := (findLookup_eq_reference h).mp hfind
        obtain ⟨before, hbefore, -⟩ := (copied_memberPieces h (isBoundary c) cs).lookup h he
        exact hlookup hfree present b before hbefore
  | @member free' present rest ps hends tail ih =>
      -- the second pass goes over the new reference and is where references may start
      rw [pieces_replace (memberText_ne_nil _) (getLast?_memberText h present)
        (findMember_memberText h present hends)]
      show Layered r _ _ (pieces r.findLookup free' (r.newText present '"'
        ++ (pieces r.findMember false rest).flatMap Piece.new))
      rw [lookupPieces_new h _ _ (by decide)]
      exact .member ih
  | @lookup free present b rest ps tail ih =>
      -- the first pass leaves the lookup to the second
      rw [memberPieces_lookup h, List.flatMap_append, flatMap_new_kept]
      have hlast : (r.lookupText present b).getLast? ≠ some '\n' := by
        rw [lookupText, getLast?_access_brackets]
        decide
      rw [pieces_replace (lookupText_ne_nil _ _) hlast (findLookup_lookupText h present b _)]
      exact .lookup ih

/-- The passes over a whole text. -/
theorem layered_passOver (h : r.ToDotted) (cs : List Char) :
    Layered r (r.passOver true true cs) (r.memberPieces cs)
      (r.lookupPieces ((r.memberPieces cs).flatMap Piece.new)) :=
  (passed_passOver h true true cs).layered h

/-- The result of a renaming is the new text of the one pass. -/
theorem applyToChars?_eq_passOver (h : r.ToDotted) (cs : List Char) :
    (r.applyToChars? cs).getD cs = (r.passOver true true cs).flatMap Piece.new := by
  rw [applyToChars?_getD]
  exact (layered_passOver h cs).new_eq

/-- So it is the old text with new references in it. -/
theorem Passed.copied {free free' : Bool} {cs : List Char} {ps : List Piece}
    (hpassed : Passed r free free' cs ps) : Copied r (free || free') cs (ps.flatMap Piece.new) := by
  induction hpassed with
  | nil => exact .nil
  | @kept free free' c cs ps _ _ tail ih =>
      rw [Bool.or_self] at ih
      exact .kept ih
  | member _ tail ih => exact .replaced ih
  | @lookup free present b rest ps tail ih =>
      rw [Bool.or_true]
      exact .replaced ih

end Renaming

end MessageKeys.Reference
