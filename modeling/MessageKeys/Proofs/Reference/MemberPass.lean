import MessageKeys.Proofs.Reference.Exactness
import MessageKeys.Proofs.Reference.Passes

/-! # The member pass replaces exactly the complete members

    A member is complete where it stands if a reference may start there and no more of a key
    follows (`CompleteMember`).  None of its characters ends what stands before it, so no
    reference may start inside of a member, and two of them never share a character
    (`CompleteMember.apart`).  For the same reason a pass loses nothing by going on behind a
    reference that it has replaced, or behind the first character of a longer one: it is free
    to look wherever a reference may start (`replacedBetween_pieces_iff`). -/

namespace MessageKeys.Reference

open Text

/-! ## What a pass replaces -/

/-- The pieces replace a part of the text, with `front` on its left and `rest` on its right. -/
def ReplacedBetween (ps : List Piece) (front before after rest : List Char) : Prop :=
  ∃ ds es, ps = ds ++ .replaced before after :: es ∧
    ds.flatMap Piece.old = front ∧ es.flatMap Piece.old = rest

variable {ps : List Piece} {front before after rest : List Char}

theorem not_replacedBetween_nil : ¬ ReplacedBetween [] front before after rest := by
  rintro ⟨ds, es, he, -⟩
  exact List.append_ne_nil_of_right_ne_nil ds (List.cons_ne_nil _ es) he.symm

theorem replacedBetween_kept {c : Char} :
    ReplacedBetween (.kept c :: ps) front before after rest ↔
      ∃ left, front = c :: left ∧ ReplacedBetween ps left before after rest := by
  constructor
  · rintro ⟨ds, es, he, rfl, hrest⟩
    cases ds with
    | nil => cases (List.cons.inj he).1
    | cons d ds =>
        obtain ⟨rfl, rfl⟩ := List.cons.inj he
        exact ⟨ds.flatMap Piece.old, rfl, ds, es, rfl, rfl, hrest⟩
  · rintro ⟨left, rfl, ds, es, rfl, rfl, hrest⟩
    exact ⟨.kept c :: ds, es, rfl, rfl, hrest⟩

theorem replacedBetween_replaced {old new : List Char} :
    ReplacedBetween (.replaced old new :: ps) front before after rest ↔
      (front = [] ∧ before = old ∧ after = new ∧ rest = ps.flatMap Piece.old) ∨
      ∃ left, front = old ++ left ∧ ReplacedBetween ps left before after rest := by
  constructor
  · rintro ⟨ds, es, he, rfl, hrest⟩
    cases ds with
    | nil =>
        obtain ⟨hpiece, rfl⟩ := List.cons.inj he
        obtain ⟨rfl, rfl⟩ := Piece.replaced.inj hpiece
        exact .inl ⟨rfl, rfl, rfl, hrest.symm⟩
    | cons d ds =>
        obtain ⟨rfl, rfl⟩ := List.cons.inj he
        exact .inr ⟨ds.flatMap Piece.old, rfl, ds, es, rfl, rfl, hrest⟩
  · rintro (⟨rfl, rfl, rfl, rfl⟩ | ⟨left, rfl, ds, es, rfl, rfl, hrest⟩)
    · exact ⟨[], ps, rfl, rfl, rfl⟩
    · exact ⟨.replaced old new :: ds, es, rfl, rfl, hrest⟩

/-- Whatever is found to be replaced has characters, and none of them is a boundary. -/
def FindsSolid (find : List Char → Finding) : Prop :=
  ∀ cs new rest, find cs = .reference new rest →
    ∃ before, cs = before ++ rest ∧ before ≠ [] ∧ ∀ x ∈ before, isBoundary x = false

/-- A place where a reference may start is not inside of what is replaced. -/
theorem outside_of_free {run more left : List Char} {cs : List Char}
    (hrun : ∀ x ∈ run, isBoundary x = false) (he : run ++ more = left ++ cs)
    (hfree : freeAfter true left = true) :
    left = [] ∨ ∃ front, left = run ++ front ∧ more = front ++ cs := by
  rcases List.append_eq_append_iff.mp he with ⟨front, hleft, hmore⟩ | ⟨inner, hsplit, -⟩
  · exact .inr ⟨front, hleft, hmore⟩
  · refine .inl (by_contra fun hne => ?_)
    have hsolid : ∀ x ∈ left, isBoundary x = false :=
      fun x hx => hrun x (hsplit ▸ List.mem_append_left _ hx)
    rw [freeAfter_run hne hsolid] at hfree
    cases hfree

/-- **A PASS MISSES NOTHING**: it replaces a part of the text exactly if it finds it there and a
    reference may start there. -/
theorem replacedBetween_pieces_iff {find : List Char → Finding} (hfinds : FindsAccess find)
    (hsolid : FindsSolid find) (free : Bool) (cs : List Char) :
    ReplacedBetween (pieces find free cs) front before after rest ↔
      cs = front ++ (before ++ rest) ∧ before ≠ [] ∧ freeAfter free front = true ∧
        find (before ++ rest) = .reference after rest := by
  -- on the length of the text, since the pass goes on behind what it has replaced
  induction hn : cs.length using Nat.strongRecOn generalizing free cs front with
  | _ n ih =>
  cases cs with
  | nil =>
      rw [pieces]
      refine iff_of_false not_replacedBetween_nil ?_
      rintro ⟨he, hne, -⟩
      obtain ⟨-, hbefore⟩ := List.append_eq_nil_iff.mp he.symm
      exact hne (List.append_eq_nil_iff.mp hbefore).1
  | cons c cs =>
      by_cases hhere : free = true ∧ ∃ new more, find (c :: cs) = .reference new more
      · obtain ⟨rfl, new, more, hfind⟩ := hhere
        obtain ⟨run, he, hne, hrun⟩ := hsolid _ _ _ hfind
        have hlast : run.getLast? ≠ some '\n' := by
          intro hlast
          have := hrun '\n' (List.mem_of_getLast? hlast)
          cases this
        have hshort : more.length < n := by
          have := congrArg List.length he
          have := List.length_pos_iff.mpr hne
          rw [List.length_append] at *
          omega
        rw [he] at hfind ⊢
        rw [pieces_replace hne hlast hfind, replacedBetween_replaced, pieces_old]
        constructor
        · rintro (⟨rfl, rfl, rfl, rfl⟩ | ⟨left, rfl, hleft⟩)
          · exact ⟨rfl, hne, rfl, hfind⟩
          · obtain ⟨rfl, hbefore, hfree, hfound⟩ := (ih _ hshort false more rfl).mp hleft
            refine ⟨by rw [List.append_assoc], hbefore, ?_, hfound⟩
            rw [freeAfter_append, freeAfter_run hne hrun]
            exact hfree
        · rintro ⟨hcs, hbefore, hfree, hfound⟩
          rcases outside_of_free hrun hcs hfree with rfl | ⟨left, rfl, hmore⟩
          · rw [List.nil_append] at hcs
            rw [← hcs, hfind] at hfound
            cases hfound
            exact .inl ⟨rfl, (List.append_cancel_right hcs).symm, rfl, rfl⟩
          · refine .inr ⟨left, rfl, (ih _ hshort false more rfl).mpr ⟨hmore, hbefore, ?_, hfound⟩⟩
            rw [freeAfter_append, freeAfter_run hne hrun] at hfree
            exact hfree
      · rw [pieces_keep hfinds fun hfree new more hfind => hhere ⟨hfree, new, more, hfind⟩,
          replacedBetween_kept]
        have hshort : cs.length < n := by
          rw [← hn]
          exact Nat.lt_succ_self _
        constructor
        · rintro ⟨left, rfl, hleft⟩
          obtain ⟨rfl, hbefore, hfree, hfound⟩ := (ih _ hshort (isBoundary c) cs rfl).mp hleft
          exact ⟨rfl, hbefore, hfree, hfound⟩
        · rintro ⟨hcs, hbefore, hfree, hfound⟩
          cases front with
          | nil =>
              rw [List.nil_append] at hcs
              exact absurd ⟨hfree, after, rest, hcs ▸ hfound⟩ hhere
          | cons d left =>
              obtain ⟨rfl, hleft⟩ := List.cons.inj hcs
              exact ⟨left, rfl,
                (ih _ hshort (isBoundary c) cs rfl).mpr ⟨hleft, hbefore, hfree, hfound⟩⟩

/-! ## Complete members -/

namespace Renaming

variable {r : Renaming} {cs : List Char}

/-- A member of the old key stands between two parts of the text, where a reference may start and
    no more of a key follows. -/
structure CompleteMember (r : Renaming) (cs front : List Char) (present : Bool)
    (rest : List Char) : Prop where
  text_eq : cs = front ++ (r.memberText present ++ rest)
  mayStart : MayStart front
  ends : continues rest = false

theorem findsSolid_findMember (h : IsAccessor r.accessor) (hold : IsKey r.oldKey) :
    FindsSolid r.findMember := by
  intro cs new rest hfind
  obtain ⟨present, rfl, -, -⟩ := (findMember_iff h).mp hfind
  exact ⟨r.memberText present, rfl, memberText_ne_nil present, memberText_chars h hold present⟩

/-- **COMPLETE MEMBERS ARE REPLACED**, all of them and nothing else. -/
theorem replacedBetween_memberPieces_iff (h : IsAccessor r.accessor) (hold : IsKey r.oldKey) :
    ReplacedBetween (r.memberPieces cs) front before after rest ↔
      ∃ present, CompleteMember r cs front present rest ∧ before = r.memberText present ∧
        after = dollar present ++ r.target '"' := by
  rw [memberPieces, replacedBetween_pieces_iff (findsAccess_findMember h)
    (findsSolid_findMember h hold)]
  constructor
  · rintro ⟨hcs, -, hfree, hfind⟩
    obtain ⟨present, he, hends, hafter⟩ := (findMember_iff h).mp hfind
    obtain rfl := List.append_cancel_right he
    exact ⟨present, ⟨hcs, (freeAfter_iff_mayStart front).mp hfree, hends⟩, rfl, hafter⟩
  · rintro ⟨present, hmember, rfl, rfl⟩
    obtain ⟨run, he, hne, -⟩ := findsSolid_findMember h hold _ _ _
      ((findMember_iff h).mpr ⟨present, rfl, hmember.ends, rfl⟩)
    obtain rfl := List.append_cancel_right he
    exact ⟨hmember.text_eq, hne, (freeAfter_iff_mayStart front).mpr hmember.mayStart,
      (findMember_iff h).mpr ⟨present, rfl, hmember.ends, rfl⟩⟩

/-- **APART**: of two complete members, one ends before the other one starts. -/
theorem CompleteMember.apart (h : IsAccessor r.accessor) (hold : IsKey r.oldKey)
    {front' rest' : List Char} {present present' : Bool}
    (hmember : CompleteMember r cs front present rest)
    (hother : CompleteMember r cs front' present' rest')
    (hle : front.length ≤ front'.length) :
    (front = front' ∧ present = present' ∧ rest = rest') ∨
      (front ++ r.memberText present).length ≤ front'.length := by
  have he := hmember.text_eq.symm.trans hother.text_eq
  obtain ⟨left, hleft, htail⟩ : ∃ left, front' = front ++ left ∧
      r.memberText present ++ rest = left ++ (r.memberText present' ++ rest') := by
    rcases List.append_eq_append_iff.mp he with ⟨left, hleft, htail⟩ | ⟨left, hleft, htail⟩
    · exact ⟨left, hleft, htail⟩
    · -- the first one starts no later, so nothing is left
      obtain rfl : left = [] := by
        have := congrArg List.length hleft
        rw [List.length_append] at this
        exact List.length_eq_zero_iff.mp (by omega)
      exact ⟨[], by rw [hleft, List.append_nil, List.append_nil], htail.symm⟩
  have hfree : freeAfter (freeAfter true front) left = true := by
    rw [← freeAfter_append, ← hleft]
    exact (freeAfter_iff_mayStart front').mpr hother.mayStart
  rw [(freeAfter_iff_mayStart front).mpr hmember.mayStart] at hfree
  rcases outside_of_free (memberText_chars h hold present) htail hfree with rfl | ⟨more, rfl, -⟩
  · obtain ⟨rfl, rfl⟩ := memberText_inj h htail
    exact .inl ⟨by rw [hleft, List.append_nil], rfl, rfl⟩
  · refine .inr ?_
    rw [hleft, ← List.append_assoc, @List.length_append _ (front ++ r.memberText present)]
    exact Nat.le_add_right _ _

/-- The pieces of the member pass are characters that stay, and members with the new reference. -/
theorem new_eq_old_or_replaced (h : IsAccessor r.accessor) (hold : IsKey r.oldKey) {p : Piece}
    (hp : p ∈ r.memberPieces cs) :
    p.new = p.old ∨
      ∃ present, p = .replaced (r.memberText present) (dollar present ++ r.target '"') := by
  cases p with
  | kept c => exact .inl rfl
  | replaced before after =>
      obtain ⟨ds, es, he⟩ := List.append_of_mem hp
      obtain ⟨present, -, rfl, rfl⟩ :=
        (replacedBetween_memberPieces_iff h hold).mp ⟨ds, es, he, rfl, rfl⟩
      exact .inr ⟨present, rfl⟩

end Renaming

/-- **THE MEMBER PASS**: for every accessor, every key and every text, the member pass cuts the text
    into pieces, replaces those that are complete members, all of them, and copies all other
    characters; and complete members never overlap. -/
theorem member_pass_exact {accessor old : String} (ha : isAccessor accessor = true)
    (hold : IsKey old.toList) (new text : String) :
    ((Renaming.ofKeys accessor old new).memberPieces text.toList).flatMap Piece.old = text.toList ∧
    (∀ p ∈ (Renaming.ofKeys accessor old new).memberPieces text.toList, p.new = p.old ∨
      ∃ present, p = .replaced ((Renaming.ofKeys accessor old new).memberText present)
        (Renaming.dollar present ++ (Renaming.ofKeys accessor old new).target '"')) ∧
    (∀ front before after rest,
      ReplacedBetween ((Renaming.ofKeys accessor old new).memberPieces text.toList)
          front before after rest ↔
        ∃ present,
          (Renaming.ofKeys accessor old new).CompleteMember text.toList front present rest ∧
          before = (Renaming.ofKeys accessor old new).memberText present ∧
          after = Renaming.dollar present ++ (Renaming.ofKeys accessor old new).target '"') ∧
    (∀ front present rest front' present' rest',
      (Renaming.ofKeys accessor old new).CompleteMember text.toList front present rest →
      (Renaming.ofKeys accessor old new).CompleteMember text.toList front' present' rest' →
      front.length ≤ front'.length →
      (front = front' ∧ present = present' ∧ rest = rest') ∨
        (front ++ (Renaming.ofKeys accessor old new).memberText present).length
          ≤ front'.length) := by
  have hacc : IsAccessor (Renaming.ofKeys accessor old new).accessor := isAccessor_spec ha
  refine ⟨pieces_old _ _ _, ?_, ?_, ?_⟩
  · intro p hp
    exact Renaming.new_eq_old_or_replaced hacc hold hp
  · intro front before after rest
    exact Renaming.replacedBetween_memberPieces_iff hacc hold
  · intro front present rest front' present' rest' hmember hother hle
    exact hmember.apart hacc hold hother hle

/-- Behind a replaced member and a longer key stands a member that is replaced; the longer key
    is not. -/
theorem member_pass_exact_sample :
    (isAccessor "m" = true ∧ IsKey "hi".toList) ∧
    ReplacedBetween ((Renaming.ofKeys "m" "hi" "home.hi").memberPieces "$m.hi m.hi.x m.hi".toList)
      "$m.hi m.hi.x ".toList "m.hi".toList "m[\"home.hi\"]".toList [] ∧
    ¬ ReplacedBetween ((Renaming.ofKeys "m" "hi" "home.hi").memberPieces "$m.hi m.hi.x m.hi".toList)
      "$m.hi ".toList "m.hi".toList "m[\"home.hi\"]".toList ".x m.hi".toList := by
  have hpass := @member_pass_exact "m" "hi" (by decide) (by decide) "home.hi" "$m.hi m.hi.x m.hi"
  refine ⟨⟨by decide, by decide⟩, (hpass.2.2.1 _ _ _ _).mpr ⟨false, ⟨rfl, ?_, rfl⟩, rfl, rfl⟩, ?_⟩
  · exact .inr ⟨"$m.hi m.hi.x".toList, ' ', rfl, by decide, by decide, by decide⟩
  · rw [hpass.2.2.1]
    rintro ⟨present, hmember, -⟩
    cases hmember.ends

end MessageKeys.Reference
