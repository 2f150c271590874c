import MessageKeys.Proofs.Reference.Exactness
import MessageKeys.Proofs.Reference.Places

/-! # What a renaming changes, and when it changes nothing

    A text refers to the old key where a reference may start and a member that is not the start
    of a longer one, or a lookup, stands there (`Refers`).  A renaming changes a text exactly if
    the text refers to the old key, since what a pass overlooks stands behind something that it
    has replaced (`pieces_any_iff`, `applyToChars?_eq_none_iff_not_refers`).

    Each piece of the pass is a character that is kept, or the old text of a reference with the
    new one in its place (`Replaces`).  The first of these is where the result begins to differ
    from the text, since the two texts of a reference differ in what follows the accessor or in
    what follows the quote (`Passed.new_ne`). -/

namespace MessageKeys.Reference

open Text

namespace Renaming

variable {r : Renaming} {free free' : Bool} {cs : List Char} {ps : List Piece}

/-- A member stands at the front, and no more of a key follows it. -/
def HoldsMember (r : Renaming) (cs : List Char) : Prop :=
  ∃ present rest, cs = r.memberText present ++ rest ∧ continues rest = false

/-- Somewhere the text goes on with a member or a lookup of the old key, and a reference may
    start there.  A line feed is no word character, so the start of a line is such a place. -/
def Refers (r : Renaming) (cs : List Char) : Prop :=
  ∃ before rest, cs = before ++ rest ∧ MayStart before ∧ (r.HoldsMember rest ∨ r.LookupAt rest)

/-! ## The pieces of the pass -/

/-- The old texts of the pieces are the text. -/
theorem Passed.old_eq (hpassed : Passed r free free' cs ps) : ps.flatMap Piece.old = cs := by
  induction hpassed with
  | nil => rfl
  | @kept _ _ c _ _ _ _ _ ih => exact congrArg (c :: ·) ih
  | member _ _ ih => rw [List.flatMap_cons, ih, Piece.old]
  | lookup _ ih => rw [List.flatMap_cons, ih, Piece.old]

/-- **A DIFFERENCE**: where something is replaced, the result is another text. -/
theorem Passed.new_ne (h : r.ToDotted) (hpassed : Passed r free free' cs ps)
    (hany : ps.any Piece.isReplaced = true) : ps.flatMap Piece.new ≠ cs := by
  induction hpassed with
  | nil => cases hany
  | kept _ _ _ ih =>
      intro he
      exact ih hany (List.cons.inj he).2
  | @member _ present rest _ _ _ _ =>
      intro he
      rw [List.flatMap_cons, Piece.new, newText_append] at he
      exact member_ne_bracket h.accessor he.symm
  | @lookup _ present b rest _ _ _ =>
      intro he
      exact new_ne_lookup h b.quote_opening he

/-! ## A pass replaces something exactly if there is a reference -/

/-- A pass replaces something exactly if it finds a reference where one may start: what it
    overlooks stands behind something that it has replaced. -/
theorem pieces_any_iff {find : List Char → Finding} (hfinds : FindsAccess find) (free : Bool)
    (cs : List Char) : (pieces find free cs).any Piece.isReplaced = true ↔
      ∃ before c rest, cs = before ++ c :: rest ∧ freeAfter free before = true ∧
        ∃ new more, find (c :: rest) = .reference new more := by
  induction cs generalizing free with
  | nil =>
      rw [pieces]
      refine iff_of_false (by rintro ⟨⟩) ?_
      rintro ⟨before, c, rest, he, -⟩
      exact List.append_ne_nil_of_right_ne_nil before (List.cons_ne_nil c rest) he.symm
  | cons c cs ih =>
      by_cases hhere : free = true ∧ ∃ new more, find (c :: cs) = .reference new more
      · obtain ⟨rfl, new, more, hfind⟩ := hhere
        rw [pieces, if_pos rfl, hfind]
        exact iff_of_true rfl ⟨[], c, cs, rfl, rfl, new, more, hfind⟩
      · -- the first character is kept, and the pass goes on behind it
        rw [pieces_keep hfinds fun hfree new more hfind => hhere ⟨hfree, new, more, hfind⟩]
        show (pieces find (isBoundary c) cs).any Piece.isReplaced = true ↔ _
        rw [ih]
        constructor
        · rintro ⟨before, d, rest, rfl, hbefore, hfound⟩
          exact ⟨c :: before, d, rest, rfl, hbefore, hfound⟩
        · rintro ⟨before, d, rest, he, hbefore, hfound⟩
          cases before with
          | nil =>
              obtain ⟨rfl, rfl⟩ := List.cons.inj he
              exact absurd ⟨hbefore, hfound⟩ hhere
          | cons b before =>
              obtain ⟨rfl, rfl⟩ := List.cons.inj he
              exact ⟨before, d, rest, rfl, hbefore, hfound⟩

/-- The member pass replaces something exactly if a member stands where a reference may start and
    is not the start of a longer one. -/
theorem any_memberPieces_iff (h : IsAccessor r.accessor) (cs : List Char) :
    (r.memberPieces cs).any Piece.isReplaced = true ↔
      ∃ before rest, cs = before ++ rest ∧ MayStart before ∧ r.HoldsMember rest := by
  rw [memberPieces, pieces_any_iff (findsAccess_findMember h)]
  constructor
  · rintro ⟨before, c, rest, rfl, hbefore, new, more, hfind⟩
    obtain ⟨present, he, hends, -⟩ := (findMember_iff h).mp hfind
    exact ⟨before, _, rfl, (freeAfter_iff_mayStart before).mp hbefore, present, more, he, hends⟩
  · rintro ⟨before, rest, rfl, hbefore, present, more, he, hends⟩
    have hne : rest ≠ [] :=
      he ▸ List.append_ne_nil_of_left_ne_nil (memberText_ne_nil present) more
    obtain ⟨c, tail, rfl⟩ := List.exists_cons_of_ne_nil hne
    exact ⟨before, c, tail, rfl, (freeAfter_iff_mayStart before).mpr hbefore, _, more,
      (findMember_iff h).mpr ⟨present, he, hends, rfl⟩⟩

/-- The lookup pass replaces something exactly if a lookup stands where a reference may start. -/
theorem any_lookupPieces_iff (h : IsAccessor r.accessor) (cs : List Char) :
    (r.lookupPieces cs).any Piece.isReplaced = true ↔
      ∃ before rest, cs = before ++ rest ∧ MayStart before ∧ r.LookupAt rest := by
  rw [lookupPieces, pieces_any_iff (findsAccess_findLookup h)]
  constructor
  · rintro ⟨before, c, rest, rfl, hbefore, new, more, hfind⟩
    obtain ⟨present, b, he, -⟩ := (findLookup_iff h).mp hfind
    exact ⟨before, _, rfl, (freeAfter_iff_mayStart before).mp hbefore, present, b, more, he⟩
  · rintro ⟨before, rest, rfl, hbefore, present, b, more, he⟩
    have hne : rest ≠ [] :=
      he ▸ List.append_ne_nil_of_left_ne_nil (lookupText_ne_nil present b) more
    obtain ⟨c, tail, rfl⟩ := List.exists_cons_of_ne_nil hne
    exact ⟨before, c, tail, rfl, (freeAfter_iff_mayStart before).mpr hbefore, _, more,
      (findLookup_iff h).mpr ⟨present, b, he, rfl⟩⟩

/-- **REFERENCES ARE FOUND**: for any two keys, a renaming gives nothing exactly for the texts that
    do not refer to the first one. -/
theorem applyToChars?_eq_none_iff_not_refers (h : IsAccessor r.accessor) (cs : List Char) :
    r.applyToChars? cs = none ↔ ¬ r.Refers cs := by
  have hrefers : r.Refers cs ↔ (r.memberPieces cs).any Piece.isReplaced = true ∨
      (r.lookupPieces cs).any Piece.isReplaced = true := by
    rw [any_memberPieces_iff h, any_lookupPieces_iff h, Refers]
    simp only [and_or_left, exists_or]
  rw [hrefers, applyToChars?]
  cases hfirst : (r.memberPieces cs).any Piece.isReplaced with
  | true => simp
  | false =>
      -- the second pass goes over the same text
      have hsame : (r.memberPieces cs).flatMap Piece.new = cs := by
        rw [new_eq_old hfirst, memberPieces, pieces_old]
      simp [hsame]

/-! ## The two passes -/

theorem any_map_kept (cs : List Char) : (cs.map Piece.kept).any Piece.isReplaced = false := by
  rw [List.any_map]
  exact List.any_eq_false.mpr fun _ _ => Bool.false_ne_true

/-- One of the two passes replaces something exactly if the one pass does. -/
theorem Layered.any_eq {first second : List Piece} (hlayered : Layered r ps first second) :
    (first.any Piece.isReplaced || second.any Piece.isReplaced) = ps.any Piece.isReplaced := by
  induction hlayered with
  | nil => rfl
  | kept _ ih => exact ih
  | member _ _ => rfl
  | lookup _ _ =>
      rw [List.any_append, any_map_kept]
      exact Bool.or_true _

/-- A renaming gives the new text of the one pass, where that replaces something. -/
theorem applyToChars?_eq (h : r.ToDotted) (cs : List Char) :
    r.applyToChars? cs = if (r.passOver true true cs).any Piece.isReplaced
      then some ((r.passOver true true cs).flatMap Piece.new) else none := by
  have hlayered := layered_passOver h cs
  rw [applyToChars?, hlayered.any_eq, hlayered.new_eq]

theorem applyToChars?_eq_none_iff (h : r.ToDotted) (cs : List Char) :
    r.applyToChars? cs = none ↔ ¬ r.Refers cs :=
  applyToChars?_eq_none_iff_not_refers h.accessor cs

theorem applyToChars?_eq_some_iff (h : r.ToDotted) {cs out : List Char} :
    r.applyToChars? cs = some out ↔ (r.passOver true true cs).any Piece.isReplaced = true ∧
      out = (r.passOver true true cs).flatMap Piece.new := by
  rw [applyToChars?_eq h]
  split
  · next hany =>
    rw [Option.some.injEq]
    exact ⟨fun he => ⟨hany, he.symm⟩, fun he => he.2.symm⟩
  · next hnone => exact iff_of_false (by rintro ⟨⟩) fun he => hnone he.1

end Renaming

/-! ## Renamed texts -/

/-- **ONLY REFERENCES**: for every accessor, every key and every other one with a point, a renaming
    gives nothing for the texts that do not refer to the first key.  For all others it gives
    another text, with references to the second key in place of some to the first, and with all
    other characters in their order. -/
theorem renaming_replaces_references {accessor old new : String} (ha : isAccessor accessor = true)
    (hold : IsKey old.toList) (hnew : IsKey new.toList) (hdotted : '.' ∈ new.toList)
    (hne : old ≠ new) (text : String) :
    ((Renaming.ofKeys accessor old new).applyTo? text = none ↔
      ¬ (Renaming.ofKeys accessor old new).Refers text.toList) ∧
    ∀ renamed, (Renaming.ofKeys accessor old new).applyTo? text = some renamed →
      renamed ≠ text ∧ ∃ ps : List Piece,
        ps.flatMap Piece.old = text.toList ∧ ps.flatMap Piece.new = renamed.toList ∧
          ∀ before after, .replaced before after ∈ ps →
            (Renaming.ofKeys accessor old new).Replaces before after := by
  have h : (Renaming.ofKeys accessor old new).ToDotted :=
    ⟨isAccessor_spec ha, hold, hnew, hdotted, fun he => hne (String.toList_inj.mp he)⟩
  have hpassed := Renaming.passed_passOver h true true text.toList
  refine ⟨?_, fun renamed hrenamed => ?_⟩
  · rw [Renaming.applyTo?, Option.map_eq_none_iff, Renaming.applyToChars?_eq_none_iff h]
  · obtain ⟨out, hout, rfl⟩ := Option.map_eq_some_iff.mp hrenamed
    obtain ⟨hany, rfl⟩ := (Renaming.applyToChars?_eq_some_iff h).mp hout
    refine ⟨?_, _, hpassed.old_eq, ?_, fun _ _ => hpassed.replaces⟩
    · intro he
      have hsame := congrArg String.toList he
      rw [String.toList_ofList] at hsame
      exact hpassed.new_ne h hany hsame
    · rw [String.toList_ofList]

/-- A member and a lookup are replaced, a longer key and another accessor stay. -/
theorem renaming_replaces_references_sample :
    (isAccessor "m" = true ∧ IsKey "hi".toList ∧ IsKey "home.hi".toList ∧
      '.' ∈ "home.hi".toList ∧ "hi" ≠ "home.hi") ∧
    (Renaming.ofKeys "m" "hi" "home.hi").applyTo? "m.his(am.hi)" = none ∧
    ¬ (Renaming.ofKeys "m" "hi" "home.hi").Refers "m.his(am.hi)".toList ∧
    ∃ ps : List Piece, ps.flatMap Piece.old = "$m.hi,m[ 'hi' ]".toList ∧
      ps.flatMap Piece.new = "$m[\"home.hi\"],m['home.hi']".toList ∧
        ∀ before after, .replaced before after ∈ ps →
          (Renaming.ofKeys "m" "hi" "home.hi").Replaces before after := by
  have hreplaces := @renaming_replaces_references "m" "hi" "home.hi" (by decide) (by decide)
    (by decide) (by decide) (by decide)
  have hnone : (Renaming.ofKeys "m" "hi" "home.hi").applyTo? "m.his(am.hi)" = none := by
    decide +kernel
  have hsome : (Renaming.ofKeys "m" "hi" "home.hi").applyTo? "$m.hi,m[ 'hi' ]"
      = some "$m[\"home.hi\"],m['home.hi']" := by decide +kernel
  exact ⟨⟨by decide, by decide, by decide, by decide, by decide⟩, hnone,
    (hreplaces _).1.mp hnone, ((hreplaces _).2 _ hsome).2⟩

end MessageKeys.Reference
