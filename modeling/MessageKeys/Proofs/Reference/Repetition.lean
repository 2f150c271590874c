import MessageKeys.Proofs.Reference.Effect
import MessageKeys.Proofs.Reference.Remaining

/-! # Renaming again what was renamed

    A renaming that is done a second time should find nothing.  It does find something where the
    result of the first time refers to the old key, and there are two ways for that.

    Behind a reference that was replaced the search goes on for the other kind of reference only,
    so one of the same kind right behind it is overlooked (`Overlooked`).  And the new key stands
    in quotes, behind which a reference may start: if the new key is the accessor, a point and
    the old key, then it reads as a member of the old key.

    `refers_again_iff` says that there is no third way, and `renamed_again_iff` puts it in terms
    of the namespace that a key is moved to. -/

namespace MessageKeys.Reference

open Text

namespace Renaming

variable {r : Renaming} {free free' : Bool} {cs : List Char} {ps : List Piece}

/-- Right behind a reference that the pass replaces stands another one of its kind: a member that
    is not the start of a longer one behind a member, or a lookup behind a lookup. -/
def Overlooked (r : Renaming) (ps : List Piece) : Prop :=
  ∃ ds before after es, ps = ds ++ .replaced before after :: es ∧
    (((∃ present, before = r.memberText present) ∧ r.HoldsMember (es.flatMap Piece.old)) ∨
      (∃ present b, before = r.lookupText present b) ∧ r.LookupAt (es.flatMap Piece.old))

/-! ## What the result refers to was overlooked, or is a new key -/

/-- A reference that the result starts with was there before, and the pass did not look for its
    kind there. -/
theorem Passed.overlooks (h : r.ToDotted) (hpassed : Passed r free free' cs ps)
    (hat : r.HoldsMember (ps.flatMap Piece.new) ∨ r.LookupAt (ps.flatMap Piece.new)) :
    (free = false ∧ r.HoldsMember cs) ∨ (free' = false ∧ r.LookupAt cs) := by
  rcases hat with ⟨present, rest, he, hends⟩ | hlookup
  · obtain ⟨before, hbefore, hrest, hcontinues⟩ := hpassed.member_at_front h he
    rw [hrest.continues] at hends
    cases free with
    | false => exact .inl ⟨rfl, present, before, hbefore, hends⟩
    | true =>
        rw [hcontinues rfl] at hends
        cases hends
  · exact .inr (hpassed.lookup_at_front h hlookup)

/-- All characters of a key make a key go on. -/
theorem continues_of_mem {k : List Char} (hk : IsKey k) {c : Char} (hc : c ∈ k)
    (cs : List Char) : continues (c :: cs) = true := by
  show (isAlphanumeric c || decide (c = '_') || decide (c = '.')) = true
  rcases hk.chars c hc with htail | rfl
  · rw [isKeyTail, Bool.or_eq_true] at htail
    rcases htail with halnum | hline
    · have hascii : isAscii c = true := decide_eq_true (isAlphanum_spec halnum).2
      rw [isAlphanumeric, if_pos hascii, halnum]
      rfl
    · rw [hline, Bool.or_true]
      rfl
  · decide

/-- A member inside of a new reference that no more of a key follows is the whole new key. -/
theorem inside_holdsMember (h : r.Dotted) {quote : Char} (hquote : isQuote quote = true)
    {tail rest : List Char}
    (htail : tail = quote :: (r.newKey ++ [quote, ']']) ∨ tail = r.newKey ++ [quote, ']'] ∨
      tail = [']']) (hat : r.HoldsMember (tail ++ rest)) : r.newKey = r.memberText false := by
  obtain ⟨present, more, he, hends⟩ := hat
  obtain ⟨bs, hbs, rfl⟩ := inside_member h hquote htail he
  cases bs with
  | nil =>
      cases present with
      | true => exact absurd hbs (newKey_ne_dollar h)
      | false => rw [hbs, List.append_nil]
  | cons b bs =>
      have hmem : b ∈ r.newKey := hbs ▸ List.mem_append_right _ List.mem_cons_self
      rw [List.cons_append, continues_of_mem h.new hmem] at hends
      cases hends

/-- **NO THIRD WAY**: a result that refers to the old key holds a new key that reads as a member,
    or a reference that was overlooked. -/
theorem Passed.refers_only (h : r.Dotted) (hpassed : Passed r true true cs ps)
    (hrefers : r.Refers (ps.flatMap Piece.new)) :
    r.newKey = r.memberText false ∨ r.Overlooked ps := by
  obtain ⟨pre, post, hout, hmay, hat⟩ := hrefers
  -- where the pass looks for both kinds it leaves none
  have hnone : ∀ {cs : List Char} {ps : List Piece}, Passed r true true cs ps →
      ¬ (r.HoldsMember (ps.flatMap Piece.new) ∨ r.LookupAt (ps.flatMap Piece.new)) := by
    intro cs ps hpassed hat
    rcases hpassed.overlooks h.toDotted hat with ⟨hfree, -⟩ | ⟨hfree, -⟩
    · cases hfree
    · cases hfree
  rcases freeAfter_iff.mp ((freeAfter_iff_mayStart pre).mpr hmay) with rfl | ⟨init, c, rfl, hc⟩
  · rw [List.nil_append] at hout
    rw [← hout] at hat
    exact absurd hat (hnone hpassed)
  · rw [List.append_assoc] at hout
    have hbehind := hpassed.behind hc hout
    cases hbehind with
    | free passed => exact absurd hat (hnone passed)
    | inside hquote hne hsplit =>
        have htail := newText_split h hc hne hsplit
        rcases hat with hmember | hlookup
        · exact .inl (inside_holdsMember h hquote htail hmember)
        · exact absurd hlookup (inside_ne_lookup h hquote htail)
    | @replaced _ before after ds es _ =>
        -- behind a member the pass looks for lookups, behind a lookup for members
        obtain ⟨front, rest, -, ⟨present, rfl, tail⟩ | ⟨present, b, rfl, tail⟩⟩ :=
          hpassed.split_replaced
        · rcases tail.overlooks h.toDotted hat with ⟨-, hmember⟩ | ⟨hfree, -⟩
          · refine .inr ⟨ds, _, after, es, rfl, .inl ⟨⟨present, rfl⟩, ?_⟩⟩
            rw [tail.old_eq]
            exact hmember
          · cases hfree
        · rcases tail.overlooks h.toDotted hat with ⟨hfree, -⟩ | ⟨-, hlookup⟩
          · cases hfree
          · refine .inr ⟨ds, _, after, es, rfl, .inr ⟨⟨present, b, rfl⟩, ?_⟩⟩
            rw [tail.old_eq]
            exact hlookup

/-! ## Both are referred to -/

/-- A lookup is left where it is if the pass does not look for lookups there. -/
theorem Passed.keeps_lookup (h : r.ToDotted) {present : Bool} {b : Brackets} {rest : List Char}
    (hpassed : Passed r free false (r.lookupText present b ++ rest) ps) :
    r.LookupAt (ps.flatMap Piece.new) := by
  rw [← (hpassed.layered h).new_eq, memberPieces_lookup h, List.flatMap_append, flatMap_new_kept,
    lookupPieces_behind h, List.flatMap_append, flatMap_new_kept]
  exact ⟨present, b, _, rfl⟩

theorem memberText_ne_lookupText (h : r.ToDotted) {present present' : Bool} {b : Brackets} :
    r.memberText present ≠ r.lookupText present' b := by
  intro he
  rw [← List.append_nil (r.memberText present)] at he
  exact member_ne_bracket h.accessor he

/-- What was overlooked stands in the result, behind the bracket of a new reference. -/
theorem Overlooked.refers (h : r.ToDotted) (hpassed : Passed r true true cs ps)
    (hoverlooked : r.Overlooked ps) : r.Refers (ps.flatMap Piece.new) := by
  obtain ⟨ds, before, after, es, rfl, hkind⟩ := hoverlooked
  have hmem : .replaced before after ∈ ds ++ .replaced before after :: es :=
    List.mem_append_right _ List.mem_cons_self
  have hends := hpassed.replaced_ends hmem
  refine ⟨ds.flatMap Piece.new ++ after, es.flatMap Piece.new, ?_, ?_, ?_⟩
  · rw [List.flatMap_append, List.flatMap_cons, Piece.new, List.append_assoc]
  · rw [← freeAfter_iff_mayStart, freeAfter_append, hends]
  · obtain ⟨front, rest, -, ⟨present, rfl, tail⟩ | ⟨present, b, rfl, tail⟩⟩ :=
      hpassed.split_replaced
    · rw [tail.old_eq] at hkind
      rcases hkind with ⟨-, present', more, rfl, hmore⟩ | ⟨⟨present', b, he⟩, -⟩
      · obtain ⟨left, hleft, hcopied⟩ := tail.keeps_member h fun hfree => by cases hfree
        exact .inl ⟨present', left, hleft, hcopied.continues.trans hmore⟩
      · exact absurd he (memberText_ne_lookupText h)
    · rw [tail.old_eq] at hkind
      rcases hkind with ⟨⟨present', he⟩, -⟩ | ⟨-, present', b', more, rfl⟩
      · exact absurd he.symm (memberText_ne_lookupText h)
      · exact .inr (tail.keeps_lookup h)

/-- A new reference up to its first quote, and what follows. -/
theorem newText_quoted (present : Bool) (quote : Char) (rest : List Char) :
    r.newText present quote ++ rest
      = r.access present '[' [] ++ [quote] ++ (r.newKey ++ quote :: ']' :: rest) := by
  simp [newText, access]

/-- A new key that reads as a member is referred to wherever something was replaced. -/
theorem Passed.refers_newKey (hpassed : Passed r free free' cs ps)
    (hany : ps.any Piece.isReplaced = true) (hkey : r.newKey = r.memberText false) :
    r.Refers (ps.flatMap Piece.new) := by
  obtain ⟨p, hp, hreplaced⟩ := List.any_eq_true.mp hany
  obtain ⟨ds, es, rfl⟩ := List.append_of_mem hp
  cases p with
  | kept c => cases hreplaced
  | replaced before after =>
      obtain ⟨present, quote, hquote, rfl⟩ := (hpassed.replaces hp).exists_newText
      refine ⟨ds.flatMap Piece.new ++ (r.access present '[' [] ++ [quote]),
        r.newKey ++ quote :: ']' :: es.flatMap Piece.new, ?_, ?_, .inl ⟨false, _, by rw [hkey], ?_⟩⟩
      · rw [List.flatMap_append, List.flatMap_cons, Piece.new, newText_quoted, ← List.append_assoc]
      · rw [← freeAfter_iff_mayStart, ← List.append_assoc, freeAfter_append]
        exact (quote_spec hquote).1
      · rcases (isQuote_iff quote).mp hquote with rfl | rfl
        · rfl
        · rfl

/-- **REFERRED TO AGAIN**: where something was replaced, the result refers to the old key exactly if
    the new key reads as a member of it or a reference was overlooked. -/
theorem refers_again_iff (h : r.Dotted) {cs : List Char}
    (hany : (r.passOver true true cs).any Piece.isReplaced = true) :
    r.Refers ((r.passOver true true cs).flatMap Piece.new) ↔
      r.newKey = r.memberText false ∨ r.Overlooked (r.passOver true true cs) := by
  have hpassed := passed_passOver h.toDotted true true cs
  constructor
  · intro hrefers
    exact hpassed.refers_only h hrefers
  · rintro (hkey | hoverlooked)
    · exact hpassed.refers_newKey hany hkey
    · exact hoverlooked.refers h.toDotted hpassed

/-- A reference is overlooked only where two of one kind stand side by side. -/
theorem Overlooked.adjacent (hpassed : Passed r free free' cs ps) (hoverlooked : r.Overlooked ps) :
    r.Adjacent cs := by
  obtain ⟨ds, before, after, es, rfl, hkind⟩ := hoverlooked
  obtain ⟨front, rest, rfl, hrest⟩ : ∃ front rest, cs = front ++ (before ++ rest) ∧
      es.flatMap Piece.old = rest := by
    obtain ⟨front, rest, hcs, ⟨-, -, tail⟩ | ⟨-, -, -, tail⟩⟩ := hpassed.split_replaced
    · exact ⟨front, rest, hcs, tail.old_eq⟩
    · exact ⟨front, rest, hcs, tail.old_eq⟩
  rw [hrest] at hkind
  rcases hkind with ⟨⟨present, rfl⟩, present', more, rfl, -⟩ |
    ⟨⟨present, b, rfl⟩, present', b', more, rfl⟩
  · exact ⟨front, more, .inl ⟨present, present', rfl⟩⟩
  · exact ⟨front, more, .inr ⟨present, present', b, b', rfl⟩⟩

end Renaming

/-! ## Renamed texts -/

/-- A renaming finds something in its own result exactly if that refers to the old key. -/
theorem again_iff {r : Renaming} (h : r.Dotted) {text renamed : String}
    (hrenamed : r.applyTo? text = some renamed) :
    (∃ again, r.applyTo? renamed = some again) ↔
      r.newKey = r.memberText false ∨ r.Overlooked (r.passOver true true text.toList) := by
  obtain ⟨out, hout, rfl⟩ := Option.map_eq_some_iff.mp hrenamed
  obtain ⟨hany, rfl⟩ := (Renaming.applyToChars?_eq_some_iff h.toDotted).mp hout
  rw [← Renaming.refers_again_iff h hany, ← not_iff_not, ← Renaming.applyToChars?_eq_none_iff h.toDotted,
    Renaming.applyTo?, String.toList_ofList, not_exists, ← Option.eq_none_iff_forall_ne_some,
    Option.map_eq_none_iff]

section Namespace

variable {accessor old space : String}

/-- The key in its namespace. -/
theorem toList_qualified (space old : String) :
    (space ++ "." ++ old).toList = space.toList ++ '.' :: old.toList := by
  simp

/-- Moving a key to a namespace. -/
theorem dotted_ofKeys (ha : isAccessor accessor = true) (hold : IsKey old.toList)
    (hflat : '.' ∉ old.toList) (hspace : IsKey space.toList) :
    (Renaming.ofKeys accessor old (space ++ "." ++ old)).Dotted := by
  refine ⟨isAccessor_spec ha, hold, hflat, ?_, ?_⟩
  · show IsKey (space ++ "." ++ old).toList
    rw [toList_qualified]
    exact (isKey_point _ _).mpr ⟨hspace, hold⟩
  · show '.' ∈ (space ++ "." ++ old).toList
    rw [toList_qualified]
    exact List.mem_append_right _ List.mem_cons_self

/-- A key in a namespace reads as a member if the namespace is spelled like the accessor. -/
theorem qualified_eq_memberText_iff :
    (Renaming.ofKeys accessor old (space ++ "." ++ old)).newKey
      = (Renaming.ofKeys accessor old (space ++ "." ++ old)).memberText false ↔
        space = accessor := by
  show (space ++ "." ++ old).toList = accessor.toList ++ '.' :: old.toList ↔ space = accessor
  rw [toList_qualified, List.append_cancel_right_eq, String.toList_inj]

/-- **ONCE IS ENOUGH**: a renaming finds nothing in its own result, unless the namespace is spelled
    like the accessor or two references of one kind stand side by side in the text. -/
theorem renamed_once (ha : isAccessor accessor = true) (hold : IsKey old.toList)
    (hflat : '.' ∉ old.toList) (hspace : IsKey space.toList) (hne : space ≠ accessor)
    {text renamed : String}
    (hadjacent : ¬ (Renaming.ofKeys accessor old (space ++ "." ++ old)).Adjacent text.toList)
    (hrenamed : (Renaming.ofKeys accessor old (space ++ "." ++ old)).applyTo? text = some renamed) :
    (Renaming.ofKeys accessor old (space ++ "." ++ old)).applyTo? renamed = none := by
  have h := dotted_ofKeys ha hold hflat hspace
  rw [Option.eq_none_iff_forall_ne_some]
  intro again hagain
  rcases (again_iff h hrenamed).mp ⟨again, hagain⟩ with hkey | hoverlooked
  · exact hne (qualified_eq_memberText_iff.mp hkey)
  · exact hadjacent (hoverlooked.adjacent (Renaming.passed_passOver h.toDotted true true _))

/-- **RENAMED AGAIN**: a renaming that moves a key to a namespace finds something in its own result
    exactly if the namespace is spelled like the accessor, or a reference was overlooked behind
    one that it replaced. -/
theorem renamed_again_iff (ha : isAccessor accessor = true) (hold : IsKey old.toList)
    (hflat : '.' ∉ old.toList) (hspace : IsKey space.toList) {text renamed : String}
    (hrenamed : (Renaming.ofKeys accessor old (space ++ "." ++ old)).applyTo? text = some renamed) :
    (∃ again, (Renaming.ofKeys accessor old (space ++ "." ++ old)).applyTo? renamed = some again) ↔
      space = accessor ∨ (Renaming.ofKeys accessor old (space ++ "." ++ old)).Overlooked
        ((Renaming.ofKeys accessor old (space ++ "." ++ old)).passOver true true text.toList) := by
  rw [again_iff (dotted_ofKeys ha hold hflat hspace) hrenamed, qualified_eq_memberText_iff]

/-- Two lookups stand side by side, and the namespace has the name of the accessor. -/
theorem renamed_again_sample :
    ((Renaming.ofKeys "m" "hello" "home.hello").applyTo? "m['hello']m['hello']"
        = some "m['home.hello']m['hello']" ∧
      ∃ again, (Renaming.ofKeys "m" "hello" "home.hello").applyTo? "m['home.hello']m['hello']"
        = some again) ∧
    ((Renaming.ofKeys "m" "hello" "m.hello").applyTo? "m.hello()" = some "m[\"m.hello\"]()" ∧
      ∃ again, (Renaming.ofKeys "m" "hello" "m.hello").applyTo? "m[\"m.hello\"]()"
        = some again) := by
  have hagain := @renamed_again_iff "m" "hello"
  constructor
  · have hrenamed : (Renaming.ofKeys "m" "hello" "home.hello").applyTo? "m['hello']m['hello']"
        = some "m['home.hello']m['hello']" := by decide +kernel
    refine ⟨hrenamed, (@hagain "home" (by decide) (by decide) (by decide) (by decide) _ _
      hrenamed).mpr (.inr ?_)⟩
    have hpieces : (Renaming.ofKeys "m" "hello" "home.hello").passOver true true
        "m['hello']m['hello']".toList
        = [] ++ .replaced "m['hello']".toList "m['home.hello']".toList
          :: "m['hello']".toList.map .kept := by decide +kernel
    obtain ⟨b, hb⟩ : ∃ b, "m['hello']".toList
        = (Renaming.ofKeys "m" "hello" "home.hello").lookupText false b :=
      ⟨⟨[], '\'', '\'', [], by rintro _ ⟨⟩, rfl, rfl, by rintro _ ⟨⟩⟩, rfl⟩
    exact ⟨_, _, _, _, hpieces, .inr ⟨⟨false, b, hb⟩, false, b, [],
      by rw [List.append_nil]; exact hb⟩⟩
  · have hrenamed : (Renaming.ofKeys "m" "hello" "m.hello").applyTo? "m.hello()"
        = some "m[\"m.hello\"]()" := by decide +kernel
    exact ⟨hrenamed, (@hagain "m" (by decide) (by decide) (by decide) (by decide) _ _
      hrenamed).mpr (.inl rfl)⟩

end Namespace

end MessageKeys.Reference
