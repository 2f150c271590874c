import MessageKeys.Proofs.Reference.Effect

/-! # Longer names — when another name is taken for the old key

    A name is read as far as it goes, over letters, digits, `_` and dollars.  A text that gives
    the accessor other names than the old key, and does not look the key up, has nothing to
    rename.  The member pass passes a longer name over when a letter, a digit, `_` or a point
    goes on behind the old key.  Of the characters of names this leaves out the dollar
    (`eq_dollar_of_not_continues`): behind the old key it ends the member but not the name.

    `longer_name_altered_iff` says that such a dollar is the only way to take a longer name for
    the old key. -/

namespace MessageKeys.Reference

open Text

namespace Renaming

variable {r : Renaming} {cs rest : List Char}

/-! ## Names -/

/-- The name at the front: characters of identifiers as far as they go. -/
def nameAt (cs : List Char) : List Char := cs.takeWhile isAccessorTail

/-- Wherever the accessor and a point stand, another name than the old key follows. -/
def NamesOthers (r : Renaming) (cs : List Char) : Prop :=
  ∀ before rest, cs = before ++ (r.accessor ++ '.' :: rest) → nameAt rest ≠ r.oldKey

/-- No lookup of the old key stands anywhere. -/
def LooksUpOthers (r : Renaming) (cs : List Char) : Prop :=
  ∀ before rest, cs = before ++ rest → ¬ r.LookupAt rest

/-- A longer name than the old key goes on behind it. -/
theorem exists_of_nameAt_ne (hold : ∀ c ∈ r.oldKey, isAccessorTail c = true)
    (hname : nameAt (r.oldKey ++ rest) ≠ r.oldKey) :
    ∃ c more, rest = c :: more ∧ isAccessorTail c = true := by
  rw [nameAt, List.takeWhile_append_of_pos hold] at hname
  cases rest with
  | nil => exact absurd (List.append_nil _) hname
  | cons c more =>
      refine ⟨c, more, rfl, Bool.of_not_eq_false fun hc => hname ?_⟩
      rw [List.takeWhile_cons, if_neg (by simp [hc]), List.append_nil]

/-- **DOLLARS**: of the characters of names, the dollar alone does not go on with a key. -/
theorem eq_dollar_of_not_continues {c : Char} (hc : isAccessorTail c = true)
    (hends : continues (c :: rest) = false) : c = '$' := by
  rw [continues, Bool.or_eq_false_iff, Bool.or_eq_false_iff] at hends
  obtain ⟨⟨halnum, hline⟩, -⟩ := hends
  rw [isAccessorTail, Bool.or_eq_true, Bool.or_eq_true, decide_eq_true_eq, decide_eq_true_eq] at hc
  rcases hc with (hc | rfl) | rfl
  · have hascii : isAscii c = true := decide_eq_true (isAlphanum_spec hc).2
    rw [isAlphanumeric, if_pos hascii, hc] at halnum
    cases halnum
  · cases hline
  · rfl

/-- Where other names follow, a member that ends as a key goes on with a dollar. -/
theorem HoldsMember.dollar_follows (hold : ∀ c ∈ r.oldKey, isAccessorTail c = true)
    (hnames : r.NamesOthers cs) {before : List Char} (hcs : cs = before ++ rest)
    (hmember : r.HoldsMember rest) :
    ∃ present more, rest = r.memberText present ++ '$' :: more := by
  obtain ⟨present, tail, rfl, hends⟩ := hmember
  have hplace : cs = (before ++ dollar present) ++ (r.accessor ++ '.' :: (r.oldKey ++ tail)) := by
    rw [hcs, memberText_append, access, List.append_assoc]
  obtain ⟨c, more, rfl, hc⟩ := exists_of_nameAt_ne hold (hnames _ _ hplace)
  obtain rfl := eq_dollar_of_not_continues hc hends
  exact ⟨present, more, rfl⟩

/-- Without lookups a renaming gives something exactly where a member stands. -/
theorem applyToChars?_ne_none_iff (h : IsAccessor r.accessor) (hlookups : r.LooksUpOthers cs) :
    r.applyToChars? cs ≠ none ↔
      ∃ before rest, cs = before ++ rest ∧ MayStart before ∧ r.HoldsMember rest := by
  rw [ne_eq, applyToChars?_eq_none_iff_not_refers h, not_not, Refers]
  constructor
  · rintro ⟨before, rest, hcs, hbefore, hmember | hlookup⟩
    · exact ⟨before, rest, hcs, hbefore, hmember⟩
    · exact absurd hlookup (hlookups before rest hcs)
  · rintro ⟨before, rest, hcs, hbefore, hmember⟩
    exact ⟨before, rest, hcs, hbefore, .inl hmember⟩

end Renaming

/-! ## Texts with longer names -/

/-- **LONGER NAMES**: take any accessor, any two keys, and a text in which other names than the
    first key follow the accessor and its point, and no lookup of the key stands.  A renaming
    changes the text exactly if a member of the key that is not the start of a longer one for the
    member pass stands where a reference may start.  If the key is made of the characters of names,
    this is a member with a dollar right behind it. -/
theorem longer_name_altered_iff {accessor old new : String} (ha : isAccessor accessor = true)
    (text : String) (hnames : (Renaming.ofKeys accessor old new).NamesOthers text.toList)
    (hlookups : (Renaming.ofKeys accessor old new).LooksUpOthers text.toList) :
    ((Renaming.ofKeys accessor old new).applyTo? text ≠ none ↔
      ∃ before rest, text.toList = before ++ rest ∧ MayStart before ∧
        (Renaming.ofKeys accessor old new).HoldsMember rest) ∧
    ((∀ c ∈ old.toList, isAccessorTail c = true) →
      ((Renaming.ofKeys accessor old new).applyTo? text ≠ none ↔
        ∃ before present more,
          text.toList = before ++
            ((Renaming.ofKeys accessor old new).memberText present ++ '$' :: more) ∧
          MayStart before)) := by
  have haltered : (Renaming.ofKeys accessor old new).applyTo? text ≠ none ↔
      ∃ before rest, text.toList = before ++ rest ∧ MayStart before ∧
        (Renaming.ofKeys accessor old new).HoldsMember rest := by
    rw [Renaming.applyTo?, ne_eq, Option.map_eq_none_iff]
    exact Renaming.applyToChars?_ne_none_iff (isAccessor_spec ha) hlookups
  refine ⟨haltered, fun hold => haltered.trans ⟨?_, ?_⟩⟩
  · rintro ⟨before, rest, hcs, hbefore, hmember⟩
    obtain ⟨present, more, rfl⟩ := hmember.dollar_follows hold hnames hcs
    exact ⟨before, present, more, hcs, hbefore⟩
  · rintro ⟨before, present, more, hcs, hbefore⟩
    exact ⟨before, _, hcs, hbefore, present, _, rfl, rfl⟩

/-- The name `hello$x` is not the key `hello`, and its front is replaced all the same. -/
theorem longer_name_altered_sample :
    (isAccessor "m" = true ∧
      (Renaming.ofKeys "m" "hello" "home.hello").NamesOthers "m.hello$x()".toList ∧
      (Renaming.ofKeys "m" "hello" "home.hello").LooksUpOthers "m.hello$x()".toList ∧
      ∀ c ∈ "hello".toList, isAccessorTail c = true) ∧
    (Renaming.ofKeys "m" "hello" "home.hello").applyTo? "m.hello$x()"
      = some "m[\"home.hello\"]$x()" ∧
    ∃ before present more, "m.hello$x()".toList = before ++
        ((Renaming.ofKeys "m" "hello" "home.hello").memberText present ++ '$' :: more) ∧
      MayStart before := by
  have hnames : (Renaming.ofKeys "m" "hello" "home.hello").NamesOthers "m.hello$x()".toList := by
    intro before rest he
    cases before with
    | nil =>
        obtain rfl : "hello$x()".toList = rest := (List.cons.inj (List.cons.inj he).2).2
        decide
    | cons b before =>
        -- the accessor stands at the front only
        have hmem : 'm' ∈ ".hello$x()".toList := by
          have htail : ".hello$x()".toList = before ++ 'm' :: '.' :: rest := (List.cons.inj he).2
          rw [htail]
          exact List.mem_append_right _ List.mem_cons_self
        exact absurd hmem (by decide)
  have hlookups : (Renaming.ofKeys "m" "hello" "home.hello").LooksUpOthers "m.hello$x()".toList := by
    rintro before rest he ⟨present, b, tail, rfl⟩
    have hmem : '[' ∈ "m.hello$x()".toList := by
      rw [he, Renaming.lookupText_append, Renaming.access]
      simp
    exact absurd hmem (by decide)
  have hold : ∀ c ∈ "hello".toList, isAccessorTail c = true := List.all_eq_true.mp (by decide)
  have hresult : (Renaming.ofKeys "m" "hello" "home.hello").applyTo? "m.hello$x()"
      = some "m[\"home.hello\"]$x()" := by decide +kernel
  have haltered := (longer_name_altered_iff (by decide) "m.hello$x()" hnames hlookups).2 hold
  exact ⟨⟨by decide, hnames, hlookups, hold⟩, hresult,
    haltered.mp (by rw [hresult]; rintro ⟨⟩)⟩

end MessageKeys.Reference
