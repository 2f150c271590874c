import MessageKeys.Proofs.Reference.Exactness
import MessageKeys.Proofs.Reference.Places

/-! # Renamed references are seen again

    A renaming writes lookups, and the scanner reads them line by line in the text that both
    passes have left.  A pass replaces a reference where one may start, and what it puts there
    ends with a bracket, so behind each new reference one may start as well: whatever stands
    next to it, the scanner may start where a pass has replaced something
    (`Passed.free_before`).

    A new reference has no line feed in it and is a lookup for the scanner, and nothing else
    that the scanner knows starts like it.  So there is one site where it stands
    (`newText_seen`), and `renamed_references_seen` says so of all that the two passes have
    replaced. -/

namespace MessageKeys.Reference

open Text

/-! ## Places by line and column -/

/-- The line of a place, counted from one, by what stands before it. -/
def lineAt (before : List Char) : Nat := before.count '\n' + 1

/-- The column of a place, counted from one: the characters behind the last line feed. -/
def columnAt (before : List Char) : Nat := (before.reverse.takeWhile (· ≠ '\n')).length + 1

variable {before within : List Char}

theorem lineAt_append (hwithin : '\n' ∉ within) : lineAt (before ++ within) = lineAt before := by
  rw [lineAt, List.count_append, List.count_eq_zero_of_not_mem hwithin]
  rfl

theorem columnAt_append (hbefore : EndsLine before) (hwithin : '\n' ∉ within) :
    columnAt (before ++ within) = within.length + 1 := by
  have hrun : ∀ c ∈ within.reverse, decide (c ≠ '\n') = true := by
    intro c hc
    exact decide_eq_true fun he => hwithin (he ▸ List.mem_reverse.mp hc)
  have hend : before.reverse.takeWhile (· ≠ '\n') = [] := by
    rcases hbefore with rfl | hlast
    · rfl
    · obtain ⟨init, rfl⟩ := List.getLast?_eq_some_iff.mp hlast
      rw [List.reverse_concat, List.takeWhile_cons_of_neg (by decide)]
  rw [columnAt, List.reverse_append, List.takeWhile_append_of_pos hrun, hend, List.append_nil,
    List.length_reverse]

/-! ## Lookups of the scanner -/

namespace Renaming

variable {r : Renaming}

/-- What starts with an accessor and a bracket is a lookup for the scanner. -/
theorem form_of_bracket (h : IsAccessor r.accessor) {form : Form} {k literal after tail : List Char}
    {present : Bool} (hwrites : Writes r.accessor form k literal)
    (he : literal ++ after = r.access present '[' tail) : form = .dynamicLookup := by
  have hpoint : ∀ {present' rest}, r.access present' '.' rest ≠ r.access present '[' tail := by
    intro present' rest hsame
    obtain ⟨-, hsep, -⟩ := access_inj h (by decide) (by decide) hsame
    cases hsep
  cases hwrites with
  | templateCall => cases access_front h he
  | templateRef => cases access_front h he
  | @bareCall =>
      have hmember : r.access false '.' (k ++ ['(', ')'] ++ after) = r.access present '[' tail := by
        rw [← he, access]
        simp [dollar]
      exact absurd hmember hpoint
  | @callWithArgs _ args =>
      have hmember : r.access false '.' (k ++ '(' :: (args ++ [')']) ++ after)
          = r.access present '[' tail := by
        rw [← he, access]
        simp [dollar]
      exact absurd hmember hpoint
  | reactive =>
      have hmember : r.access true '.' (k ++ after) = r.access present '[' tail := by
        rw [← he, access]
        simp [dollar]
      exact absurd hmember hpoint
  | dynamicLookup => rfl

/-- A new reference is a lookup of the new key. -/
theorem writes_newText (h : r.ToDotted) (present : Bool) {quote : Char}
    (hquote : isQuote quote = true) :
    Writes r.accessor .dynamicLookup r.newKey (r.newText present quote) :=
  .dynamicLookup present (Brackets.plain quote hquote) ((isKey_iff_keySyntax _).mp h.new)

/-- It stands in one line. -/
theorem firstLine_newText (h : r.ToDotted) (present : Bool) {quote : Char}
    (hquote : isQuote quote = true) (tail : List Char) :
    firstLine (r.newText present quote ++ tail) = r.newText present quote ++ firstLine tail := by
  have hnone : ∀ {c : Char}, isAccessorTail c = false → isQuote c = false → c ≠ '.' → c ≠ '[' →
      c ≠ ']' → c ∉ r.newText present quote := by
    intro c htail hnoquote hpoint hbracket hbracket' hmem
    have hother : c ≠ quote := by
      rintro rfl
      rw [hquote] at hnoquote
      cases hnoquote
    have hkey : c ∉ r.newKey := h.new.not_mem htail hpoint
    rw [newText, access, ← List.append_assoc] at hmem
    rcases List.mem_append.mp hmem with hmem | hmem
    · rw [front_chars h.accessor present c hmem] at htail
      cases htail
    · simp [hbracket, hbracket', hother, hkey] at hmem
  exact firstLine_append (hnone (by decide) (by decide) (by decide) (by decide) (by decide))
    (hnone (by decide) (by decide) (by decide) (by decide) (by decide)) tail

end Renaming

/-- The text starts with `before` and this literal, and the scanner reports one site where the
    literal stands: a lookup of the key that is written like that. -/
def SeenAt (accessor key text : String) (before literal : List Char) : Prop :=
  before ++ literal <+: text.toList ∧ ∃ s, (scan (Pattern.defaults accessor) text).filter
      (fun s => s.line = lineAt before ∧ s.column = columnAt before) = [s] ∧
    s.form = .dynamicLookup ∧ s.key = key ∧ s.text.toList = literal

/-- The sites at one place are one site, if there is one and all are equal. -/
theorem scan_filter_eq {accessor text : String} {p : Site → Prop} [DecidablePred p] {s : Site}
    (hs : s ∈ scan (Pattern.defaults accessor) text) (hp : p s)
    (hunique : ∀ t ∈ scan (Pattern.defaults accessor) text, p t → t = s) :
    (scan (Pattern.defaults accessor) text).filter (fun t => p t) = [s] := by
  have hnodup : (scan (Pattern.defaults accessor) text).Nodup := by
    refine List.Pairwise.imp ?_ (sitesFrom_distinct accessor 1 _)
    rintro a b hne rfl
    exact hne ⟨rfl, rfl, rfl⟩
  refine List.perm_singleton.mp
    ((List.perm_ext_iff_of_nodup (hnodup.filter _) (List.pairwise_singleton _ s)).mpr fun t => ?_)
  rw [List.mem_filter, List.mem_singleton, decide_eq_true_eq]
  constructor
  · rintro ⟨ht, hpt⟩
    exact hunique t ht hpt
  · rintro rfl
    exact ⟨hs, hp⟩

/-- **NEW REFERENCES ARE SEEN**: where a reference may start, the scanner reports a new one, and no
    other site. -/
theorem newText_seen {accessor old new : String} (ha : isAccessor accessor = true)
    (h : (Renaming.ofKeys accessor old new).ToDotted) {present : Bool} {quote : Char}
    (hquote : isQuote quote = true) {text : String} {before tail : List Char}
    (hfree : freeAfter true before = true)
    (htext : text.toList
      = before ++ ((Renaming.ofKeys accessor old new).newText present quote ++ tail)) :
    SeenAt accessor new text before ((Renaming.ofKeys accessor old new).newText present quote) := by
  have hfirst := Renaming.firstLine_newText h present hquote tail
  have hwrites : Writes accessor.toList .dynamicLookup new.toList
      ((Renaming.ofKeys accessor old new).newText present quote) :=
    Renaming.writes_newText h present hquote
  have hbracket : (Renaming.ofKeys accessor old new).newText present quote ++ firstLine tail
      = (Renaming.ofKeys accessor old new).access present '['
        (quote :: (new.toList ++ quote :: ']' :: firstLine tail)) :=
    Renaming.newText_append present quote _
  generalize (Renaming.ofKeys accessor old new).newText present quote = literal at *
  -- the line that the reference stands in
  obtain ⟨start, within, rfl, hstart, hwithin, hline⟩ := getElem?_lines_of_place htext
    (by rw [hfirst]; exact List.append_ne_nil_of_left_ne_nil hwrites.ne_nil _)
  rw [hfirst] at hline
  rw [freeAfter_endsLine hstart, freeAfter_iff_mayStart] at hfree
  have hdivides : Divides accessor.toList (within ++ (literal ++ firstLine tail))
      ⟨.dynamicLookup, new.toList, within.length, within.length + literal.length⟩
      within literal (firstLine tail) :=
    ⟨rfl, rfl, rfl, hwrites, by rintro ⟨⟩, .inr hfree⟩
  have hsite := (site_mem_scan_iff ha hline ⟨_, _, _, hdivides⟩).mpr fun hin => by cases hin.1
  refine ⟨⟨tail, by rw [htext, List.append_assoc]⟩, _, scan_filter_eq hsite ⟨?_, ?_⟩ ?_, rfl,
    String.ofList_toList, hdivides.site_text _⟩
  · rw [lineAt_append hwithin]
    rfl
  · rw [columnAt_append hstart hwithin]
    rfl
  · -- any other site there starts with the same characters, so it is a lookup too
    rintro t ht ⟨htline, htcolumn⟩
    rw [lineAt_append hwithin] at htline
    rw [columnAt_append hstart hwithin] at htcolumn
    obtain ⟨g, ⟨front, other, after, hother⟩, -, rfl⟩ := exists_hit_of_mem_scan ha hline ht htline
    have hlength : g.start = within.length := Nat.succ.inj htcolumn
    obtain ⟨rfl, hrest⟩ := List.append_inj hother.line_eq (hlength.symm.trans hother.start_eq)
    have hform := Renaming.form_of_bracket h.accessor hother.writes (hrest.symm.trans hbracket)
    rw [Occurs.unique ha ⟨_, _, _, hother⟩ ⟨_, _, _, hdivides⟩ hform hlength]

/-! ## What the passes have replaced -/

namespace Renaming

variable {r : Renaming}

/-- Where a piece is replaced, a reference may start in the result. -/
theorem Passed.free_before {free free' : Bool} {cs : List Char} {ds es : List Piece}
    {before after : List Char} (hpassed : Passed r free free' cs (ds ++ .replaced before after :: es)) :
    freeAfter (free || free') (ds.flatMap Piece.new) = true := by
  induction ds generalizing free free' cs with
  | nil =>
      cases hpassed with
      | member => rfl
      | lookup => exact Bool.or_true _
  | cons p ds ih =>
      cases hpassed with
      | kept _ _ tail =>
          have htail := ih tail
          rw [Bool.or_self] at htail
          exact htail
      | member _ tail =>
          rw [List.flatMap_cons, freeAfter_append, Piece.new, freeAfter_newText]
          exact ih tail
      | lookup tail =>
          rw [List.flatMap_cons, freeAfter_append, Piece.new, freeAfter_newText]
          exact ih tail

/-- Kept characters hold no replaced piece. -/
theorem exists_of_map_kept_append {xs before after : List Char} {ps pre post : List Piece}
    (he : xs.map Piece.kept ++ ps = pre ++ .replaced before after :: post) :
    ∃ more, pre = xs.map .kept ++ more ∧ ps = more ++ .replaced before after :: post := by
  rcases List.append_eq_append_iff.mp he with ⟨more, rfl, hmore⟩ | ⟨more, hxs, hmore⟩
  · exact ⟨more, rfl, hmore⟩
  · cases more with
    | nil =>
        rw [List.append_nil] at hxs
        exact ⟨[], by rw [hxs, List.append_nil], hmore.symm⟩
    | cons p more =>
        obtain ⟨rfl, -⟩ := List.cons.inj hmore
        have hmem : Piece.replaced before after ∈ xs.map Piece.kept :=
          hxs ▸ List.mem_append_right _ List.mem_cons_self
        obtain ⟨c, -, hc⟩ := List.mem_map.mp hmem
        cases hc

theorem flatMap_old_kept (cs : List Char) : (cs.map Piece.kept).flatMap Piece.old = cs := by
  induction cs with
  | nil => rfl
  | cons c cs ih => exact congrArg (c :: ·) ih

variable {ps first second pre post : List Piece} {before after : List Char}

/-- What the first pass replaces is a member; the second pass keeps the new reference. -/
theorem Layered.first_replaced (h : Layered r ps first second)
    (hsplit : first = pre ++ .replaced before after :: post) :
    (∃ present, before = r.memberText present ∧ after = r.newText present '"') ∧
      ∃ front rest, second = front ++ (after.map .kept ++ rest) ∧
        front.flatMap Piece.old = pre.flatMap Piece.new ∧
        ∃ ds es, ps = ds ++ .replaced before after :: es ∧
          front.flatMap Piece.new = ds.flatMap Piece.new := by
  induction h generalizing pre with
  | nil => exact absurd hsplit.symm (List.append_ne_nil_of_right_ne_nil _ (List.cons_ne_nil _ _))
  | @kept c ps first second tail ih =>
      cases pre with
      | nil => cases hsplit
      | cons p pre =>
          obtain ⟨rfl, hrest⟩ := List.cons.inj hsplit
          obtain ⟨hshape, front, rest, rfl, hold, ds, es, rfl, hnew⟩ := ih hrest
          exact ⟨hshape, .kept c :: front, rest, rfl, congrArg (c :: ·) hold, .kept c :: ds, es, rfl,
            congrArg (c :: ·) hnew⟩
  | @member present ps first second tail ih =>
      cases pre with
      | nil =>
          obtain ⟨he, -⟩ := List.cons.inj hsplit
          cases he
          exact ⟨⟨present, rfl, rfl⟩, [], second, rfl, rfl, [], ps, rfl, rfl⟩
      | cons p pre =>
          obtain ⟨rfl, hrest⟩ := List.cons.inj hsplit
          obtain ⟨hshape, front, rest, rfl, hold, ds, es, rfl, hnew⟩ := ih hrest
          refine ⟨hshape, (r.newText present '"').map .kept ++ front, rest,
            (List.append_assoc _ _ _).symm, ?_, _ :: ds, es, rfl, ?_⟩
          · rw [List.flatMap_append, flatMap_old_kept, hold]
            rfl
          · rw [List.flatMap_append, flatMap_new_kept, hnew]
            rfl
  | @lookup present b ps first second tail ih =>
      obtain ⟨more, rfl, hrest⟩ := exists_of_map_kept_append hsplit
      obtain ⟨hshape, front, rest, rfl, hold, ds, es, rfl, hnew⟩ := ih hrest
      refine ⟨hshape, _ :: front, rest, rfl, ?_, _ :: ds, es, rfl, ?_⟩
      · rw [List.flatMap_append, flatMap_new_kept, ← hold]
        rfl
      · rw [List.flatMap_cons, List.flatMap_cons, hnew]

/-- What the second pass replaces is a lookup. -/
theorem Layered.second_replaced (h : Layered r ps first second)
    (hsplit : second = pre ++ .replaced before after :: post) :
    (∃ present, ∃ b : Brackets,
        before = r.lookupText present b ∧ after = r.newText present b.opening) ∧
      ∃ ds es, ps = ds ++ .replaced before after :: es ∧
        pre.flatMap Piece.new = ds.flatMap Piece.new := by
  induction h generalizing pre with
  | nil => exact absurd hsplit.symm (List.append_ne_nil_of_right_ne_nil _ (List.cons_ne_nil _ _))
  | @kept c ps first second tail ih =>
      cases pre with
      | nil => cases hsplit
      | cons p pre =>
          obtain ⟨rfl, hrest⟩ := List.cons.inj hsplit
          obtain ⟨hshape, ds, es, rfl, hnew⟩ := ih hrest
          exact ⟨hshape, .kept c :: ds, es, rfl, congrArg (c :: ·) hnew⟩
  | @member present ps first second tail ih =>
      obtain ⟨more, rfl, hrest⟩ := exists_of_map_kept_append hsplit
      obtain ⟨hshape, ds, es, rfl, hnew⟩ := ih hrest
      refine ⟨hshape, _ :: ds, es, rfl, ?_⟩
      rw [List.flatMap_append, flatMap_new_kept, hnew]
      rfl
  | @lookup present b ps first second tail ih =>
      cases pre with
      | nil =>
          obtain ⟨he, -⟩ := List.cons.inj hsplit
          cases he
          exact ⟨⟨present, b, rfl, rfl⟩, [], ps, rfl, rfl⟩
      | cons p pre =>
          obtain ⟨rfl, hrest⟩ := List.cons.inj hsplit
          obtain ⟨hshape, ds, es, rfl, hnew⟩ := ih hrest
          refine ⟨hshape, _ :: ds, es, rfl, ?_⟩
          rw [List.flatMap_cons, List.flatMap_cons, hnew]

end Renaming

/-! ## Renamed texts -/

/-- What the passes of a renaming have replaced in a text is seen in the text that they left. -/
structure ReferencesSeen (accessor old new text renamed : String) : Prop where
  /-- What the member pass replaces gets double quotes.  The lookup pass keeps it: where the text
      of the member pass goes on with it, so does the result, and there it is seen. -/
  members : ∀ pre before after post,
    (Renaming.ofKeys accessor old new).memberPieces text.toList
      = pre ++ .replaced before after :: post →
    (∃ present, before = (Renaming.ofKeys accessor old new).memberText present ∧
      after = (Renaming.ofKeys accessor old new).newText present '"') ∧
    ∃ front rest, (Renaming.ofKeys accessor old new).lookupPieces
        (((Renaming.ofKeys accessor old new).memberPieces text.toList).flatMap Piece.new)
        = front ++ (after.map .kept ++ rest) ∧
      front.flatMap Piece.old = pre.flatMap Piece.new ∧
      SeenAt accessor new renamed (front.flatMap Piece.new) after
  /-- What the lookup pass replaces keeps its first quote, and is seen. -/
  lookups : ∀ pre before after post,
    (Renaming.ofKeys accessor old new).lookupPieces
        (((Renaming.ofKeys accessor old new).memberPieces text.toList).flatMap Piece.new)
      = pre ++ .replaced before after :: post →
    (∃ present, ∃ b : Brackets,
      before = (Renaming.ofKeys accessor old new).lookupText present b ∧
      after = (Renaming.ofKeys accessor old new).newText present b.opening) ∧
    SeenAt accessor new renamed (pre.flatMap Piece.new) after

/-- **NEW REFERENCES STAY VISIBLE**: for every accessor, every key and every other one with a
    point, and every text that has references to the first, the scanner reports exactly one site
    where a pass has replaced a reference. -/
theorem renamed_references_seen {accessor old new : String} (ha : isAccessor accessor = true)
    (hold : IsKey old.toList) (hnew : IsKey new.toList) (hdotted : '.' ∈ new.toList)
    (hne : old ≠ new) {text renamed : String}
    (hrenamed : (Renaming.ofKeys accessor old new).applyTo? text = some renamed) :
    ReferencesSeen accessor old new text renamed := by
  have h : (Renaming.ofKeys accessor old new).ToDotted :=
    ⟨isAccessor_spec ha, hold, hnew, hdotted, fun he => hne (String.toList_inj.mp he)⟩
  have hresult : renamed.toList
      = ((Renaming.ofKeys accessor old new).passOver true true text.toList).flatMap Piece.new := by
    obtain ⟨cs, hcs, rfl⟩ := Option.map_eq_some_iff.mp hrenamed
    rw [String.toList_ofList, ← Renaming.applyToChars?_eq_passOver h, hcs]
    rfl
  have hpassed := Renaming.passed_passOver h true true text.toList
  have hlayered := Renaming.layered_passOver h text.toList
  -- where the one pass replaces something, its new text stands in the result and is seen
  have hseen : ∀ {ds es : List Piece} {before : List Char} {present : Bool} {quote : Char},
      isQuote quote = true →
      (Renaming.ofKeys accessor old new).passOver true true text.toList
        = ds ++ .replaced before ((Renaming.ofKeys accessor old new).newText present quote) :: es →
      SeenAt accessor new renamed (ds.flatMap Piece.new)
        ((Renaming.ofKeys accessor old new).newText present quote) := by
    intro ds es before present quote hquote hsplit
    rw [hsplit] at hpassed hresult
    rw [List.flatMap_append, List.flatMap_cons] at hresult
    exact newText_seen ha h hquote hpassed.free_before hresult
  constructor
  · intro pre before after post hsplit
    obtain ⟨⟨present, rfl, rfl⟩, front, rest, hsecond, hfront, ds, es, hpieces, hsame⟩ :=
      hlayered.first_replaced hsplit
    refine ⟨⟨present, rfl, rfl⟩, front, rest, hsecond, hfront, ?_⟩
    rw [hsame]
    exact hseen (by decide) hpieces
  · intro pre before after post hsplit
    obtain ⟨⟨present, b, rfl, rfl⟩, ds, es, hpieces, hsame⟩ := hlayered.second_replaced hsplit
    refine ⟨⟨present, b, rfl, rfl⟩, ?_⟩
    rw [hsame]
    exact hseen b.quote_opening hpieces

/-- A call and a lookup with a dollar, on two lines; the quotes of the lookup are kept. -/
theorem renamed_references_seen_sample :
    (isAccessor "m" = true ∧ IsKey "nav.home".toList ∧ IsKey "site.nav".toList ∧
      '.' ∈ "site.nav".toList ∧ "nav.home" ≠ "site.nav" ∧
      (Renaming.ofKeys "m" "nav.home" "site.nav").applyTo? "m.nav.home()\n\x7b$m[ 'nav.home' ]\x7d"
        = some "m[\"site.nav\"]()\n\x7b$m['site.nav']\x7d") ∧
      ReferencesSeen "m" "nav.home" "site.nav" "m.nav.home()\n\x7b$m[ 'nav.home' ]\x7d"
        "m[\"site.nav\"]()\n\x7b$m['site.nav']\x7d" := by
  have hrenamed : (Renaming.ofKeys "m" "nav.home" "site.nav").applyTo?
      "m.nav.home()\n\x7b$m[ 'nav.home' ]\x7d" = some "m[\"site.nav\"]()\n\x7b$m['site.nav']\x7d" := by
    decide +kernel
  exact ⟨⟨by decide, by decide, by decide, by decide, by decide, hrenamed⟩,
    renamed_references_seen (by decide) (by decide) (by decide) (by decide) (by decide) hrenamed⟩

end MessageKeys.Reference
