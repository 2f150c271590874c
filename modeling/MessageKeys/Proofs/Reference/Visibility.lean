import MessageKeys.Proofs.Reference.Index
import MessageKeys.Proofs.Reference.Scanner
import MessageKeys.Proofs.Route
import MessageKeys.Proofs.Suggestion

/-! # Which suggested keys the scanner can see

    A suggested key is written as a lookup.  The scanner reads the key of a lookup by its own
    grammar, but the namespace of a suggestion comes from the names of directories, which may
    be anything.  So a suggested key can be seen after a migration exactly if each of these
    names is a key by the grammar itself (`suggested_key_seen_iff`). -/

namespace MessageKeys.Reference

open Text

/-! ## Keys of texts and of an index -/

/-- The scanner reports keys only. -/
theorem isKey_of_mem_scan {accessor : String} (ha : isAccessor accessor = true) {text : String}
    {s : Site} (hs : s ∈ scan (Pattern.defaults accessor) text) : IsKey s.key.toList := by
  obtain ⟨n, line, -, h, hmem, -, rfl⟩ := mem_scan.mp hs
  obtain ⟨pre, post, key, rest, -, -, hfront, he⟩ := (mem_lineHits_defaults ha).mp hmem
  have hkey : h.key = key := congrArg Hit.key he
  show IsKey (String.ofList h.key).toList
  rw [String.toList_ofList, hkey]
  exact isKey_of_front? (isAccessor_spec ha) hfront

/-- So the keys of an index that was built by the scanner are keys. -/
theorem isKey_of_mem_index {accessor : String} (ha : isAccessor accessor = true)
    (changes : List Index.Change) {key : String} {sites : List Site}
    (h : (key, sites) ∈ (Index.Change.indexAfter (scan (Pattern.defaults accessor)) changes).toList) :
    IsKey key.toList := by
  obtain ⟨text, s, hs, rfl⟩ := (Index.represents_run _ changes).exists_found h
  exact isKey_of_mem_scan ha hs

/-! ## Lookups on their own -/

/-- The reference to a key with a point is a lookup without blanks. -/
theorem target_eq_lookup {r : Renaming} (hpoint : '.' ∈ r.newKey) {quote : Char}
    (hquote : isQuote quote = true) :
    r.target quote = r.accessor ++ '[' :: (Brackets.plain quote hquote).inside r.newKey := by
  rw [Renaming.target, if_pos (List.contains_iff_mem.mpr hpoint), Brackets.inside_plain]
  simp

/-- **LOOKUPS**: a lookup that stands alone is reported with its key exactly if that is one. -/
theorem lookup_seen_iff {accessor : String} (ha : isAccessor accessor = true) {quote : Char}
    (hquote : isQuote quote = true) (key : List Char) :
    (∃ s ∈ scan (Pattern.defaults accessor)
        (String.ofList (accessor.toList ++ '[' :: (Brackets.plain quote hquote).inside key)),
      s.form = .dynamicLookup ∧ s.key = String.ofList key) ↔ IsKey key := by
  have hacc := isAccessor_spec ha
  constructor
  · rintro ⟨s, hs, -, hkey⟩
    have hscanned := isKey_of_mem_scan ha hs
    rwa [hkey, String.toList_ofList] at hscanned
  · intro hkey
    have hfeed : '\n' ∉ accessor.toList ++ '[' :: (Brackets.plain quote hquote).inside key := by
      have haccessor : '\n' ∉ accessor.toList := fun h => by cases hacc.2 _ h
      have hnone : '\n' ∉ key := hkey.not_mem (by decide) (by decide)
      have hother : '\n' ≠ quote := by
        rintro rfl
        cases hquote
      simp [Brackets.inside_plain, haccessor, hnone, hother]
    have hstands : Stands .dynamicLookup accessor.toList key
        (accessor.toList ++ '[' :: (Brackets.plain quote hquote).inside key) := by
      refine ⟨[], ?_⟩
      rw [firstLine_of_not_mem hfeed]
      refine (Literal.dynamicLookup?_eq_some hacc).mpr ⟨hkey, false, Brackets.plain quote hquote, ?_⟩
      rw [List.append_nil]
      rfl
    refine (exists_site_of_form_iff rfl).mpr ((exists_hit_iff ha).mpr ⟨[], _, ?_, rfl, hstands⟩)
    rw [String.toList_ofList]
    rfl

/-! ## Suggestions -/

/-- A namespace with a key below it is a key exactly if all its directories are. -/
theorem isKey_newKey_iff {r : Route} {s : Suggestion} {file : String}
    (hnew : s.newKey = s.inNamespace ++ "." ++ s.key) (hkey : IsKey s.key.toList)
    (hfile : r.namespaceOf? file = some s.inNamespace) :
    IsKey s.newKey.toList ↔ ∀ d ∈ r.directories file, IsKey d.toList := by
  obtain ⟨hne, hjoin⟩ := Route.namespaceOf?_eq_some.mp hfile
  -- the new key is its directories and the old key, with points in between
  have hchars : s.newKey.toList = s.inNamespace.toList ++ '.' :: s.key.toList := by
    rw [hnew, String.toList_append, String.toList_append, List.append_assoc]
    rfl
  have hnamespace : s.inNamespace.toList = glue '.' ((r.directories file).map String.toList) := by
    rw [← hjoin, Key.join, Text.join, String.toList_ofList]
  rw [hchars, isKey_point, and_iff_left hkey, hnamespace, isKey_glue, List.forall_mem_map]
  exact fun h => hne (List.map_eq_nil_iff.mp h)

/-- **SUGGESTED KEYS**: for an index that was built by the scanner of an accessor, in any run of
    changes, a suggested key that is written as the renaming writes it is reported by that
    scanner exactly if all directories that make up its namespace are keys.  Nothing checks
    that, so a directory like `my-page` gives a key that is not seen again. -/
theorem suggested_key_seen_iff {accessor : String} (ha : isAccessor accessor = true)
    (changes : List Index.Change) (root : String) (depth : Nat) (threshold : Float)
    {s : Suggestion}
    (hs : s ∈ Suggestion.forIndex threshold (Route.ofPath root depth).namespaceOf?
      (Index.Change.indexAfter (scan (Pattern.defaults accessor)) changes)) :
    (∃ site ∈ scan (Pattern.defaults accessor)
        (String.ofList ((Renaming.ofKeys accessor s.key s.newKey).target '"')),
      site.form = .dynamicLookup ∧ site.key = s.newKey) ↔
      ∀ file ∈ s.files, ∀ d ∈ (Route.ofPath root depth).directories file, IsKey d.toList := by
  obtain ⟨⟨sites, hentry⟩, -, hnew, hne, hfiles⟩ := Suggestion.mem_forIndex hs
  have hkey := isKey_of_mem_index ha changes hentry
  have hpoint : '.' ∈ s.newKey.toList := by
    rw [hnew, String.toList_append, String.toList_append]
    exact List.mem_append_left _ (List.mem_append_right _ (List.mem_singleton_self _))
  have htarget : (Renaming.ofKeys accessor s.key s.newKey).target '"'
      = accessor.toList ++ '[' :: (Brackets.plain '"' (by decide)).inside s.newKey.toList :=
    target_eq_lookup hpoint (by decide)
  have hquote : isQuote '"' = true := by decide
  have hseen := lookup_seen_iff ha hquote s.newKey.toList
  rw [String.ofList_toList] at hseen
  rw [htarget, hseen]
  -- all files are in the one namespace, so any of them decides
  constructor
  · intro hnewKey file hfile
    exact (isKey_newKey_iff hnew hkey (hfiles file hfile)).mp hnewKey
  · intro hall
    obtain ⟨file, hfile⟩ := List.exists_mem_of_ne_nil _ hne
    exact (isKey_newKey_iff hnew hkey (hfiles file hfile)).mpr (hall file hfile)

/-- The directory `my-page` is no key. -/
theorem suggested_key_unseen_sample :
    ∃ s ∈ Suggestion.forIndex 0.6 (Route.ofPath "src/routes" 1).namespaceOf?
        (Index.Change.indexAfter (scan (Pattern.defaults "m"))
          [.rebuild [⟨"src/routes/my-page/+page.svelte", "m.hello()"⟩] (by decide)]),
      s.newKey = "my-page.hello" ∧
        ¬ ∃ site ∈ scan (Pattern.defaults "m")
            (String.ofList ((Renaming.ofKeys "m" s.key s.newKey).target '"')),
          site.form = .dynamicLookup ∧ site.key = s.newKey := by
  have hall : (Suggestion.forIndex 0.6 (Route.ofPath "src/routes" 1).namespaceOf?
      (Index.Change.indexAfter (scan (Pattern.defaults "m"))
        [.rebuild [⟨"src/routes/my-page/+page.svelte", "m.hello()"⟩] (by decide)])).map
          (fun s => (s.newKey, s.files))
      = [("my-page.hello", ["src/routes/my-page/+page.svelte"])] := by decide +kernel
  obtain ⟨s, hs, he⟩ := List.map_eq_singleton_iff.mp hall
  obtain ⟨hnewKey, hfiles⟩ := Prod.mk.inj he
  have hmem := hs ▸ List.mem_singleton_self s
  refine ⟨s, hmem, hnewKey, ?_⟩
  rw [suggested_key_seen_iff (by decide) _ _ _ _ hmem]
  intro hkeys
  have hfile : "src/routes/my-page/+page.svelte" ∈ s.files := by
    rw [hfiles]
    exact List.mem_singleton_self _
  have hkey : IsKey "my-page".toList := hkeys _ hfile "my-page" (by decide +kernel)
  cases hkey

end MessageKeys.Reference
