import MessageKeys.Command.Run
import MessageKeys.Proofs.Config.Discovery
import MessageKeys.Proofs.KeyStore.Renaming
import MessageKeys.Proofs.Search
import MessageKeys.Proofs.SourceFiles
import MessageKeys.Proofs.Suggestion

/-! # Seeding — the messages that a project knows

    The store of a project asks its catalogs in order, the one of the primary locale first,
    and the first one that has a key gives its message (`get?_keyStore`).  A catalog that
    cannot be read gives nothing and stands in the way of none.

    A migration asks the store before it changes any file, so which catalogs have the two keys
    of a suggestion decides whether the store refuses it (`store_seeded`). -/

namespace MessageKeys

variable {w v : Workspace} {p : Project} {key text : String}

/-! ## What a catalog gives -/

namespace LocaleFile

/-- The catalog can be read, and has the message under the key when it is flat. -/
def Gives (w : Workspace) (c : LocaleFile) (key text : String) : Prop :=
  ∃ source value catalog, w.readText c.path = .ok source ∧
    Json.Value.parse? source = some value ∧ Catalog.ofJson? value = some catalog ∧
    catalog.messages.get? key = some text

/-- The message of a catalog file under a key; none if the file cannot be read. -/
def message? (w : Workspace) (c : LocaleFile) (key : String) : Option String :=
  match Catalog.loadMessages w c.path with
  | .ok messages => messages.get? key
  | .error _ => none

/-- Messages are loaded from a file that reads as a text, parses, and is an object. -/
theorem loadMessages_eq_ok {path : Path} {messages : Messages} :
    Catalog.loadMessages w path = .ok messages ↔
      ∃ source value catalog, w.readText path = .ok source ∧
        Json.Value.parse? source = some value ∧ Catalog.ofJson? value = some catalog ∧
        messages = catalog.messages := by
  rw [Catalog.loadMessages]
  cases w.readText path with
  | error cause => simp
  | ok source =>
      dsimp only [Catalog.parseMessages]
      cases hv : Json.Value.parse? source with
      | none => simp [hv]
      | some value =>
          cases hc : Catalog.ofJson? value with
          | none => simp [hv, hc]
          | some catalog => simp [hv, hc, eq_comm]

/-- A catalog that cannot be loaded gives no message. -/
theorem message?_eq_some_iff {c : LocaleFile} :
    c.message? w key = some text ↔ c.Gives w key text := by
  rw [message?, Gives]
  cases hload : Catalog.loadMessages w c.path with
  | error fault =>
      refine iff_of_false (by rintro ⟨⟩) ?_
      rintro ⟨source, value, catalog, hread, hvalue, hcatalog, -⟩
      rw [loadMessages_eq_ok.mpr ⟨source, value, catalog, hread, hvalue, hcatalog, rfl⟩] at hload
      cases hload
  | ok messages =>
      obtain ⟨source, value, catalog, hread, hvalue, hcatalog, rfl⟩ := loadMessages_eq_ok.mp hload
      simp [hread, hvalue, hcatalog]

theorem message?_eq_none_iff {c : LocaleFile} :
    c.message? w key = none ↔ ∀ text, ¬ c.Gives w key text := by
  rw [Option.eq_none_iff_forall_ne_some]
  exact forall_congr' fun text => not_congr message?_eq_some_iff

end LocaleFile

/-! ## What the store takes from the catalogs -/

namespace Project

/-- One catalog adds its messages for the keys that are not known yet, or nothing. -/
theorem get?_addCatalog (w : Workspace) (s : KeyStore) (c : LocaleFile) (key : String) :
    (match Catalog.loadMessages w c.path with
      | .ok messages => s.addMissing messages
      | .error _ => s).get? key
      = (s.get? key).or
        ((c.message? w key).map fun text => StoredKey.ofKey key (some text)) := by
  rw [LocaleFile.message?]
  cases Catalog.loadMessages w c.path with
  | error fault => exact Option.or_none.symm
  | ok messages => exact KeyStore.get?_addMissing s messages key

/-- Catalogs in a row: what was known first, then the first catalog that has the key. -/
theorem get?_addCatalogs (w : Workspace) (cs : List LocaleFile) (s : KeyStore) (key : String) :
    (cs.foldl (fun s c =>
      match Catalog.loadMessages w c.path with
      | .ok messages => s.addMissing messages
      | .error _ => s) s).get? key
      = (s.get? key).or ((cs.findSome? fun c => c.message? w key).map
          fun text => StoredKey.ofKey key (some text)) := by
  induction cs generalizing s with
  | nil => exact Option.or_none.symm
  | cons c rest ih =>
      rw [List.foldl_cons, ih, get?_addCatalog, List.findSome?_cons]
      cases s.get? key with
      | some record => rfl
      | none => cases c.message? w key <;> rfl

theorem get?_keyStore (p : Project) (w : Workspace) (key : String) :
    (p.keyStore w).get? key = (p.catalogsInOrder.findSome? fun c => c.message? w key).map
      fun text => StoredKey.ofKey key (some text) :=
  get?_addCatalogs w p.catalogsInOrder KeyStore.empty key

/-- The value of a key comes from the first catalog that gives a message for it. -/
theorem value?_keyStore (p : Project) (w : Workspace) (key : String) :
    (p.keyStore w).value? key = p.catalogsInOrder.findSome? fun c => c.message? w key := by
  rw [KeyStore.value?, get?_keyStore]
  cases p.catalogsInOrder.findSome? fun c => c.message? w key <;> rfl

/-- The catalogs other than the one of the primary locale. -/
def otherCatalogs (p : Project) : List LocaleFile :=
  p.catalogs.filter fun c => some c ≠ p.primaryCatalog?

/-- The primary catalog comes first, if there is one. -/
theorem catalogsInOrder_eq (p : Project) :
    p.catalogsInOrder = p.primaryCatalog?.toList ++ p.otherCatalogs := by
  rw [catalogsInOrder, otherCatalogs]
  cases p.primaryCatalog? with
  | none => exact (List.filter_eq_self.mpr fun c _ => rfl).symm
  | some primary => simp

theorem mem_catalogsInOrder_iff {c : LocaleFile} : c ∈ p.catalogsInOrder ↔ c ∈ p.catalogs := by
  rw [catalogsInOrder_eq, List.mem_append, otherCatalogs, List.mem_filter, Option.mem_toList]
  constructor
  · rintro (hprimary | ⟨hc, -⟩)
    · exact List.mem_of_find?_eq_some hprimary
    · exact hc
  · intro hc
    by_cases hprimary : p.primaryCatalog? = some c
    · exact .inl hprimary
    · exact .inr ⟨hc, by simpa using Ne.symm hprimary⟩

/-- A key is known if a catalog has it. -/
theorem get?_keyStore_ne_none_iff :
    (p.keyStore w).get? key ≠ none ↔ ∃ c ∈ p.catalogs, ∃ text, c.Gives w key text := by
  rw [get?_keyStore, Ne, Option.map_eq_none_iff, List.findSome?_eq_none_iff]
  simp only [mem_catalogsInOrder_iff, LocaleFile.message?_eq_none_iff, not_forall, not_not,
    exists_prop]

/-- The message of a key comes from the first catalog in order that has it. -/
def Seeds (p : Project) (w : Workspace) (key text : String) : Prop :=
  (∃ primary, p.primaryCatalog? = some primary ∧ primary.Gives w key text) ∨
  (∀ primary, p.primaryCatalog? = some primary → ∀ other, ¬ primary.Gives w key other) ∧
    ∃ before c after, p.otherCatalogs = before ++ c :: after ∧ c.Gives w key text ∧
      ∀ b ∈ before, ∀ other, ¬ b.Gives w key other

/-- A value is that of the primary catalog, or of the first other one if this gives none. -/
theorem value?_keyStore_eq_some_iff :
    (p.keyStore w).value? key = some text ↔ p.Seeds w key text := by
  rw [value?_keyStore, catalogsInOrder_eq, List.findSome?_append, Option.or_eq_some_iff]
  simp only [List.findSome?_eq_some_iff, List.findSome?_eq_none_iff, Option.mem_toList,
    LocaleFile.message?_eq_some_iff, LocaleFile.message?_eq_none_iff]
  refine or_congr ?_ Iff.rfl
  -- the list of the primary catalog has at most one member
  cases p.primaryCatalog? with
  | none => simp
  | some primary =>
      constructor
      · rintro ⟨before, c, after, hlist, hgives, -⟩
        have hc : c ∈ [primary] := by
          rw [show [primary] = before ++ c :: after from hlist]
          exact List.mem_append_right _ List.mem_cons_self
        exact ⟨primary, rfl, List.mem_singleton.mp hc ▸ hgives⟩
      · rintro ⟨primary', hprimary, hgives⟩
        cases hprimary
        exact ⟨[], primary, [], rfl, hgives, fun b hb => absurd hb List.not_mem_nil⟩

/-- A project that was loaded has the settings of its directory, and the catalogs of these
    settings. -/
theorem parts_of_load {a : ProjectArguments} (h : load w a = .ok p) :
    ∃ loaded, Config.load w ((a.path.map Path.mk).getD w.herePath) = .ok loaded ∧
      p.config = configFor a loaded.config ∧ p.config.catalogs w loaded.root = .ok p.catalogs := by
  unfold load at h
  dsimp only at h
  split at h
  · cases h
  · next loaded hloaded =>
    split at h
    · cases h
    · split at h
      · cases h
      · next hcatalogs =>
        cases h
        exact ⟨loaded, hloaded, rfl, hcatalogs⟩

/-- The catalogs of a project that was loaded are in order of locale. -/
theorem catalogs_ordered {a : ProjectArguments} (h : load w a = .ok p) :
    p.catalogs.Pairwise fun c d => c.locale ≤ d.locale := by
  obtain ⟨_, -, -, hcatalogs⟩ := parts_of_load h
  exact Config.catalogs_ordered hcatalogs

end Project

/-! ## What the store refuses -/

namespace Migration

/-- A suggestion fails by the store exactly if the store refuses to rename its key. -/
theorem attempt_store_iff {s : Settings} {x : Suggestion} {store : KeyStore} {fault : StoreFault}
    (hne : x.key ≠ x.newKey) :
    (attempt s x (Trail.start w store)).2 = some (.store fault) ↔
      store.rename x.key x.newKey = .error fault := by
  have hstart : (Trail.start w store).store.rename x.key x.newKey
      = store.rename x.key x.newKey := rfl
  rw [attempt]
  dsimp only
  rw [if_neg hne, hstart]
  cases store.rename x.key x.newKey with
  | error fault' =>
      dsimp only
      rw [Option.some.injEq, MigrationFault.store.injEq, Except.error.injEq]
  | ok renamed =>
      obtain ⟨moved, store'⟩ := renamed
      dsimp only
      -- what fails behind the store fails for another reason
      refine iff_of_false ?_ (by rintro ⟨⟩)
      repeat' split
      all_goals rintro ⟨⟩

/-- A run of one suggestion fails for the reason for which its attempt does. -/
theorem failed_run_single (s : Settings) (w : Workspace) (store : KeyStore) (x : Suggestion)
    (reason : MigrationFault) :
    (∃ f ∈ (run s w store [x]).outcome.failed, f.suggestion = x ∧ f.reason = reason) ↔
      (attempt s x (Trail.start w store)).2 = some reason := by
  show (∃ f ∈ (step s ⟨w, store, Outcome.empty⟩ x).outcome.failed, _) ↔ _
  rw [step]
  dsimp only
  cases hattempt : attempt s x (Trail.start w store) with
  | mk q fault? =>
      cases fault? with
      | none =>
          refine iff_of_false ?_ (by rintro ⟨⟩)
          rintro ⟨f, hf, -⟩
          cases hf
      | some found => simp [Outcome.empty]

end Migration

namespace Command

open Migration

/-- A suggestion of a project gives its key another name. -/
theorem newKey_ne_of_suggested {t : Float} {keys : List String} {x : Suggestion}
    (h : x ∈ (select (p.suggestions t) keys).1) : x.key ≠ x.newKey := by
  have hx : x ∈ p.suggestions t := by
    rw [select] at h
    split at h
    · exact h
    · exact (List.mem_filter.mp h).1
  obtain ⟨-, hflat, hnew, -⟩ := Suggestion.mem_forIndex hx
  intro he
  rw [he, hnew] at hflat
  refine hflat ?_
  rw [String.toList_append, String.toList_append]
  exact List.mem_append_left _ (List.mem_append_right _ List.mem_cons_self)

/-- What `apply` did with one suggestion, if it was to write. -/
theorem outcome_of_apply {o : Options} {a : Application} {r : Result} {x : Suggestion}
    (hload : Project.load w o.project = .ok p) (happly : o.apply = true)
    (hrun : runApply w o = .ok (r, v)) (hsummary : r.summary = .apply a)
    (hone : a.suggestions = [x]) :
    x.key ≠ x.newKey ∧ a.outcome = some (migrate w p [x]).1 := by
  unfold runApply at hrun
  rw [hload] at hrun
  dsimp only at hrun
  split at hrun
  · cases hrun
  · next t _ =>
    split at hrun
    · cases hrun
      cases hsummary
      have hx : (select (p.suggestions t) o.keys).1 = [x] := hone
      refine ⟨newKey_ne_of_suggested (hx ▸ List.mem_cons_self), ?_⟩
      show some (migrate w p (select (p.suggestions t) o.keys).1).1 = _
      rw [hx]
    · next hempty =>
      cases hrun
      cases hsummary
      have hx : (select (p.suggestions t) o.keys).1 = [x] := hone
      rw [happly, hx] at hempty
      exact absurd rfl hempty

/-- The one suggestion that was migrated failed for this reason. -/
def FailsFor (o : Outcome) (x : Suggestion) (reason : MigrationFault) : Prop :=
  ∃ f ∈ o.failed, f.suggestion = x ∧ f.reason = reason

/-- **SEEDING**: the message of a key in the store of a project is that of the primary
    catalog, or else of the first other one in order of locale that can be read and has the
    key, or there is none.  So the migration of one suggestion is refused as unknown exactly
    if no catalog that can be read has its key, and as taken exactly if one has its key and
    one its new key; and that is the migration that `apply --apply` runs for it. -/
theorem store_seeded {o : Options} (hload : Project.load w o.project = .ok p) :
    p.catalogs.Pairwise (fun c d => c.locale ≤ d.locale) ∧
    (∀ key text, (p.keyStore w).value? key = some text ↔ p.Seeds w key text) ∧
    (∀ x : Suggestion, x.key ≠ x.newKey →
      (FailsFor (migrate w p [x]).1 x (.store (.unknownKey x.key)) ↔
        ∀ c ∈ p.catalogs, ∀ text, ¬ c.Gives w x.key text) ∧
      (FailsFor (migrate w p [x]).1 x (.store (.keyExists x.newKey)) ↔
        (∃ c ∈ p.catalogs, ∃ text, c.Gives w x.key text) ∧
          ∃ c ∈ p.catalogs, ∃ text, c.Gives w x.newKey text)) ∧
    ∀ (r : Result) (v : Workspace) (a : Application) (x : Suggestion), o.apply = true →
      runApply w o = .ok (r, v) → r.summary = .apply a → a.suggestions = [x] →
      x.key ≠ x.newKey ∧ a.outcome = some (migrate w p [x]).1 := by
  refine ⟨Project.catalogs_ordered hload, fun key text => Project.value?_keyStore_eq_some_iff,
    fun x hne => ⟨?_, ?_⟩, fun r v a x => outcome_of_apply hload⟩
  · refine (failed_run_single _ w (p.keyStore w) x _).trans ?_
    rw [attempt_store_iff hne, KeyStore.rename_eq_unknownKey_iff, ← not_iff_not, ← Ne,
      Project.get?_keyStore_ne_none_iff]
    simp only [not_forall, not_not, exists_prop]
  · refine (failed_run_single _ w (p.keyStore w) x _).trans ?_
    rw [attempt_store_iff hne, KeyStore.rename_eq_keyExists_iff,
      Project.get?_keyStore_ne_none_iff, Project.get?_keyStore_ne_none_iff]

/-- A project with a catalog that is cut off, with a key that only another locale has, and with
    a source file that could do with this key. -/
private def sampleCatalogs : Workspace where
  tree := ⟨[(["messages"], .directory),
    (["messages", "da.json"], .file "\x7b\"hello\": ".toUTF8 false),
    (["messages", "de.json"],
      .file "\x7b\"hello\": \"Hallo\", \"home\": \x7b\"hello\": \"Daheim\"\x7d\x7d".toUTF8 false),
    (["messages", "en.json"], .file "\x7b\"hello\": \"Hello\"\x7d".toUTF8 false),
    (["src"], .directory), (["src", "routes"], .directory), (["src", "routes", "home"], .directory),
    (["src", "routes", "home", "a.svelte"], .file "m.hello()".toUTF8 false)]⟩
  here := []
  clock := fun _ => "T"
  ticks := 0

/-- The options of `apply --apply`. -/
private def sampleOptions : Options := { Options.none with apply := true }

private def sampleBye : Suggestion := ⟨"bye", "home.bye", "home", [], 1.0, ""⟩

/-- What follows the directory in the pattern of the catalogs. -/
private def sampleEnd : List Glob.Token :=
  .anyRun :: ".json".toList.map .char

private theorem expandFrom_sampleCatalogs :
    Glob.expandFrom sampleCatalogs false ["messages".toList.map .char, sampleEnd] ⟨"/"⟩
      = [⟨"/messages/da.json"⟩, ⟨"/messages/de.json"⟩, ⟨"/messages/en.json"⟩] := by
  have hnames : sampleCatalogs.tree.names ["messages"] = ["da.json", "de.json", "en.json"] :=
    List.mergeSort_of_pairwise (by decide)
  have hinside : sampleCatalogs.names? ⟨"/messages"⟩ = some ["da.json", "de.json", "en.json"] :=
    Workspace.names?_eq_some.mpr ⟨["messages"],
      SourceFiles.toOption_eq_some_iff.mp (by decide +kernel), by decide +kernel, hnames.symm⟩
  have hfirst : Glob.literal? ("messages".toList.map .char) = some "messages".toList := by
    decide +kernel
  have hsecond : Glob.literal? sampleEnd = none := by decide +kernel
  rw [Glob.expandFrom, if_neg (by decide), hfirst]
  dsimp only
  rw [if_pos (by decide +kernel), show Glob.child _ _ = (⟨"/messages"⟩ : Path) by decide +kernel,
    Glob.expandFrom, if_neg (by decide), hsecond]
  dsimp only
  rw [hinside]
  decide +kernel

private theorem catalogs_sampleCatalogs : Config.default.catalogs sampleCatalogs ⟨"/"⟩
    = .ok [⟨"da", ⟨"/messages/da.json"⟩⟩, ⟨"de", ⟨"/messages/de.json"⟩⟩,
      ⟨"en", ⟨"/messages/en.json"⟩⟩] := by
  have hsplit : Config.splitAtPlaceholder? Config.default.catalogPattern.toList
      = some ([], ".json".toList) := by
    decide +kernel
  have htokens : (Glob.tokens? "/messages/*.json").isSome = true := by decide +kernel
  have hcomponents : (Glob.componentTexts "/messages/*.json").mapM Glob.tokens?
      = some ["messages".toList.map .char, sampleEnd] := by
    decide +kernel
  have hexpand : Glob.expand? sampleCatalogs "/messages/*.json"
      = some [⟨"/messages/da.json"⟩, ⟨"/messages/de.json"⟩, ⟨"/messages/en.json"⟩] := by
    obtain ⟨ts, hts⟩ := Option.isSome_iff_exists.mp htokens
    rw [Glob.expand?, hts, hcomponents, ← expandFrom_sampleCatalogs]
    exact congrArg some (by congr 1 <;> decide +kernel)
  refine Config.catalogs_eq_ok.mpr ⟨_, ?_, (List.mergeSort_of_pairwise (by decide)).symm⟩
  rw [Config.found, if_pos (by decide), Config.discover, hsplit]
  dsimp only
  rw [show _ ++ Glob.escape (String.ofList ".json".toList) = "/messages/*.json" by decide +kernel,
    hexpand]
  exact congrArg Except.ok (by decide +kernel)

/-- The suggestion that `apply --apply` finds fails, as the other locale has its new key. -/
theorem store_seeded_sample :
    ∃ p, Project.load sampleCatalogs sampleOptions.project = .ok p ∧
      (p.keyStore sampleCatalogs).value? "hello" = some "Hello" ∧
      (p.keyStore sampleCatalogs).value? "home.hello" = some "Daheim" ∧
      FailsFor (migrate sampleCatalogs p [sampleBye]).1 sampleBye (.store (.unknownKey "bye")) ∧
      ∃ r v a x outcome, runApply sampleCatalogs sampleOptions = .ok (r, v) ∧
        r.summary = .apply a ∧ a.suggestions = [x] ∧ a.outcome = some outcome ∧
        FailsFor outcome x (.store (.keyExists "home.hello")) := by
  have hasked : ((Project.load sampleCatalogs sampleOptions.project).toOption.bind fun p =>
      (thresholdFor sampleOptions p).toOption.map fun t =>
        (select (p.suggestions t) sampleOptions.keys).1.map fun x => (x.key, x.newKey))
          = some [("hello", "home.hello")] := by
    decide +kernel
  obtain ⟨p, hp, hasked⟩ := Option.bind_eq_some_iff.mp hasked
  obtain ⟨t, ht, hasked⟩ := Option.map_eq_some_iff.mp hasked
  obtain ⟨x, hx, hkeys⟩ := List.map_eq_singleton_iff.mp hasked
  obtain ⟨hkey, hnewKey⟩ := Prod.mk.inj hkeys
  have hload := SourceFiles.toOption_eq_some_iff.mp hp
  have hconfig : Config.load sampleCatalogs sampleCatalogs.herePath
      = .ok ⟨Config.default, ⟨"/"⟩, false⟩ := by
    rw [Config.load, show Config.find? sampleCatalogs sampleCatalogs.herePath = none by
      decide +kernel]
    rfl
  obtain ⟨loaded, hloaded, hsettings, hfound⟩ := Project.parts_of_load hload
  cases hconfig.symm.trans hloaded
  rw [hsettings] at hfound
  have hcatalogs := Except.ok.inj (hfound.symm.trans catalogs_sampleCatalogs)
  obtain ⟨-, hseeds, hrefused, hmigrated⟩ := store_seeded (o := sampleOptions) hload
  have hprimary : p.primaryCatalog? = some ⟨"en", ⟨"/messages/en.json"⟩⟩ := by
    rw [Project.primaryCatalog?, hcatalogs, hsettings]
    decide
  have hothers : p.otherCatalogs
      = [⟨"da", ⟨"/messages/da.json"⟩⟩] ++ ⟨"de", ⟨"/messages/de.json"⟩⟩ :: [] := by
    rw [Project.otherCatalogs, hcatalogs, hprimary]
    decide
  have hde : LocaleFile.Gives sampleCatalogs ⟨"de", ⟨"/messages/de.json"⟩⟩ "home.hello" "Daheim" :=
    LocaleFile.message?_eq_some_iff.mp (by decide +kernel)
  have hen : LocaleFile.Gives sampleCatalogs ⟨"en", ⟨"/messages/en.json"⟩⟩ "hello" "Hello" :=
    LocaleFile.message?_eq_some_iff.mp (by decide +kernel)
  have hrun : ∃ r v a, runApply sampleCatalogs sampleOptions = .ok (r, v) ∧
      r.summary = .apply a ∧ a.suggestions = [x] := by
    unfold runApply
    rw [hload]
    dsimp only
    rw [SourceFiles.toOption_eq_some_iff.mp ht]
    dsimp only
    split
    · exact ⟨_, _, _, rfl, rfl, hx⟩
    · exact ⟨_, _, _, rfl, rfl, hx⟩
  obtain ⟨r, v, a, hrun, hsummary, hone⟩ := hrun
  obtain ⟨hne, houtcome⟩ := hmigrated r v a x rfl hrun hsummary hone
  refine ⟨p, hload, ?_, ?_, ?_, r, v, a, x, _, hrun, hsummary, hone, houtcome, ?_⟩
  · exact (hseeds "hello" "Hello").mpr (.inl ⟨_, hprimary, hen⟩)
  · refine (hseeds "home.hello" "Daheim").mpr (.inr ⟨?_, _, _, _, hothers, hde, ?_⟩)
    · rw [hprimary]
      rintro primary ⟨⟩
      exact LocaleFile.message?_eq_none_iff.mp (by decide +kernel)
    · intro b hb
      cases List.mem_singleton.mp hb
      exact LocaleFile.message?_eq_none_iff.mp (by decide +kernel)
  · refine (hrefused sampleBye (by decide)).1.mpr ?_
    rw [hcatalogs]
    intro c hc
    refine LocaleFile.message?_eq_none_iff.mp ?_
    revert c
    decide +kernel
  · have hexists := (hrefused x hne).2.mpr
    rw [hkey, hnewKey] at hexists
    refine hexists ⟨⟨_, ?_, _, hen⟩, ⟨_, ?_, _, hde⟩⟩
    · rw [hcatalogs]
      decide
    · rw [hcatalogs]
      decide

end Command

end MessageKeys
