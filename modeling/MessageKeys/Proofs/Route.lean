import MessageKeys.Proofs.Path
import MessageKeys.Route

/-! # Static directories — what the namespace of a file depends on

    The namespace of a file is the name of some of the directories that lead to it, joined by
    points; `directories` gives these directories themselves (`namespaceOf?_eq_some`).

    The root of the routes occurs in the names of a path, or it does not; where it does, its
    first occurrence is the one that counts (`FirstOccurs`).  What follows it ends with the
    file, and the namespace is made of the directories in between.  Those that a route passes
    over may stand anywhere among them and change nothing (`PutIn.static_eq`).

    Names leave out what a spelling may have more of: segments that mean nothing and a slash at
    the start (`names_congr`). -/

namespace MessageKeys

namespace Path

/-- The names of a path are those of its segments that mean something. -/
theorem names_eq (p : Path) :
    p.names = (steps (Text.split '/' p.text)).filterMap fun
      | .name n => some n
      | _ => none := by
  rw [names, components_eq, List.filterMap_append]
  cases p.anchor with
  | root => rfl
  | here => rfl
  | none => rfl

/-- Both are made of the same segments, those left out that mean nothing. -/
def SameSegments (a b : String) : Prop :=
  (Text.split '/' a).filter (fun s => !isVoid s) = (Text.split '/' b).filter fun s => !isVoid s

instance (a b : String) : Decidable (SameSegments a b) := inferInstanceAs (Decidable (_ = _))

theorem names_congr {a b : String} (h : SameSegments a b) :
    (Path.mk a).names = (Path.mk b).names := by
  have hsteps : steps (Text.split '/' a) = steps (Text.split '/' b) :=
    congrArg (List.map Component.ofSegment) h
  rw [names_eq, names_eq]
  show (steps (Text.split '/' a)).filterMap _ = (steps (Text.split '/' b)).filterMap _
  rw [hsteps]

/-- Names are not empty. -/
theorem ne_empty_of_mem_names {p : Path} {n : String} (h : n ∈ p.names) : n ≠ "" := by
  rw [names_eq] at h
  obtain ⟨c, hc, hn⟩ := List.mem_filterMap.mp h
  obtain ⟨s, hs, rfl⟩ := List.mem_map.mp hc
  rintro rfl
  by_cases hup : s = ".."
  · rw [Component.ofSegment, if_pos hup] at hn
    cases hn
  · rw [Component.ofSegment, if_neg hup] at hn
    obtain rfl : s = "" := Option.some.inj hn
    exact absurd (List.mem_filter.mp hs).2 (by decide)

end Path

namespace Route

/-! ## Directories of a namespace -/

/-- The directories that make up the namespace of a file; none if it has no namespace. -/
def directories (r : Route) (file : String) : List String :=
  match below? r.root (Path.mk file).names with
  | none => []
  | some below => (below.dropLast.filter isStatic).take r.depth

/-- A namespace is the name of its directories. -/
theorem namespaceOf?_eq_some {r : Route} {file ns : String} :
    r.namespaceOf? file = some ns ↔ r.directories file ≠ [] ∧ Key.join (r.directories file) = ns := by
  rw [namespaceOf?, ofNames?, directories]
  cases below? r.root (Path.mk file).names with
  | none => exact iff_of_false (by rintro ⟨⟩) fun h => h.1 rfl
  | some below =>
      dsimp only
      cases (below.dropLast.filter isStatic).take r.depth with
      | nil => exact iff_of_false (by rintro ⟨⟩) fun h => h.1 rfl
      | cons d ds =>
          constructor
          · intro h
            exact ⟨List.cons_ne_nil _ _, Option.some.inj h⟩
          · intro h
            exact congrArg some h.2

/-! ## The first occurrence of the root -/

/-- The root stands between two parts of a list of names, and nowhere further in front. -/
structure FirstOccurs (root names front rest : List String) : Prop where
  eq : names = front ++ (root ++ rest)
  first : ∀ earlier later, names = earlier ++ (root ++ later) → front.length ≤ earlier.length

theorem dropFront?_eq_some {root names rest : List String} :
    dropFront? root names = some rest ↔ names = root ++ rest := by
  induction root generalizing names with
  | nil =>
      rw [dropFront?]
      exact Option.some.injEq names rest ▸ Iff.rfl
  | cons r root ih =>
      cases names with
      | nil => exact iff_of_false (by rintro ⟨⟩) (by rintro ⟨⟩)
      | cons n names =>
          rw [dropFront?, List.cons_append, List.cons.injEq]
          by_cases hr : r = n
          · rw [if_pos hr, ih]
            exact (and_iff_right hr.symm).symm
          · rw [if_neg hr]
            exact iff_of_false (by rintro ⟨⟩) fun h => hr h.1.symm

/-- Where the root does not stand at the front, a name more in front moves its first
    occurrence. -/
theorem firstOccurs_cons {root names rest : List String} {n : String}
    (h : dropFront? root (n :: names) = none) :
    (∃ front, FirstOccurs root (n :: names) front rest) ↔
      ∃ front, FirstOccurs root names front rest := by
  have hfront : ∀ later, n :: names ≠ root ++ later := by
    intro later he
    rw [dropFront?_eq_some.mpr he] at h
    cases h
  constructor
  · rintro ⟨front, heq, hfirst⟩
    cases front with
    | nil => exact absurd heq (hfront rest)
    | cons m front =>
        refine ⟨front, (List.cons.inj heq).2, fun earlier later he => ?_⟩
        have := hfirst (n :: earlier) later (congrArg (n :: ·) he)
        simpa using this
  · rintro ⟨front, rfl, hfirst⟩
    refine ⟨n :: front, rfl, fun earlier later he => ?_⟩
    cases earlier with
    | nil => exact absurd he (hfront later)
    | cons m earlier =>
        have := hfirst earlier later (List.cons.inj he).2
        simpa using this

/-- What follows the first occurrence of the root. -/
theorem below?_eq_some {root names rest : List String} :
    below? root names = some rest ↔ ∃ front, FirstOccurs root names front rest := by
  induction names with
  | nil =>
      rw [below?, dropFront?_eq_some]
      constructor
      · intro h
        exact ⟨[], h, fun _ _ _ => Nat.zero_le _⟩
      · rintro ⟨front, heq, -⟩
        obtain ⟨-, hrest⟩ := List.append_eq_nil_iff.mp heq.symm
        exact hrest.symm
  | cons n names ih =>
      rw [below?]
      cases hdrop : dropFront? root (n :: names) with
      | none =>
          show below? root names = some rest ↔ _
          rw [ih, firstOccurs_cons hdrop]
      | some found =>
          have hfound := dropFront?_eq_some.mp hdrop
          show some found = some rest ↔ _
          rw [Option.some.injEq]
          constructor
          · rintro rfl
            exact ⟨[], hfound, fun _ _ _ => Nat.zero_le _⟩
          · rintro ⟨front, heq, hfirst⟩
            -- the root stands at the front, so nothing stands in front of its first occurrence
            obtain rfl := List.length_eq_zero_iff.mp (Nat.le_zero.mp (hfirst [] found hfound))
            exact List.append_cancel_left (hfound.symm.trans heq)

/-- A root that occurs is found. -/
theorem below?_ne_none (root front rest : List String) :
    below? root (front ++ (root ++ rest)) ≠ none := by
  induction front with
  | nil =>
      cases hnames : root ++ rest with
      | nil =>
          rw [List.nil_append, below?, dropFront?_eq_some.mpr hnames.symm]
          rintro ⟨⟩
      | cons n names =>
          rw [List.nil_append, below?, dropFront?_eq_some.mpr hnames.symm]
          rintro ⟨⟩
  | cons n front ih =>
      rw [List.cons_append, below?]
      cases dropFront? root (n :: (front ++ (root ++ rest))) with
      | none => exact ih
      | some found => rintro ⟨⟩

theorem below?_eq_none {root names : List String} :
    below? root names = none ↔ ¬ root <:+: names := by
  constructor
  · rintro h ⟨front, rest, rfl⟩
    rw [List.append_assoc] at h
    exact below?_ne_none root front rest h
  · intro h
    rw [Option.eq_none_iff_forall_ne_some]
    intro rest hrest
    obtain ⟨front, heq, -⟩ := below?_eq_some.mp hrest
    exact h ⟨front, rest, by rw [heq, List.append_assoc]⟩

/-- What follows the first occurrence does not decide where that is. -/
theorem FirstOccurs.replace {root names front rest : List String}
    (h : FirstOccurs root names front rest) (rest' : List String) :
    FirstOccurs root (front ++ (root ++ rest')) front rest' where
  eq := rfl
  first := by
    intro earlier later he
    by_contra hlt
    -- an occurrence further in front ends before the first one does
    have hprefix : earlier ++ root <+: front ++ root := by
      have hearlier : earlier ++ root <+: front ++ (root ++ rest') := by
        rw [he, ← List.append_assoc]
        exact List.prefix_append _ _
      have hfront : front ++ root <+: front ++ (root ++ rest') := by
        rw [← List.append_assoc]
        exact List.prefix_append _ _
      refine List.prefix_of_prefix_length_le hearlier hfront ?_
      rw [List.length_append, List.length_append]
      omega
    obtain ⟨more, hmore⟩ := hprefix
    refine hlt (h.first earlier (more ++ rest) ?_)
    rw [h.eq, ← List.append_assoc, ← hmore]
    simp only [List.append_assoc]

/-! ## Directories that are passed over -/

/-- The directory is a group, a parameter or one of the special ones. -/
def PassedOver (name : String) : Prop :=
  ∃ c cs, name.toList = c :: cs ∧ c ∈ ['(', '[', '+', '_', '@']

theorem isStatic_eq_false_iff {name : String} :
    isStatic name = false ↔ name = "" ∨ PassedOver name := by
  rw [isStatic, PassedOver, ← String.toList_eq_nil_iff]
  cases name.toList with
  | nil => simp
  | cons c cs =>
      simp only [Bool.not_eq_false', Bool.or_eq_true, decide_eq_true_eq, or_assoc]
      simp

/-- Directories that are passed over were put in anywhere. -/
inductive PutIn : List String → List String → Prop
  | nil : PutIn [] []
  | keep {d : String} {ds es : List String} (tail : PutIn ds es) : PutIn (d :: ds) (d :: es)
  | put {d : String} {ds es : List String} (passed : PassedOver d) (tail : PutIn ds es) :
      PutIn ds (d :: es)

/-- **PASSED OVER**: directories that were put in leave the static ones as they are. -/
theorem PutIn.static_eq {ds es : List String} (h : PutIn ds es) :
    es.filter isStatic = ds.filter isStatic := by
  induction h with
  | nil => rfl
  | keep _ ih => rw [List.filter_cons, List.filter_cons, ih]
  | put passed _ ih =>
      rw [List.filter_cons, isStatic_eq_false_iff.mpr (.inr passed), if_neg Bool.false_ne_true, ih]

/-! ## Namespaces -/

/-- The namespace that directories make up, if there are any. -/
def named : List String → Option String
  | [] => none
  | ds => some (Key.join ds)

theorem named_eq_none_iff {ds : List String} : named ds = none ↔ ds = [] := by
  cases ds with
  | nil => exact iff_of_true rfl rfl
  | cons d ds => exact iff_of_false (by rintro ⟨⟩) (by rintro ⟨⟩)

theorem namespaceOf?_eq (r : Route) (file : String) :
    r.namespaceOf? file = named (r.directories file) := by
  rw [namespaceOf?, ofNames?, directories]
  cases below? r.root (Path.mk file).names with
  | none => rfl
  | some below =>
      dsimp only
      cases (below.dropLast.filter isStatic).take r.depth with
      | nil => rfl
      | cons d ds => rfl

theorem FirstOccurs.directories_eq {r : Route} {file : String} {front rest : List String}
    (h : FirstOccurs r.root (Path.mk file).names front rest) :
    r.directories file = (rest.dropLast.filter isStatic).take r.depth := by
  rw [directories, below?_eq_some.mpr ⟨front, h⟩]

theorem directories_eq_nil_iff {r : Route} (hdepth : 1 ≤ r.depth) {file : String} :
    r.directories file = [] ↔ ¬ r.root <:+: (Path.mk file).names ∨
      ∃ front rest, FirstOccurs r.root (Path.mk file).names front rest ∧
        (rest = [] ∨ ∀ d ∈ rest.dropLast, PassedOver d) := by
  cases hbelow : below? r.root (Path.mk file).names with
  | none =>
      rw [directories, hbelow]
      exact iff_of_true rfl (.inl (below?_eq_none.mp hbelow))
  | some found =>
      obtain ⟨front, hfirst⟩ := below?_eq_some.mp hbelow
      have hoccurs : r.root <:+: (Path.mk file).names :=
        ⟨front, found, by rw [hfirst.eq, List.append_assoc]⟩
      have hnames : ∀ d ∈ found.dropLast, d ≠ "" := by
        intro d hd
        refine Path.ne_empty_of_mem_names (p := ⟨file⟩) ?_
        rw [hfirst.eq]
        exact List.mem_append_right _ (List.mem_append_right _ (List.dropLast_subset _ hd))
      have hnil : r.directories file = [] ↔ ∀ d ∈ found.dropLast, PassedOver d := by
        rw [hfirst.directories_eq, List.take_eq_nil_iff, or_iff_right (by omega),
          List.filter_eq_nil_iff]
        refine forall₂_congr fun d hd => ?_
        rw [Bool.not_eq_true, isStatic_eq_false_iff, or_iff_right (hnames d hd)]
      rw [hnil]
      constructor
      · intro h
        exact .inr ⟨front, found, hfirst, .inr h⟩
      · rintro (h | ⟨front', rest, hfirst', h⟩)
        · exact absurd hoccurs h
        · obtain rfl : found = rest := by
            have := below?_eq_some.mpr ⟨front', hfirst'⟩
            rw [hbelow] at this
            exact Option.some.inj this
          rcases h with rfl | h
          · exact fun d hd => absurd hd List.not_mem_nil
          · exact h

/-- **NAMESPACES**: the namespace of a file is made of the static directories between the first
    occurrence of the root and the file, as many as the depth says.  So directories that are
    passed over change nothing wherever they are put in; a smaller depth takes the first of the
    directories of a larger one; there is no namespace exactly if the root does not occur,
    nothing follows it or no static directory does; and repeated slashes and `.` segments in the
    path or the root mean nothing. -/
theorem namespace_of_static_directories {depth : Nat} (hdepth : 1 ≤ depth) (root file : String) :
    (∀ front dirs more name other,
      FirstOccurs (Path.mk root).names (Path.mk file).names front (dirs ++ [name]) →
      (Path.mk other).names = front ++ ((Path.mk root).names ++ (more ++ [name])) →
      PutIn dirs more →
      (ofPath root depth).namespaceOf? other = (ofPath root depth).namespaceOf? file) ∧
    (∀ front rest larger, FirstOccurs (Path.mk root).names (Path.mk file).names front rest →
      depth ≤ larger →
      (ofPath root larger).namespaceOf? file
          = named ((rest.dropLast.filter isStatic).take larger) ∧
        (ofPath root depth).namespaceOf? file
          = named (((rest.dropLast.filter isStatic).take larger).take depth)) ∧
    ((ofPath root depth).namespaceOf? file = none ↔
      ¬ (Path.mk root).names <:+: (Path.mk file).names ∨
      ∃ front rest, FirstOccurs (Path.mk root).names (Path.mk file).names front rest ∧
        (rest = [] ∨ ∀ d ∈ rest.dropLast, PassedOver d)) ∧
    (∀ root' file', Path.SameSegments root' root → Path.SameSegments file' file →
      (ofPath root' depth).namespaceOf? file' = (ofPath root depth).namespaceOf? file) := by
  have hmax : ∀ d, depth ≤ d → max d 1 = d := fun d hd => Nat.max_eq_left (Nat.le_trans hdepth hd)
  have hnamed : ∀ {file : String} {front rest : List String} {d : Nat}, depth ≤ d →
      FirstOccurs (Path.mk root).names (Path.mk file).names front rest →
      (ofPath root d).namespaceOf? file = named ((rest.dropLast.filter isStatic).take d) := by
    intro file front rest d hd hfirst
    have hdirectories := FirstOccurs.directories_eq (r := ofPath root d) hfirst
    rw [namespaceOf?_eq, hdirectories]
    show named ((rest.dropLast.filter isStatic).take (max d 1)) = _
    rw [hmax d hd]
  refine ⟨?_, ?_, ?_, ?_⟩
  · intro front dirs more name other hfirst hother hput
    have hmoved : FirstOccurs (Path.mk root).names (Path.mk other).names front (more ++ [name]) :=
      hother ▸ hfirst.replace (more ++ [name])
    rw [hnamed (Nat.le_refl depth) hmoved, hnamed (Nat.le_refl depth) hfirst,
      List.dropLast_concat, List.dropLast_concat, hput.static_eq]
  · intro front rest larger hfirst hlarger
    refine ⟨hnamed hlarger hfirst, ?_⟩
    rw [hnamed (Nat.le_refl depth) hfirst, List.take_take, Nat.min_eq_left hlarger]
  · rw [namespaceOf?_eq, named_eq_none_iff]
    exact directories_eq_nil_iff (Nat.le_max_right depth 1)
  · intro root' file' hroot hfile
    rw [namespaceOf?, namespaceOf?, Path.names_congr hfile, ofPath, ofPath, Path.names_congr hroot]

/-- A group is put in, the depth grows, and slashes and points are added. -/
theorem namespace_of_static_directories_sample :
    1 ≤ 1 ∧
    (ofPath "src/routes" 1).namespaceOf? "src/routes/(app)/shop/[id]/cart/x.svelte"
        = (ofPath "src/routes" 1).namespaceOf? "src/routes/shop/cart/x.svelte" ∧
    ((ofPath "src/routes" 2).namespaceOf? "src/routes/shop/cart/x.svelte" = some "shop.cart" ∧
      (ofPath "src/routes" 1).namespaceOf? "src/routes/shop/cart/x.svelte" = some "shop") ∧
    (ofPath "./src//routes/" 1).namespaceOf? "/src/./routes//shop/cart/x.svelte"
        = (ofPath "src/routes" 1).namespaceOf? "src/routes/shop/cart/x.svelte" := by
  obtain ⟨hput, hlarger, -, hspelled⟩ := @namespace_of_static_directories 1 (Nat.le_refl 1)
    "src/routes" "src/routes/shop/cart/x.svelte"
  have hfirst : FirstOccurs (Path.mk "src/routes").names
      (Path.mk "src/routes/shop/cart/x.svelte").names [] (["shop", "cart"] ++ ["x.svelte"]) :=
    ⟨by decide +kernel, fun _ _ _ => Nat.zero_le _⟩
  have hpassed : PassedOver "(app)" ∧ PassedOver "[id]" :=
    ⟨⟨'(', "app)".toList, rfl, by decide⟩, ⟨'[', "id]".toList, rfl, by decide⟩⟩
  obtain ⟨htwo, hone⟩ := hlarger _ _ 2 hfirst (by decide)
  exact ⟨Nat.le_refl 1,
    hput _ _ ["(app)", "shop", "[id]", "cart"] _ _ hfirst (by decide +kernel)
      (.put hpassed.1 (.keep (.put hpassed.2 (.keep .nil)))),
    ⟨htwo, hone⟩, hspelled _ _ (by decide +kernel) (by decide +kernel)⟩

end Route

end MessageKeys
