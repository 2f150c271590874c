import MessageKeys.Proofs.Path.Below
import MessageKeys.Proofs.Search

/-! # Escaping — patterns for given texts

    Escaped, a text is a pattern for itself (`isMatch_spelled`), and a run between two escaped
    texts stands for whatever starts with the one and goes on to end with the other
    (`isMatch_run`).

    A component that is escaped leads to one path at most, whether it is taken as a name that
    has to be there or is looked up among the names of the directory, and it does lead there when
    something is there (`expandFrom_spelled`, for components in a row `expandFrom_spelled_append`). -/

namespace MessageKeys.Glob

open Workspace

/-! ## Tokens -/

/-- The character means something in patterns, and is put in brackets. -/
def isSpecial (c : Char) : Prop := c = '?' ∨ c = '*' ∨ c = '[' ∨ c = ']'

instance (c : Char) : Decidable (isSpecial c) := inferInstanceAs (Decidable (_ ∨ _))

/-- The escaped characters of a text. -/
def escaped (cs : List Char) : List Char :=
  cs.flatMap fun c => if isSpecial c then ['[', c, ']'] else [c]

/-- The token of an escaped character. -/
def spelledChar (c : Char) : Token := if isSpecial c then .oneOf [.single c] else .char c

/-- The tokens of an escaped text. -/
def spelled (cs : List Char) : List Token := cs.map spelledChar

theorem toList_escape (text : String) : (escape text).toList = escaped text.toList :=
  String.toList_ofList

theorem escaped_append (cs ds : List Char) : escaped (cs ++ ds) = escaped cs ++ escaped ds :=
  List.flatMap_append

/-- No escaped text starts with a star. -/
theorem head_escaped (cs : List Char) : (escaped cs).head? ≠ some '*' := by
  cases cs with
  | nil => rintro ⟨⟩
  | cons c cs =>
      rw [escaped, List.flatMap_cons]
      split
      · exact fun h => absurd (Option.some.inj h) (by decide)
      · next hc =>
        intro h
        exact hc (.inr (.inl (Option.some.inj h)))

/-- A special character in brackets is read as itself. -/
theorem tokensFrom_bracketed {c : Char} (hc : isSpecial c) (before : Option Char)
    (rest : List Char) :
    tokensFrom before ('[' :: c :: ']' :: rest)
      = (tokensFrom (some ']') rest).map (.oneOf [.single c] :: ·) := by
  have hclass : class? (c :: ']' :: rest) = some (.oneOf [.single c], 2) := by
    have hbody : classBody? (c :: ']' :: rest) = some ([c], 2) := by simp [classBody?]
    have hne : c ≠ '!' := by
      rintro rfl
      exact absurd hc (by decide)
    rw [class?]
    · rw [hbody]
      rfl
    · rintro rest' he
      exact hne (List.cons.inj he).1
  rw [tokensFrom, if_neg (by decide), if_neg (by decide), if_pos rfl, hclass]
  rfl

/-- An escaped text is read as its tokens, whatever comes after it. -/
theorem tokensFrom_escaped (before : Option Char) (cs rest : List Char) :
    ∃ before', tokensFrom before (escaped cs ++ rest)
      = (tokensFrom before' rest).map (spelled cs ++ ·) := by
  induction cs generalizing before with
  | nil => exact ⟨before, by simp [escaped, spelled]⟩
  | cons c cs ih =>
      have hmap : ∀ (t : Token) (found : Option (List Token)),
          (found.map (spelled cs ++ ·)).map (t :: ·) = found.map (t :: spelled cs ++ ·) := by
        intro t found
        rw [Option.map_map]
        rfl
      rw [escaped, List.flatMap_cons]
      by_cases hc : isSpecial c
      · obtain ⟨before', hcs⟩ := ih (some ']')
        refine ⟨before', ?_⟩
        rw [if_pos hc, spelled, List.map_cons, spelledChar, if_pos hc, ← spelled, ← hmap, ← hcs]
        exact tokensFrom_bracketed hc before _
      · obtain ⟨before', hcs⟩ := ih (some c)
        refine ⟨before', ?_⟩
        have hplain : c ≠ '?' ∧ c ≠ '*' ∧ c ≠ '[' :=
          ⟨fun h => hc (.inl h), fun h => hc (.inr (.inl h)), fun h => hc (.inr (.inr (.inl h)))⟩
        rw [if_neg hc, spelled, List.map_cons, spelledChar, if_neg hc, ← spelled, ← hmap, ← hcs]
        show tokensFrom before (c :: (escaped cs ++ rest)) = _
        rw [tokensFrom, if_neg hplain.1, if_neg hplain.2.1, if_neg hplain.2.2]

/-- **ESCAPED TEXTS** are patterns. -/
theorem tokens?_escape (text : String) : tokens? (escape text) = some (spelled text.toList) := by
  obtain ⟨before', h⟩ := tokensFrom_escaped none text.toList []
  rw [List.append_nil, tokensFrom] at h
  rw [tokens?, toList_escape, h, Option.map_some, List.append_nil]

/-- The tokens of a run between two escaped texts. -/
def run (front back : List Char) : List Token := spelled front ++ .anyRun :: spelled back

/-- An asterisk between two escaped texts is read as one run. -/
theorem tokens?_run (front back : String) :
    tokens? (escape front ++ "*" ++ escape back) = some (run front.toList back.toList) := by
  have hlist : (escape front ++ "*" ++ escape back).toList
      = escaped front.toList ++ '*' :: escaped back.toList := by
    rw [String.toList_append, String.toList_append, toList_escape, toList_escape, List.append_assoc]
    rfl
  obtain ⟨before', h⟩ := tokensFrom_escaped none front.toList ('*' :: escaped back.toList)
  have hstars : ((escaped back.toList).takeWhile (· = '*')).length = 0 := by
    have hhead := head_escaped back.toList
    cases hback : escaped back.toList with
    | nil => rfl
    | cons c cs =>
        rw [hback] at hhead
        rw [List.takeWhile_cons_of_neg (by simpa using hhead)]
        rfl
  obtain ⟨before'', hback⟩ := tokensFrom_escaped (some '*') back.toList []
  rw [List.append_nil, tokensFrom] at hback
  rw [tokens?, hlist, h, tokensFrom, if_neg (by decide), if_pos rfl, hstars, hback,
    Option.map_some, Option.map_some, List.append_nil]
  rfl

/-! ## What they match -/

/-- A text that the tokens of another one and more stand for starts with that one. -/
theorem matchesChars_spelled {cs text : List Char} {ts : List Token} :
    matchesChars (spelled cs ++ ts) text = true ↔
      ∃ rest, text = cs ++ rest ∧ matchesChars ts rest = true := by
  induction cs generalizing text with
  | nil => simp [spelled]
  | cons c cs ih =>
      show matchesChars (spelledChar c :: (spelled cs ++ ts)) text = true ↔ _
      cases text with
      | nil =>
          refine iff_of_false ?_ (by rintro ⟨rest, h, -⟩; cases h)
          rw [spelledChar]
          split <;> simp [matchesChars]
      | cons d text =>
          have hfirst : matchesChars (spelledChar c :: (spelled cs ++ ts)) (d :: text) = true ↔
              d = c ∧ matchesChars (spelled cs ++ ts) text = true := by
            rw [spelledChar]
            split
            · rw [matchesChars]
              simp [Range.holds]
            · rw [matchesChars]
              simp
          rw [hfirst, ih]
          constructor
          · rintro ⟨rfl, rest, rfl, h⟩
            exact ⟨rest, rfl, h⟩
          · rintro ⟨rest, he, h⟩
            cases he
            exact ⟨rfl, rest, rfl, h⟩

/-- **AN ESCAPED TEXT** stands for itself. -/
theorem isMatch_spelled {cs : List Char} {text : String} :
    isMatch (spelled cs) text = true ↔ text.toList = cs := by
  rw [isMatch_eq, ← List.append_nil (spelled cs), matchesChars_spelled]
  constructor
  · rintro ⟨rest, he, hrest⟩
    rw [matchesChars, List.isEmpty_iff] at hrest
    rw [he, hrest, List.append_nil]
  · intro he
    exact ⟨[], by rw [he, List.append_nil], rfl⟩

theorem mem_suffixes {s cs : List Char} : s ∈ suffixes cs ↔ s <:+ cs := by
  induction cs with
  | nil => simp [suffixes]
  | cons c cs ih => rw [suffixes, List.mem_cons, ih, List.suffix_cons_iff]

/-- **A RUN BETWEEN ESCAPED TEXTS** stands for whatever has them around something. -/
theorem isMatch_run {front back : List Char} {text : String} :
    isMatch (run front back) text = true ↔ ∃ middle, text.toList = front ++ middle ++ back := by
  rw [isMatch_eq, run, matchesChars_spelled]
  have hback : ∀ rest, matchesChars (.anyRun :: spelled back) rest = true ↔
      ∃ middle, rest = middle ++ back := by
    intro rest
    rw [matchesChars, List.any_eq_true]
    constructor
    · rintro ⟨s, hs, hmatch⟩
      obtain ⟨middle, rfl⟩ := mem_suffixes.mp hs
      rw [← List.append_nil (spelled back), matchesChars_spelled] at hmatch
      obtain ⟨more, rfl, hmore⟩ := hmatch
      rw [matchesChars, List.isEmpty_iff] at hmore
      exact ⟨middle, by rw [hmore, List.append_nil]⟩
    · rintro ⟨middle, rfl⟩
      refine ⟨back, mem_suffixes.mpr (List.suffix_append _ _), ?_⟩
      rw [← List.append_nil (spelled back), matchesChars_spelled]
      exact ⟨[], (List.append_nil _).symm, rfl⟩
  constructor
  · rintro ⟨rest, he, hrest⟩
    obtain ⟨middle, rfl⟩ := (hback rest).mp hrest
    exact ⟨middle, by rw [he, List.append_assoc]⟩
  · rintro ⟨middle, he⟩
    exact ⟨middle ++ back, by rw [he, List.append_assoc], (hback _).mpr ⟨middle, rfl⟩⟩

/-- An escaped text spells a name unless it has special characters, which stand in brackets. -/
theorem literal?_spelled (cs : List Char) :
    literal? (spelled cs) = some cs ∨ literal? (spelled cs) = none ∧ ∃ c ∈ cs, isSpecial c := by
  induction cs with
  | nil => exact .inl rfl
  | cons c cs ih =>
      show literal? (spelledChar c :: spelled cs) = _ ∨ literal? (spelledChar c :: spelled cs) = _ ∧ _
      rw [spelledChar]
      by_cases hc : isSpecial c
      · rw [if_pos hc]
        exact .inr ⟨rfl, c, List.mem_cons_self, hc⟩
      · rw [if_neg hc, literal?]
        rcases ih with h | ⟨h, d, hd, hspecial⟩
        · exact .inl (by rw [h]; rfl)
        · exact .inr ⟨by rw [h]; rfl, d, List.mem_cons_of_mem c hd, hspecial⟩

theorem literal?_run (front back : List Char) : literal? (run front back) = none := by
  induction front with
  | nil => rfl
  | cons c cs ih =>
      show literal? (spelledChar c :: run cs back) = none
      rw [spelledChar]
      split
      · rfl
      · rw [literal?, ih]
        rfl

theorem isAnyDepth_spelled (cs : List Char) : isAnyDepth (spelled cs) = false := by
  refine decide_eq_false fun h => ?_
  cases cs with
  | nil => cases h
  | cons c cs =>
      have hc := (List.cons.inj h).1
      rw [spelledChar] at hc
      split at hc <;> cases hc

theorem isAnyDepth_run (front back : List Char) : isAnyDepth (run front back) = false := by
  refine decide_eq_false fun h => ?_
  cases front with
  | nil => cases (List.cons.inj h).1
  | cons c cs =>
      have hc := (List.cons.inj h).1
      rw [spelledChar] at hc
      split at hc <;> cases hc

/-- A run starts with a point if the text before its asterisk does. -/
theorem startsWithPoint_run (front back : List Char) :
    startsWithPoint (run front back) = true ↔ front.head? = some '.' := by
  cases front with
  | nil => exact iff_of_false Bool.false_ne_true (by rintro ⟨⟩)
  | cons c cs =>
      show startsWithPoint (spelledChar c :: run cs back) = true ↔ some c = some '.'
      rw [spelledChar]
      split
      · next hc =>
        refine iff_of_false Bool.false_ne_true ?_
        rintro ⟨⟩
        exact absurd hc (by decide)
      · by_cases hpoint : c = '.'
        · subst hpoint
          exact iff_of_true rfl rfl
        · refine iff_of_false ?_ fun h => hpoint (Option.some.inj h)
          rw [startsWithPoint]
          · exact Bool.false_ne_true
          · intro ts h
            exact hpoint (Token.char.inj (List.cons.inj h).1)

/-! ## Following escaped components -/

section

variable {w : Workspace} {onlyDirectories : Bool} {rest : List (List Token)} {p : Path}

/-- Of names that are all different, one is left where the others lead nowhere. -/
theorem flatMap_of_nodup {α : Type} {f : String → List α} {names : List String} {s : String}
    (hnodup : names.Nodup) (hother : ∀ n, n ≠ s → f n = []) :
    names.flatMap f = if s ∈ names then f s else [] := by
  induction names with
  | nil => rfl
  | cons n names ih =>
      obtain ⟨hn, hnodup⟩ := List.nodup_cons.mp hnodup
      rw [List.flatMap_cons, ih hnodup]
      by_cases hs : n = s
      · subst hs
        rw [if_neg hn, if_pos List.mem_cons_self, List.append_nil]
      · rw [hother n hs, List.nil_append]
        simp only [List.mem_cons, Ne.symm hs, false_or]

/-- **AN ESCAPED COMPONENT** leads to one path, if it leads anywhere, and it does where something
    is there. -/
theorem expandFrom_spelled (hdistinct : w.tree.Distinct) {s : String} (hs : '/' ∉ s.toList)
    (onlyDirectories : Bool) (rest : List (List Token)) (p : Path) :
    expandFrom w onlyDirectories (spelled s.toList :: rest) p
        = expandFrom w onlyDirectories rest (child p s) ∨
      expandFrom w onlyDirectories (spelled s.toList :: rest) p = [] ∧
        ¬ (w.isDirectory p = true ∧ w.exists? (child p s) = true) := by
  rw [expandFrom, if_neg (by rw [isAnyDepth_spelled]; exact Bool.false_ne_true)]
  rcases literal?_spelled s.toList with hliteral | ⟨hnone, c, hc, hspecial⟩
  · rw [hliteral]
    dsimp only
    rw [String.ofList_toList]
    by_cases hthere : (if s = "." ∨ s = ".." then w.isDirectory p else w.exists? (child p s)) = true
    · exact .inl (if_pos hthere)
    · refine .inr ⟨if_neg hthere, ?_⟩
      rintro ⟨hdirectory, hexists⟩
      refine hthere ?_
      split
      · exact hdirectory
      · exact hexists
  · -- the text is looked for among the names of the directory
    have hname : Path.IsName s := by
      refine ⟨?_, ?_, hs⟩
      · rw [← Bool.not_eq_true, Path.isVoid, Bool.or_eq_true]
        rintro (h | h) <;> rw [of_decide_eq_true h] at hc
        · cases hc
        · rw [List.mem_singleton.mp hc] at hspecial
          exact absurd hspecial (by decide)
      · rintro rfl
        have hpoint : c = '.' := by simpa using hc
        rw [hpoint] at hspecial
        exact absurd hspecial (by decide)
    rw [hnone]
    dsimp only
    cases hnames : w.names? p with
    | none =>
        refine .inr ⟨rfl, ?_⟩
        rintro ⟨hdirectory, -⟩
        obtain ⟨l, hl, hd⟩ := isDirectory_eq_true.mp hdirectory
        rw [names?_eq_some.mpr ⟨l, hl, hd, rfl⟩] at hnames
        cases hnames
    | some names =>
        have hfilter : ["..", "."].filter (isMatch (spelled s.toList)) = [] := by
          refine List.filter_eq_nil_iff.mpr fun n hn hmatch => ?_
          have hns : n = s := String.toList_inj.mp (isMatch_spelled.mp hmatch)
          rw [← hns] at hname
          rcases List.mem_cons.mp hn with rfl | hn
          · exact hname.2.1 rfl
          · rw [List.mem_singleton.mp hn] at hname
            exact absurd hname.1 (by decide)
        obtain ⟨l, hl, hd, rfl⟩ := names?_eq_some.mp hnames
        dsimp only
        rw [hfilter, ite_self, List.flatMap_nil, List.nil_append,
          flatMap_of_nodup (FileTree.nodup_names hdistinct l) (s := s), if_pos (c := isMatch _ _ = true)]
        · by_cases hmem : s ∈ w.tree.names l
          · exact .inl (if_pos hmem)
          · refine .inr ⟨if_neg hmem, ?_⟩
            rintro ⟨-, hexists⟩
            refine hmem ?_
            obtain ⟨m, hm, htaken⟩ := exists?_iff.mp hexists
            rw [names_child.locate hname hl hm] at htaken
            exact (FileTree.mem_names _ _ _).mpr htaken
        · exact isMatch_spelled.mpr rfl
        · intro n hn
          rw [if_neg]
          exact fun hmatch => hn (String.toList_inj.mp (isMatch_spelled.mp hmatch))

/-- The path has left the current directory, where names stand alone. -/
def Departed (p : Path) : Prop := p.text ≠ "" ∧ p.components ≠ [.here]

theorem Departed.child_eq (hp : Departed p) (n : String) : child p n = p.join ⟨n⟩ :=
  if_neg fun hsame => hp.2 (of_decide_eq_true hsame)

theorem Departed.join (hp : Departed p) {s : String} (hs : '/' ∉ s.toList) :
    Departed (p.join ⟨s⟩) := by
  have hrelative := Path.isAbsolute_of_not_mem hs
  refine ⟨?_, fun hhere => ?_⟩
  · rw [Path.join, hrelative, if_neg Bool.false_ne_true]
    split <;> simp [hp.1]
  · rw [Path.components_join hp.1 hrelative] at hhere
    rcases List.append_eq_singleton_iff.mp hhere with ⟨hnone, -⟩ | ⟨hone, -⟩
    · exact hp.1 ((Path.components_eq_nil_iff p).mp hnone)
    · exact hp.2 hone

theorem Departed.down (hp : Departed p) {ss : List String} (hss : ∀ s ∈ ss, '/' ∉ s.toList) :
    Departed (p.down ss) := by
  induction ss generalizing p with
  | nil => exact hp
  | cons s rest ih =>
      obtain ⟨hs, hrest⟩ := List.forall_mem_cons.mp hss
      exact ih (hp.join hs) hrest

/-- Something stands below a path only where it leads to a directory. -/
theorem isDirectory_of_join {q : Path} (hp : p.text ≠ "") (hq : q.isAbsolute = false)
    (h : w.exists? (p.join q) = true) : w.isDirectory p = true := by
  obtain ⟨m, hm, -⟩ := exists?_iff.mp h
  obtain ⟨l, hl, hd, -⟩ := locate_join hp hq hm
  exact isDirectory_eq_true.mpr ⟨l, hl, hd⟩

/-- Names lead somewhere only from a place that exists. -/
theorem exists?_of_down (hp : Departed p) {ss : List String} (hss : ∀ s ∈ ss, '/' ∉ s.toList)
    (h : w.exists? (p.down ss) = true) : w.exists? p = true := by
  induction ss generalizing p with
  | nil => exact h
  | cons s rest ih =>
      obtain ⟨hs, hrest⟩ := List.forall_mem_cons.mp hss
      exact exists?_of_isDirectory
        (isDirectory_of_join hp.1 (Path.isAbsolute_of_not_mem hs) (ih (hp.join hs) hrest h))

/-- **ESCAPED COMPONENTS** in a row lead to one path, if they lead anywhere, and they do where
    something is there. -/
theorem expandFrom_spelled_append (hdistinct : w.tree.Distinct) (hp : Departed p)
    {ss : List String} (hss : ∀ s ∈ ss, '/' ∉ s.toList) :
    expandFrom w onlyDirectories (ss.map (fun s => spelled s.toList) ++ rest) p
        = expandFrom w onlyDirectories rest (p.down ss) ∨
      expandFrom w onlyDirectories (ss.map (fun s => spelled s.toList) ++ rest) p = [] ∧
        w.exists? (p.down ss) = false := by
  induction ss generalizing p with
  | nil => exact .inl rfl
  | cons s more ih =>
      obtain ⟨hs, hmore⟩ := List.forall_mem_cons.mp hss
      rw [List.map_cons, List.cons_append]
      rcases expandFrom_spelled hdistinct hs onlyDirectories
        (more.map (fun s => spelled s.toList) ++ rest) p with hstep | ⟨hstep, hnot⟩
      · rw [hstep, hp.child_eq]
        exact ih (hp.join hs) hmore
      · refine .inr ⟨hstep, ?_⟩
        rw [← Bool.not_eq_true]
        intro hthere
        rw [hp.child_eq] at hnot
        have hjoined := exists?_of_down (hp.join hs) hmore hthere
        exact hnot ⟨isDirectory_of_join hp.1 (Path.isAbsolute_of_not_mem hs) hjoined, hjoined⟩

/-- The names that a component with a run between escaped texts is tried on. -/
def candidates (w : Workspace) (front back : List Char) (p : Path) : List String :=
  match w.names? p with
  | none => []
  | some names =>
    ((if front.head? = some '.' then ["..", "."] else []) ++ names).filter (isMatch (run front back))

/-- A run leads on from every candidate in the directory. -/
theorem expandFrom_run (hp : Departed p) (front back : List Char) :
    expandFrom w onlyDirectories (run front back :: rest) p
      = (candidates w front back p).flatMap
        fun x => expandFrom w onlyDirectories rest (p.join ⟨x⟩) := by
  rw [expandFrom, if_neg (by rw [isAnyDepth_run]; exact Bool.false_ne_true), literal?_run,
    candidates]
  dsimp only
  cases w.names? p with
  | none => rfl
  | some names =>
      have hfilter : ∀ (xs : List String) (f : String → List Path),
          (xs.flatMap fun n => if isMatch (run front back) n then f n else [])
            = (xs.filter (isMatch (run front back))).flatMap f := by
        intro xs f
        induction xs with
        | nil => rfl
        | cons x xs ih =>
            rw [List.flatMap_cons, ih, List.filter_cons]
            split
            · rfl
            · rfl
      have hspecial : (if startsWithPoint (run front back) then
          ["..", "."].filter (isMatch (run front back)) else [])
            = (if front.head? = some '.' then ["..", "."] else []).filter
              (isMatch (run front back)) := by
        by_cases hpoint : front.head? = some '.'
        · rw [if_pos hpoint, if_pos ((startsWithPoint_run front back).mpr hpoint)]
        · rw [if_neg hpoint, if_neg fun h => hpoint ((startsWithPoint_run front back).mp h)]
          rfl
      dsimp only
      simp only [hp.child_eq]
      rw [hspecial, hfilter, ← List.flatMap_append, ← List.filter_append]

/-- A candidate is a name in the directory, or it may stand for the directory or its parent. -/
theorem mem_candidates_iff {front back : List Char} {x : String} :
    x ∈ candidates w front back p ↔ (∃ middle, x.toList = front ++ middle ++ back) ∧
      w.isDirectory p = true ∧
      (front.head? = some '.' ∧ (x = ".." ∨ x = ".") ∨ Inside w p x) := by
  have hpoint : x ∈ (if front.head? = some '.' then ["..", "."] else []) ↔
      front.head? = some '.' ∧ (x = ".." ∨ x = ".") := by
    split
    · next h => simp [h]
    · next h => simp [h]
  rw [candidates, isDirectory_eq_true]
  cases hnames : w.names? p with
  | none =>
      refine iff_of_false List.not_mem_nil ?_
      rintro ⟨-, ⟨l, hl, hd⟩, -⟩
      rw [names?_eq_some.mpr ⟨l, hl, hd, rfl⟩] at hnames
      cases hnames
  | some names =>
      obtain ⟨l, hl, hd, -⟩ := names?_eq_some.mp hnames
      have hinside : x ∈ names ↔ Inside w p x := by
        rw [← mem_names?_iff, hnames]
        simp
      dsimp only
      rw [List.mem_filter, List.mem_append, hpoint, hinside, isMatch_run]
      constructor
      · rintro ⟨hx, hmatch⟩
        exact ⟨hmatch, ⟨l, hl, hd⟩, hx⟩
      · rintro ⟨hmatch, -, hx⟩
        exact ⟨hx, hmatch⟩

/-- No candidate comes twice, as no location does in the tree. -/
theorem nodup_candidates (hw : w.tree.Proper) (hdistinct : w.tree.Distinct)
    (front back : List Char) : (candidates w front back p).Nodup := by
  rw [candidates]
  cases hnames : w.names? p with
  | none => exact List.nodup_nil
  | some names =>
      obtain ⟨l, -, -, rfl⟩ := names?_eq_some.mp hnames
      refine List.Nodup.filter _ (List.nodup_append'.mpr
        ⟨?_, FileTree.nodup_names hdistinct l, ?_⟩)
      · split <;> decide
      · intro x hx hname
        have hname := (hw l x ((FileTree.mem_names _ _ _).mp hname)).2
        split at hx
        · rcases List.mem_cons.mp hx with rfl | hx
          · exact hname.2.1 rfl
          · rw [List.mem_singleton.mp hx] at hname
            exact absurd hname.1 (by decide)
        · cases hx

end

end MessageKeys.Glob
