import MessageKeys.Config.Basic

/-! # Catalog files of a project

    The pattern of catalog files has a place for the locale.  With locales listed, their
    files are the catalogs; without, every file that fits the pattern is one, and the text in
    the first place for the locale is its locale. -/

namespace MessageKeys

/-- A catalog file and its locale. -/
structure LocaleFile where
  locale : String
  path : Path
  deriving DecidableEq, Repr

namespace Config

/-- The text with every place for the locale filled in; `skip` characters belong to a place
    that was filled in already. -/
def fillPlaceholders (locale : List Char) : Nat → List Char → List Char
  | _, [] => []
  | skip + 1, _ :: cs => fillPlaceholders locale skip cs
  | 0, c :: cs =>
    if (Text.after? placeholder.toList (c :: cs)).isSome then
      locale ++ fillPlaceholders locale (placeholder.length - 1) cs
    else c :: fillPlaceholders locale 0 cs

/-- The catalog file that is named for a locale. -/
def catalogFor (c : Config) (dir : Path) (locale : String) : LocaleFile :=
  ⟨locale,
    dir.join ⟨String.ofList (fillPlaceholders locale.toList 0 c.catalogPattern.toList)⟩⟩

/-- What lies between a front and an end of a text. -/
def between? (front back cs : List Char) : Option (List Char) :=
  match Text.after? front cs with
  | none => none
  | some rest =>
    (Text.after? back.reverse rest.reverse).map List.reverse

/-- The catalog that a path is, with the pattern's parts around its locale. -/
def catalogAt? (w : Workspace) (dir : Path) (front back : List Char) (p : Path) :
    Option LocaleFile :=
  match p.stripPrefix? dir with
  | none => none
  | some relative =>
    match between? front back (relative.text.toList.map fun c => if c = '\\' then '/' else c) with
    | none => none
    | some locale =>
      if locale.isEmpty ∨ locale.contains '/' ∨ ¬ w.isFile p then none
      else some ⟨String.ofList locale, p⟩

/-- All catalogs that fit the pattern. -/
def discover (c : Config) (w : Workspace) (dir : Path) : Except ConfigFault (List LocaleFile) :=
  match splitAtPlaceholder? c.catalogPattern.toList with
  | none => .error .catalogSearch
  | some (front, back) =>
    let search := Glob.escape dir.text ++ "/" ++ Glob.escape (String.ofList front) ++ "*"
      ++ Glob.escape (String.ofList back)
    .ok (((Glob.expand? w search).getD []).filterMap (catalogAt? w dir front back))

/-- The catalogs of a project in order of locale. -/
def catalogs (c : Config) (w : Workspace) (root : Path) :
    Except ConfigFault (List LocaleFile) :=
  let dir := c.messagesDirectory root
  let found :=
    if c.locales.isEmpty then c.discover w dir
    else .ok ((c.locales.map (c.catalogFor dir)).filter fun f => w.isFile f.path)
  found.map fun files => files.mergeSort fun a b => decide (a.locale ≤ b.locale)

end Config

end MessageKeys
