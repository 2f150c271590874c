import MessageKeys.Command.Run
import MessageKeys.Command.Style

/-! # Reports — the results of commands as text -/

namespace MessageKeys.Command

open Decimal (wholeText percentText)

namespace Report

/-- How a report is written. -/
structure Layout where
  color : Bool
  verbose : Bool
  deriving DecidableEq, Repr

/-- Text in a style. -/
def Layout.paint (l : Layout) (s : Style) (text : String) : String := Style.paint l.color s text

/-- The mark of success. -/
def checkMark : String := "\u2713"

/-- The mark of failure. -/
def crossMark : String := "\u2718"

/-- The most files that are listed for one suggestion. -/
def maxFiles : Nat := 3

/-- A count and its noun. -/
def counted (count : Nat) (word : String) : String :=
  if count = 1 then s!"{count} {word}" else s!"{count} {word}s"

/-- The text with blanks up to a width. -/
def padEnd (text : String) (width : Nat) : String := text.pushn ' ' (width - text.length)

/-- The path as it is shown: below the root, with slashes. -/
def shownPath (root p : Path) : String :=
  ((p.stripPrefix? root).getD p).text.map fun c => if c = '\\' then '/' else c

/-- A line after the mark of success. -/
def successLine (l : Layout) (text : String) : String :=
  l.paint .green checkMark ++ " " ++ l.paint .green text

/-! ## Scans -/

/-- The line of a site. -/
def siteLine (l : Layout) (s : Reference.Site) : String :=
  "  " ++ l.paint .blue "-->" ++ s!" {s.file}:{s.line}:{s.column} " ++ l.paint .dimmed s.context

/-- The lines of a key. -/
def keyLines (l : Layout) (ix : Reference.Index) (width : Nat) (key : String)
    (sites : List Reference.Site) : List String :=
  let files := counted (ix.filesOf key).length "file"
  (l.paint .bold (padEnd key width) ++ "  " ++ counted sites.length "usage" ++ " in " ++ files)
    :: (if l.verbose then sites.map (siteLine l) else [])

/-- The report of a scan. -/
def scanLines (l : Layout) (ix : Reference.Index) (sourceCount : Nat) : List String :=
  let width := (ix.keys.map String.length).foldl max 0
  (ix.toList.flatMap fun (key, sites) => keyLines l ix width key sites)
    ++ [successLine l ("Indexed " ++ counted ix.keys.length "key" ++ ", "
      ++ counted ix.siteCount "usage" ++ " in " ++ counted sourceCount "source file")]

/-! ## Suggestions -/

/-- The lines of a suggestion. -/
def suggestionLines (l : Layout) (s : Suggestion) : List String :=
  let hidden := s.files.length - maxFiles
  [l.paint .bold s.key ++ " " ++ l.paint .blue "->" ++ " "
      ++ l.paint .boldGreen s.newKey ++ "  " ++ l.paint .cyan (percentText s.confidence),
    "  " ++ l.paint .blue "=" ++ " " ++ l.paint .bold "note:" ++ " " ++ s.reason]
    ++ (s.files.take maxFiles).map (fun file => "  " ++ l.paint .blue "-->" ++ " " ++ file)
    ++ (if 0 < hidden then ["  " ++ l.paint .dimmed s!"... and {hidden} more"] else [])
    ++ [""]

/-- The report of suggestions. -/
def suggestLines (l : Layout) (suggestions : List Suggestion) (threshold : Float) : List String :=
  let limit := percentText threshold
  if suggestions.isEmpty then
    [successLine l s!"No flat keys to namespace (threshold {limit})"]
  else
    suggestions.flatMap (suggestionLines l)
      ++ [counted suggestions.length "suggestion" ++ s!" at confidence >= {limit}. Run "
        ++ l.paint .cyan "nestkey apply" ++ " to migrate them."]

/-! ## Migrations -/

/-- The start of a warning. -/
def warning (l : Layout) : String := l.paint .boldYellow "warning:"

/-- The lines of a suggestion that failed. -/
def failedLines (l : Layout) (root : Path) (f : Failure) : List String :=
  (l.paint .red crossMark ++ s!" {f.suggestion.key} " ++ l.paint .blue "->"
      ++ s!" {f.suggestion.newKey}: {f.reason.message}")
    :: f.issues.map fun i =>
      "  " ++ l.paint .blue "=" ++ s!" {shownPath root i.path}: {i.fault.message}"

/-- The report of a migration. -/
def outcomeLines (l : Layout) (root : Path) (o : Outcome) (keysAfter : Option Nat) :
    List String :=
  o.applied.map (fun s =>
      l.paint .green checkMark ++ s!" {s.key} " ++ l.paint .blue "->" ++ " "
        ++ l.paint .green s.newKey)
    ++ o.failed.flatMap (failedLines l root)
    ++ o.warnings.map (fun i =>
      warning l ++ s!" skipped {shownPath root i.path}: {i.fault.message}")
    ++ (if o.applied.isEmpty then []
      else [l.paint .boldGreen "Migrated" ++ " " ++ counted o.updated "key" ++ ", modified "
        ++ counted o.modified.length "file" ++ "."])
    ++ (if o.anyFailed then
        [l.paint .boldRed "Failed" ++ " " ++ counted o.failed.length "migration"
          ++ " failed; affected files were restored."]
      else [])
    ++ (if o.backups.isEmpty then []
      else ["Backups kept for " ++ counted o.backups.length "file" ++ "."])
    ++ (match keysAfter with
      | some keys => ["Rescanned sources: " ++ counted keys "key" ++ " indexed."]
      | none => [])

/-- The report of `apply`. -/
def applyLines (l : Layout) (root : Path) (a : Application) : List String :=
  a.withoutSuggestion.map (fun key => warning l ++ " no suggestion for key \"" ++ key ++ "\"")
    ++ (if a.suggestions.isEmpty then [successLine l "Nothing to migrate"]
      else
        match a.outcome with
        | some o => outcomeLines l root o a.keysAfter
        | none =>
          a.suggestions.flatMap (suggestionLines l)
            ++ [l.paint .boldYellow "Would migrate" ++ " " ++ counted a.suggestions.length "key"
                ++ " in " ++ counted a.sourceFiles.length "source file" ++ " and up to "
                ++ counted a.catalogCount "catalog file" ++ ".",
              "Run with " ++ l.paint .cyan "--apply" ++ " to rewrite these files."])

/-! ## All reports -/

/-- The report of `init`. -/
def initLines (l : Layout) (created : Bool) : List String :=
  if created then [successLine l ("Created " ++ Config.fileName)]
  else [l.paint .red crossMark ++ " " ++ Config.fileName ++ " already exists"]

/-- The lines of the report of a result. -/
def lines (l : Layout) (r : Result) : List String :=
  match r.summary with
  | .scan ix => scanLines l ix r.sourceCount
  | .suggest suggestions threshold => suggestLines l suggestions threshold
  | .apply a => applyLines l r.root a
  | .init created => initLines l created

/-- The lines that warn of source files that could not be read. -/
def scanWarningLines (l : Layout) (faults : List ScanFault) : List String :=
  if faults.isEmpty then []
  else if l.verbose then faults.map fun f => warning l ++ " " ++ f.message
  else
    [warning l ++ s!" {faults.length} file(s) could not be read (use " ++ l.paint .cyan "-v"
      ++ " for details)"]

/-- Lines as a text. -/
def text (lines : List String) : String := String.join (lines.map fun line => line ++ "\n")

end Report

end MessageKeys.Command
