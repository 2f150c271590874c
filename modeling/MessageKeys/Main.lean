import MessageKeys.Command.Report
import MessageKeys.Disk
import Std.Time.Zoned

/-! # The program — a command line is read, run and reported

    The command runs on a copy of the part of the disk that it can see: the configuration
    files that may hold for its directory, the source files and the catalogs.  Afterwards the
    changes are written. -/

namespace MessageKeys.Program

open Command

/-- The lines of the help. -/
def helpLines : List String :=
  ["Index i18n key usages and migrate flat keys into route namespaces",
    "",
    "Usage: nestkey [COMMAND]",
    "",
    "Commands:",
    "  scan     Index message key usages in source files",
    "  suggest  Suggest route namespaces for flat message keys",
    "  apply    Move suggested keys into their namespaces (dry-run unless --apply)",
    "  init     Initialize a new .nestkeyrc.json configuration file",
    "  help     Print this message",
    "",
    "Options of scan, suggest and apply:",
    "      --path <PATH>                    Project directory [env: NESTKEY_PROJECT]",
    "      --source-root <SOURCE_ROOT>      Source code root directory",
    "      --messages-root <MESSAGES_ROOT>  Messages directory path",
    "      --threshold <THRESHOLD>          Minimum confidence of suggest and apply",
    "      --apply                          Write the changes; without it nothing is written",
    "      --key <KEY>                      Only migrate these keys",
    "  -v, --verbose                        Enable verbose output",
    "  -h, --help                           Print help",
    "  -V, --version                        Print version"]

/-- The text of the help. -/
def helpText : String := Report.text helpLines

/-- The name and version of the program. -/
def versionText : String := "nestkey 0.1.0"

/-- The variable that names the project directory where no option does. -/
def projectVariable : String := "NESTKEY_PROJECT"

/-- The digits of a number, at least `width` of them. -/
def padded (width n : Nat) : String :=
  let digits := Nat.toDigits 10 n
  String.ofList (List.replicate (width - digits.length) '0' ++ digits)

/-- The time as a stamp, to the millisecond. -/
def readClock : IO String := do
  let t ← Std.Time.PlainDateTime.now
  let date := padded 4 t.date.year.toInt.toNat ++ padded 2 t.date.month.val.toNat
    ++ padded 2 t.date.day.val.toNat
  let time := padded 2 t.time.hour.val.toNat ++ padded 2 t.time.minute.val.toNat
    ++ padded 2 t.time.second.val.toNat ++ padded 3 (t.time.nanosecond.val.toNat / 1000000)
  return date ++ "T" ++ time

/-- The command line with the project directory that the environment names. -/
def withEnvironment (a : Arguments) : IO Arguments := do
  match a, ← IO.getEnv projectVariable with
  | .project verb o, some path => return .project verb { o with path := o.path <|> some path }
  | _, _ => return a

/-- The directory a command starts from. -/
def startOf (here : Path) : Arguments → Path
  | .project _ o => (o.path.map Path.mk).getD here
  | _ => here

/-- The paths below which a project's files are. -/
def projectPaths (a : Arguments) (loaded : Config.Loaded) : List Path :=
  let given := match a with
    | .project _ o => o.project
    | _ => ⟨none, none, none⟩
  let config := Project.configFor given loaded.config
  let base := config.sourceDirectory loaded.root
  let sources :=
    if config.includes.isEmpty || config.includes.any Glob.isPattern then [base]
    else config.includes.map fun i => base.join ⟨i⟩
  config.messagesDirectory loaded.root :: sources

/-- Reads the directories on the way to a path, whether it is there or not. -/
def loadWay (p : Path) (es : DiskEntries) : IO DiskEntries :=
  (List.range (p.components.length + 1)).foldlM
    (fun es n => do
      match ← Disk.locate? ((p.components.take n).foldl Path.push ⟨""⟩) with
      | some l => Disk.loadParents [Config.fileName, ".git"] l es
      | none => return es)
    es

/-- Reads what a command can see. -/
def loadEntries (a : Arguments) (here : Path) : IO DiskEntries := do
  let start := startOf here a
  let es ← loadWay start (← loadWay here ∅)
  match Config.load ⟨es.tree, here.names, fun _ => "", 0⟩ start with
  | .error _ => return es
  | .ok loaded =>
    (projectPaths a loaded).foldlM
      (fun es p => do
        match ← Disk.locate? p with
        | some l => Disk.loadBelow l (← loadWay p es)
        | none => return es)
      es

/-- Runs a command line and reports on it. -/
def run (a : Arguments) : IO UInt32 := do
  let here : Path := ⟨(← IO.currentDir).toString⟩
  let entries ← loadEntries a here
  let stamp ← readClock
  match Command.run? ⟨entries.tree, here.names, fun _ => stamp, 0⟩ a with
  | none =>
    IO.print helpText
    return ExitStatus.success.code.toUInt32
  | some (.error fault) =>
    IO.eprintln ("Error: " ++ fault.message)
    return ExitStatus.error.code.toUInt32
  | some (.ok (result, w)) =>
    Disk.store entries w.tree
    let color := (← (← IO.getStdout).isTty) && (← IO.getEnv "NO_COLOR").isNone
    let layout : Report.Layout := ⟨color, a.verbose⟩
    IO.print (Report.text (Report.lines layout result))
    IO.eprint (Report.text (Report.scanWarningLines layout result.scanFaults))
    return result.exitStatus.code.toUInt32

/-- Answers a command line that cannot be run. -/
def refuse : UsageFault → IO UInt32
  | .displayHelp => do
    IO.print helpText
    return 0
  | .displayVersion => do
    IO.println versionText
    return 0
  | fault => do
    IO.eprintln ("error: " ++ fault.text ++ "\n\nFor more information, try '--help'.")
    return 2

end MessageKeys.Program

/-- Runs the command line that the words are. -/
def main (words : List String) : IO UInt32 := do
  match MessageKeys.Command.Arguments.parse words with
  | .error fault => MessageKeys.Program.refuse fault
  | .ok a => MessageKeys.Program.run (← MessageKeys.Program.withEnvironment a)
