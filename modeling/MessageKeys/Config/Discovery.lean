import MessageKeys.Config.File

/-! # Discovery — the configuration of a directory

    The configuration file is looked for in a directory and then in its parents, and not
    beyond the directory that holds `.git`.  Its settings are relative to its own directory;
    without a file the default settings are relative to where the search started. -/

namespace MessageKeys.Config

/-- Looks for the configuration file from a directory up; `steps` bounds the way. -/
def findFrom (w : Workspace) : Nat → Path → Option Path
  | steps, dir =>
    let file := dir.join ⟨fileName⟩
    if w.exists? file then some file
    else if w.exists? (dir.join ⟨".git"⟩) then none
    else
      match steps, dir.parent? with
      | n + 1, some parent => findFrom w n parent
      | _, _ => none

/-- The configuration file for a directory. -/
def find? (w : Workspace) (start : Path) : Option Path :=
  findFrom w start.components.length start

/-- A configuration and the directory it is relative to. -/
structure Loaded where
  config : Config
  root : Path
  /-- It comes from a file. -/
  fromFile : Bool

/-- The configuration for a directory. -/
def load (w : Workspace) (start : Path) : Except ConfigFault Loaded :=
  match find? w start with
  | none => .ok ⟨default, start, false⟩
  | some file =>
    match w.readText file with
    | .error _ => .error (.unreadable file)
    | .ok text =>
      match parse? text with
      | none => .error (.syntaxError file)
      | some config =>
        match config.validate with
        | .error fault => .error fault
        | .ok () => .ok ⟨config, (file.parent?).getD start, true⟩

end MessageKeys.Config
