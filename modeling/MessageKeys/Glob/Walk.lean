import MessageKeys.Glob.Table
import MessageKeys.Workspace

/-! # Expanding patterns — the paths in a workspace that a pattern names

    A pattern is followed component by component.  A component without wildcards is one name,
    which only has to be there.  One with wildcards is tried on every name of the directory,
    so it stays inside of one component.  `**` goes down to every directory and file below. -/

namespace MessageKeys.Glob

/-- The text of tokens that are all characters. -/
def literal? : List Token → Option (List Char)
  | [] => some []
  | .char c :: ts => (literal? ts).map (c :: ·)
  | _ :: _ => none

/-- The component goes down to any depth. -/
def isAnyDepth (ts : List Token) : Bool := ts = [.anyDepth]

/-- The component may stand for the names of the directory itself and of its parent. -/
def startsWithPoint : List Token → Bool
  | .char '.' :: _ => true
  | _ => false

/-- The path of a name in a directory; names in the current directory stand alone. -/
def child (p : Path) (name : String) : Path :=
  if p.same ⟨"."⟩ then ⟨name⟩ else p.join ⟨name⟩

/-- The last name of the path matches. -/
def matchesName (ts : List Token) (p : Path) : Bool :=
  match p.fileName? with
  | some name => isMatch ts name
  | none => false

/-- The paths that the components name from a path on.  With `onlyDirectories` the last
    component must be a directory. -/
def expandFrom (w : Workspace) (onlyDirectories : Bool) (components : List (List Token))
    (p : Path) : List Path :=
  match components with
  | [] => if !onlyDirectories || w.isDirectory p then [p] else []
  | ts :: rest =>
    if isAnyDepth ts then
      match _h : rest.dropWhile isAnyDepth with
      | [] => (w.below child w.tree.height p).filter w.isDirectory
      | next :: rest' =>
        (w.below child w.tree.height p).flatMap fun q =>
          if matchesName next q then expandFrom w onlyDirectories rest' q else []
    else
      match literal? ts with
      | some cs =>
        let name := String.ofList cs
        let q := child p name
        let there := if name = "." ∨ name = ".." then w.isDirectory p else w.exists? q
        if there then expandFrom w onlyDirectories rest q else []
      | none =>
        match w.names? p with
        | none => []
        | some names =>
          let special := if startsWithPoint ts then ["..", "."].filter (isMatch ts) else []
          special.flatMap (fun name => expandFrom w onlyDirectories rest (p.join ⟨name⟩))
            ++ names.flatMap fun name =>
              if isMatch ts name then expandFrom w onlyDirectories rest (child p name) else []
termination_by components.length
decreasing_by
  · have hlen := (List.dropWhile_sublist isAnyDepth (l := rest)).length_le
    rw [_h] at hlen
    simp only [List.length_cons] at hlen ⊢
    omega
  all_goals simp

/-- The components of a pattern after its root. -/
def componentTexts (pattern : String) : List String :=
  let pieces := Text.split '/' pattern
  let pieces := if pattern.startsWith "/" then pieces.tail else pieces
  if pieces.getLast? = some "" then pieces.dropLast else pieces

/-- The paths that a pattern names; none if it is no pattern. -/
def expand? (w : Workspace) (pattern : String) : Option (List Path) :=
  match tokens? pattern, (componentTexts pattern).mapM tokens? with
  | some _, some components =>
    let start : Path := if pattern.startsWith "/" then ⟨"/"⟩ else ⟨"."⟩
    some (expandFrom w (pattern.endsWith "/") components start)
  | _, _ => none

end MessageKeys.Glob
