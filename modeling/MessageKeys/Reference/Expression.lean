import MessageKeys.Reference.Literal

/-! # Pattern definitions — references described by regular expressions

    A pattern definition names a form and describes its references by a regular expression
    with two named groups: `lit`, the reference itself, and `key`.  `defaults` are the six
    definitions of an accessor; `checkAll` finds the first definition of a table that cannot
    be used. -/

namespace MessageKeys.Reference

/-- Why references could not be recognised. -/
inductive PatternFault where
  /-- The expression is not well formed. -/
  | expression (name : String)
  | noGroup (name group : String)
  | notAccessor (accessor : String)
  deriving DecidableEq, Repr

/-- The wording of a fault. -/
def PatternFault.message : PatternFault → String
  | .expression name => s!"invalid pattern '{name}': <regex error>"
  | .noGroup name group => s!"pattern '{name}' has no '{group}' capture group"
  | .notAccessor accessor => s!"message accessor '{accessor}' is not an identifier"

/-- A pattern as it is written down. -/
structure Definition where
  name : String
  form : Form
  expression : String
  deriving DecidableEq, Repr

namespace Definition

/-! ## The default table -/

/-- The characters that mean something in an expression. -/
def special : List Char :=
  ['\\', '.', '+', '*', '?', '(', ')', '|', '[', ']', '\x7b', '\x7d', '^', '$', '#', '&', '-', '~']

/-- An expression for exactly this text. -/
def escape (text : String) : String :=
  String.ofList (text.toList.flatMap fun c => if special.contains c then ['\\', c] else [c])

/-- The expression of a key. -/
def key : String :=
  "(?P<key>[A-Za-z_][A-Za-z0-9_]*(?:\\.[A-Za-z_][A-Za-z0-9_]*)*)"

/-- The expression of a boundary. -/
def boundary : String := "(?:^|[^\\w.$])"

/-- The expression of the references of a form. -/
def expressionOf (form : Form) (accessor : String) : String :=
  let a := escape accessor
  match form with
  | .templateCall => "(?P<lit>\\\x7b\\s*" ++ a ++ "\\." ++ key ++ "\\([^)]*\\)\\s*\\\x7d)"
  | .templateRef => "(?P<lit>\\\x7b\\s*" ++ a ++ "\\." ++ key ++ "\\s*\\\x7d)"
  | .bareCall => boundary ++ "(?P<lit>" ++ a ++ "\\." ++ key ++ "\\(\\))"
  | .callWithArgs => boundary ++ "(?P<lit>" ++ a ++ "\\." ++ key ++ "\\([^)]+\\))"
  | .reactive => boundary ++ "(?P<lit>\\$" ++ a ++ "\\." ++ key ++ ")"
  | .dynamicLookup =>
    boundary ++ "(?P<lit>\\$?" ++ a ++ "\\[\\s*[\"']" ++ key ++ "[\"']\\s*\\])"

/-- The forms in the order in which references are reported at one column. -/
def tableOrder : List Form :=
  [.templateCall, .templateRef, .bareCall, .callWithArgs, .reactive, .dynamicLookup]

/-- The definitions for an accessor. -/
def defaults (accessor : String) : List Definition :=
  tableOrder.map fun form => ⟨form.text, form, expressionOf form accessor⟩

/-! ## Checking -/

/-- The names of the groups of an expression; none if parentheses do not match or a name is
    repeated.  `depth` counts the groups that are open, and `reading` is the name that is
    being read, in reverse. -/
def groups? (depth : Nat) (names : List (List Char)) :
    Option (List Char) → List Char → Option (List (List Char))
  | none, [] => if depth = 0 then some names else none
  | some _, [] => none
  | some name, c :: rest =>
    if c = '>' then
      if names.contains name.reverse then none else groups? depth (name.reverse :: names) none rest
    else groups? depth names (some (c :: name)) rest
  | none, '\\' :: _ :: rest => groups? depth names none rest
  | none, '(' :: '?' :: 'P' :: '<' :: rest => groups? (depth + 1) names (some []) rest
  | none, '(' :: '?' :: '<' :: rest => groups? (depth + 1) names (some []) rest
  | none, '(' :: rest => groups? (depth + 1) names none rest
  | none, ')' :: rest => if depth = 0 then none else groups? (depth - 1) names none rest
  | none, _ :: rest => groups? depth names none rest

/-- The expression is well formed and has the groups of a reference and of its key. -/
def check (d : Definition) : Except PatternFault Unit :=
  match groups? 0 [] none d.expression.toList with
  | none => .error (.expression d.name)
  | some names =>
    if ¬ names.contains "lit".toList then .error (.noGroup d.name "lit")
    else if ¬ names.contains "key".toList then .error (.noGroup d.name "key")
    else .ok ()

/-- Checks definitions in order. -/
def checkAll (ds : List Definition) : Except PatternFault Unit := ds.forM check

end Definition

end MessageKeys.Reference
