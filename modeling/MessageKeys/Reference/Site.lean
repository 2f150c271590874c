/-! # References — the six ways to refer to a message key, and where it is done

    With the accessor `m`: the calls `m.key()` and `m.key(args)`, the reactive `$m.key`, the
    two template forms that stand in braces, and the lookup `m["key"]`.  A `Site` is one
    reference in a source file. -/

namespace MessageKeys.Reference

/-- A way to write a reference; the constructors stand in the order of forms. -/
inductive Form where
  | bareCall
  | callWithArgs
  | reactive
  | templateCall
  | templateRef
  | dynamicLookup
  deriving DecidableEq, Repr

namespace Form

/-- All forms in order. -/
def all : List Form :=
  [bareCall, callWithArgs, reactive, templateCall, templateRef, dynamicLookup]

/-- The name of a form. -/
def text : Form → String
  | bareCall => "bare-call"
  | callWithArgs => "call-with-args"
  | reactive => "reactive"
  | templateCall => "template-call"
  | templateRef => "template-ref"
  | dynamicLookup => "dynamic-lookup"

/-- The form of a name. -/
def ofText? (name : String) : Option Form := all.find? fun f => f.text = name

/-- The form stands in braces. -/
def isTemplate : Form → Bool
  | templateCall | templateRef => true
  | _ => false

/-- The form is a call that may stand inside of braces. -/
def isCall : Form → Bool
  | bareCall | callWithArgs => true
  | _ => false

/-- The place of a form in the order. -/
def rank : Form → Nat
  | bareCall => 0
  | callWithArgs => 1
  | reactive => 2
  | templateCall => 3
  | templateRef => 4
  | dynamicLookup => 5

/-- The forms before one in the order. -/
def before (f : Form) : List Form := all.filter fun g => g.rank < f.rank

end Form

/-! ## Sites -/

/-- One reference to a key in a source file. -/
structure Site where
  key : String
  /-- The path of the file; empty as long as only a text is known. -/
  file : String
  /-- Counted from one. -/
  line : Nat
  /-- The character the reference starts at, counted from one. -/
  column : Nat
  /-- The reference as it is written. -/
  text : String
  /-- The text around the reference. -/
  context : String
  form : Form
  deriving DecidableEq, Repr

/-- A source file by its path. -/
structure Source where
  path : String
  text : String
  deriving DecidableEq, Repr

/-- The sites of a source file, where `read` finds those of a text. -/
def Source.sites (read : String → List Site) (source : Source) : List Site :=
  (read source.text).map fun s => { s with file := source.path }

/-- The order of sites: by file, then line, then column. -/
def Site.notAfter (a b : Site) : Bool :=
  a.file < b.file
    || (a.file = b.file && (a.line < b.line || (a.line = b.line && a.column ≤ b.column)))

end MessageKeys.Reference
