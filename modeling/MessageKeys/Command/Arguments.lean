import MessageKeys.Decimal.Reader
import MessageKeys.Project

/-! # Command lines — words as a command

    A command line names a command and its options.  An option takes its value from the same
    word after `=`, or is the next word, which then must not look like an option.  A value is
    checked when the next option or the end of the line is reached, so of two faults the
    earlier word does not always win. -/

namespace MessageKeys.Command

/-- Why words are no command line. -/
inductive UsageFault where
  /-- No fault: the help text is asked for. -/
  | displayHelp
  /-- No fault: the version is asked for. -/
  | displayVersion
  | invalidSubcommand
  | unknownArgument
  | argumentConflict
  | invalidValue
  | valueValidation
  | tooManyValues
  deriving DecidableEq, Repr

/-- The name of a fault. -/
def UsageFault.text : UsageFault → String
  | .displayHelp => "DisplayHelp"
  | .displayVersion => "DisplayVersion"
  | .invalidSubcommand => "InvalidSubcommand"
  | .unknownArgument => "UnknownArgument"
  | .argumentConflict => "ArgumentConflict"
  | .invalidValue => "InvalidValue"
  | .valueValidation => "ValueValidation"
  | .tooManyValues => "TooManyValues"

/-- The options of all commands. -/
structure Options where
  path : Option String
  sourceRoot : Option String
  messagesRoot : Option String
  verbose : Bool
  threshold : Option Decimal.Reading
  apply : Bool
  keys : List String

namespace Options

/-- No option is given. -/
def none : Options := ⟨.none, .none, .none, false, .none, false, []⟩

/-- The options that say where the project is. -/
def project (o : Options) : ProjectArguments := ⟨o.path, o.sourceRoot, o.messagesRoot⟩

end Options

/-- The commands that work on a project. -/
inductive Verb where
  | scan
  | suggest
  | apply
  deriving DecidableEq, Repr

/-- A command line that can be run. -/
inductive Arguments where
  /-- No command is named. -/
  | nothing
  | init
  | project (verb : Verb) (options : Options)

/-! ## Options -/

/-- An option with a value. -/
inductive Valued where
  | path
  | sourceRoot
  | messagesRoot
  | threshold
  | key
  deriving DecidableEq, Repr

/-- What the name of a long option stands for. -/
inductive Long where
  | help
  | verbose
  | apply
  | valued (v : Valued)
  deriving DecidableEq, Repr

/-- The long options of a command. -/
def longOption? (verb : Option Verb) (name : String) : Option Long :=
  let common : List (String × Long) :=
    [("path", .valued .path), ("source-root", .valued .sourceRoot),
      ("messages-root", .valued .messagesRoot), ("verbose", .verbose)]
  let suggesting : List (String × Long) := [("threshold", .valued .threshold)]
  let applying : List (String × Long) := [("apply", .apply), ("key", .valued .key)]
  let known := match verb with
    | .none => []
    | some .scan => common
    | some .suggest => common ++ suggesting
    | some .apply => common ++ suggesting ++ applying
  (("help", Long.help) :: known).lookup name

/-- Sets an option that may be given once. -/
def setOnce (old : Option String) (value : String) : Except UsageFault (Option String) :=
  if old.isSome then .error .argumentConflict else .ok (some value)

/-- Takes in the value of an option. -/
def setValue (o : Options) (v : Valued) (value : String) : Except UsageFault Options :=
  match v with
  | .path =>
    match setOnce o.path value with
    | .error fault => .error fault
    | .ok path => if value = "" then .error .invalidValue else .ok { o with path := path }
  | .sourceRoot => (setOnce o.sourceRoot value).map fun x => { o with sourceRoot := x }
  | .messagesRoot => (setOnce o.messagesRoot value).map fun x => { o with messagesRoot := x }
  | .threshold =>
    if o.threshold.isSome then .error .argumentConflict
    else
      match Decimal.read? value with
      | .none => .error .valueValidation
      | some t => .ok { o with threshold := some t }
  | .key => .ok { o with keys := o.keys ++ [value] }

/-- Sets the option of more output. -/
def setVerbose (o : Options) : Except UsageFault Options :=
  if o.verbose then .error .argumentConflict else .ok { o with verbose := true }

/-- Sets the option to write files. -/
def setApply (o : Options) : Except UsageFault Options :=
  if o.apply then .error .argumentConflict else .ok { o with apply := true }

/-! ## Words -/

/-- An option whose value was not taken in yet. -/
inductive Pending where
  | nothing
  | waiting (v : Valued)
  | filled (v : Valued) (value : String)

/-- Takes in what is pending. -/
def settle (o : Options) : Pending → Except UsageFault Options
  | .nothing => .ok o
  | .waiting _ => .error .invalidValue
  | .filled v value => setValue o v value

/-- The kinds of words. -/
inductive Word where
  /-- Two hyphens alone. -/
  | escape
  | long (name : String) (value : Option String)
  | short (letters : List Char)
  | plain (text : String)

/-- The kind of a word. -/
def Word.ofText (text : String) : Word :=
  match text.toList with
  | ['-', '-'] => .escape
  | '-' :: '-' :: rest =>
    let name := String.ofList (rest.takeWhile (· ≠ '='))
    match rest.dropWhile (· ≠ '=') with
    | [] => .long name .none
    | _ :: value => .long name (some (String.ofList value))
  | '-' :: c :: rest => .short (c :: rest)
  | _ => .plain text

/-- Takes in short options. -/
def readShort (o : Options) (pending : Pending) : List Char → Except UsageFault Options
  | [] => settle o pending
  | c :: rest =>
    if c = 'v' then
      match settle o pending with
      | .error fault => .error fault
      | .ok o =>
        match setVerbose o with
        | .error fault => .error fault
        | .ok o => readShort o .nothing rest
    else if c = 'h' then
      match settle o pending with
      | .error fault => .error fault
      | .ok _ => .error .displayHelp
    else .error .unknownArgument

/-- Takes in a long option: the options, and what is pending after it. -/
def readLong (verb : Verb) (o : Options) (pending : Pending) (name : String)
    (value : Option String) : Except UsageFault (Options × Pending) :=
  match longOption? (some verb) name, value with
  | .none, _ => .error .unknownArgument
  | some (.valued v), .none => (settle o pending).map fun o => (o, .waiting v)
  | some (.valued v), some value =>
    match settle o pending with
    | .error fault => .error fault
    | .ok o => (setValue o v value).map fun o => (o, .nothing)
  | some _, some _ => .error .tooManyValues
  | some long, .none =>
    match settle o pending with
    | .error fault => .error fault
    | .ok o =>
      match long with
      | .verbose => (setVerbose o).map fun o => (o, .nothing)
      | .apply => (setApply o).map fun o => (o, .nothing)
      | _ => .error .displayHelp

/-- Takes in the words after a command. -/
def readOptions (verb : Verb) (o : Options) (pending : Pending) :
    List String → Except UsageFault Options
  | [] => settle o pending
  | w :: rest =>
    match Word.ofText w with
    | .escape => if rest.isEmpty then settle o pending else .error .unknownArgument
    | .long name value =>
      match readLong verb o pending name value with
      | .error fault => .error fault
      | .ok (o, pending) => readOptions verb o pending rest
    | .short letters =>
      match readShort o pending letters with
      | .error fault => .error fault
      | .ok o => readOptions verb o .nothing rest
    | .plain text =>
      match pending with
      | .waiting v => readOptions verb o (.filled v text) rest
      | _ => .error .unknownArgument

/-- The words after `init`, which has no options but help. -/
def readInit : List String → Except UsageFault Arguments
  | [] => .ok .init
  | w :: rest =>
    match Word.ofText w with
    | .escape => if rest.isEmpty then .ok .init else .error .unknownArgument
    | .long "help" .none => .error .displayHelp
    | .long "help" (some _) => .error .tooManyValues
    | .short ('h' :: _) => .error .displayHelp
    | _ => .error .unknownArgument

/-- The words after `help`. -/
def readHelp : List String → UsageFault
  | [] => .displayHelp
  | [name] =>
    if ["scan", "suggest", "apply", "init", "help"].contains name then .displayHelp
    else .invalidSubcommand
  | _ => .invalidSubcommand

/-- The words before any command. -/
def readGlobal (w : String) (rest : List String) : Except UsageFault Arguments :=
  match Word.ofText w with
  | .escape =>
    match rest with
    | [] => .ok .nothing
    | next :: _ =>
      if ["scan", "suggest", "apply", "init", "help"].contains next then .error .unknownArgument
      else .error .invalidSubcommand
  | .long "help" .none => .error .displayHelp
  | .long "version" .none => .error .displayVersion
  | .long "help" (some _) => .error .tooManyValues
  | .long "version" (some _) => .error .tooManyValues
  | .long _ _ => .error .unknownArgument
  | .short ('h' :: _) => .error .displayHelp
  | .short ('V' :: _) => .error .displayVersion
  | .short _ => .error .unknownArgument
  | .plain _ => .error .invalidSubcommand

/-- The command line of words. -/
def Arguments.parse (words : List String) : Except UsageFault Arguments :=
  match words with
  | [] => .ok .nothing
  | "scan" :: rest => (readOptions .scan .none .nothing rest).map (.project .scan)
  | "suggest" :: rest => (readOptions .suggest .none .nothing rest).map (.project .suggest)
  | "apply" :: rest => (readOptions .apply .none .nothing rest).map (.project .apply)
  | "init" :: rest => readInit rest
  | "help" :: rest => .error (readHelp rest)
  | w :: rest => readGlobal w rest

end MessageKeys.Command
