import Stencil.Command

/-!
# Command lines

The words of a command line, read from left to right. Options may stand before and after the name
of the command; some of them mean something only after it. A value can be joined to its option or
be the next word, as long as that does not look like an option. After two dashes no word is an
option.
-/

namespace Stencil

inductive CommandName
  | render
  | resolve
  | digest
deriving DecidableEq, Repr

inductive UsageError
  | unknownArgument
  | missingArgument
  | missingCommand
  | unknownCommand
  | invalidValue
  | repeated
  | unexpectedValue
  /-- No words at all, which shows the help. -/
  | nothingAsked
  /-- The help of a command, or of the program, is asked for. -/
  | help (command : Option CommandName)
  | version
deriving DecidableEq, Repr

structure Invocation where
  verbose : Bool
  noColor : Bool
  config : Option Text
  command : Command
deriving DecidableEq, Repr

namespace CommandLine

/-- The options that stand alone. -/
inductive Flag
  | verbose
  | noColor
  | help
  | version
deriving DecidableEq, Repr

/-- The options that have a value. -/
inductive Parameter
  | config
  | context
  | assignment
  | output
  | format
deriving DecidableEq, Repr

inductive OptionName
  | flag (flag : Flag)
  | parameter (parameter : Parameter)
deriving DecidableEq, Repr

def commandOf? (t : Text) : Option CommandName :=
  if t = "render".toList then some .render
  else if t = "resolve".toList then some .resolve
  else if t = "sha256".toList then some .digest
  else none

/-- The options with a long name: those of every place, and those of a command. -/
def longOptions (command : Option CommandName) : List (String × OptionName) :=
  [("verbose", .flag .verbose), ("config", .parameter .config), ("no-color", .flag .noColor),
    ("help", .flag .help)] ++
  match command with
  | none => [("version", .flag .version)]
  | some .render => [("context", .parameter .context), ("var", .parameter .assignment)]
  | some .resolve =>
    [("context", .parameter .context), ("var", .parameter .assignment),
      ("output", .parameter .output), ("format", .parameter .format)]
  | some .digest => []

/-- The options with a short name: those of every place, and those of a command. -/
def shortOptions (command : Option CommandName) : List (Char × OptionName) :=
  [('v', .flag .verbose), ('c', .parameter .config), ('h', .flag .help)] ++
  match command with
  | none => [('V', .flag .version)]
  | some .render => [('V', .parameter .assignment)]
  | some .resolve => [('V', .parameter .assignment), ('o', .parameter .output)]
  | some .digest => []

def longOption? (command : Option CommandName) (name : Text) : Option OptionName :=
  ((longOptions command).find? (·.1.toList = name)).map (·.2)

def shortOption? (command : Option CommandName) (c : Char) : Option OptionName :=
  (shortOptions command).lookup c

/-- What the options and words of one place have set. -/
structure Settings where
  verbose : Bool
  noColor : Bool
  config : Option Text
  context : Option Text
  assignments : List Text
  output : Option Text
  format : Option DocumentFormat
  operand : Option Text
deriving DecidableEq, Repr

def Settings.empty : Settings := ⟨false, false, none, none, [], none, none, none⟩

/-- What has been read but not yet checked and set. -/
inductive Pending
  | nothing
  /-- An option that has a value, and its value once it is read. -/
  | parameter (parameter : Parameter) (value : Option Text)
  | operand (value : Text)
deriving DecidableEq, Repr

/-- A reader between two words. -/
structure State where
  settings : Settings
  pending : Pending
  /-- Whether the two dashes have been read. -/
  literal : Bool
  /-- Whether the operand has been read. -/
  full : Bool
deriving DecidableEq, Repr

def State.start : State := ⟨.empty, .nothing, false, false⟩

/-- A path, which cannot be empty and is set once. -/
def path (old : Option Text) (t : Text) : Except UsageError (Option Text) :=
  if old.isSome then .error .repeated else if t.isEmpty then .error .invalidValue else .ok (some t)

def formatOf (t : Text) : Except UsageError DocumentFormat :=
  if t = "yaml".toList then .ok .yaml
  else if t = "json".toList then .ok .json
  else .error .invalidValue

/-- The settings with the value of an option. Only assignments can be repeated. -/
def Settings.set (s : Settings) (value : Text) : Parameter → Except UsageError Settings
  | .config => (path s.config value).map fun config => { s with config }
  | .context => (path s.context value).map fun context => { s with context }
  | .output => (path s.output value).map fun output => { s with output }
  | .assignment => .ok { s with assignments := s.assignments ++ [value] }
  | .format =>
    if s.format.isSome then .error .repeated
    else (formatOf value).map fun format => { s with format := some format }

namespace State

/-- The reader with what was pending set. -/
def settle (s : State) : Except UsageError State :=
  match s.pending with
  | .nothing => .ok s
  | .parameter _ none => .error .invalidValue
  | .parameter parameter (some value) =>
    (s.settings.set value parameter).map fun settings => { s with settings, pending := .nothing }
  | .operand value =>
    (path s.settings.operand value).map fun operand =>
      { s with settings := { s.settings with operand }, pending := .nothing }

def awaitsValue (s : State) : Bool :=
  match s.pending with
  | .parameter _ none => true
  | _ => false

section
variable (command : Option CommandName)

def flag (s : State) (flag : Flag) : Except UsageError State := do
  let s ← s.settle
  match flag with
  | .verbose =>
    if s.settings.verbose then throw .repeated
    else return { s with settings := { s.settings with verbose := true } }
  | .noColor =>
    if s.settings.noColor then throw .repeated
    else return { s with settings := { s.settings with noColor := true } }
  | .help => throw (.help command)
  | .version => throw .version

/-- An option with a value, which may be joined to it. -/
def parameter (s : State) (parameter : Parameter) (value : Option Text) :
    Except UsageError State := do
  let s ← s.settle
  match value with
  | none => return { s with pending := .parameter parameter none }
  | some value => return { s with settings := ← s.settings.set value parameter }

/-- A long option after its dashes. -/
def long (s : State) (t : Text) : Except UsageError State :=
  let (name, value) :=
    match Text.splitOnce? '=' t with
    | some (name, value) => (name, some value)
    | none => (t, none)
  match longOption? command name with
  | none => .error .unknownArgument
  | some (.flag flag) => if value.isSome then .error .unexpectedValue else s.flag command flag
  | some (.parameter parameter) => s.parameter parameter value

/-- Short options after their dash. What follows one with a value is the value, apart from an
equals sign in front of it. -/
def short (s : State) : Text → Except UsageError State
  | [] => .ok s
  | c :: rest =>
    match shortOption? command c with
    | none => .error .unknownArgument
    | some (.flag flag) => do short (← s.flag command flag) rest
    | some (.parameter parameter) =>
      match rest with
      | [] => s.parameter parameter none
      | '=' :: value => s.parameter parameter (some value)
      | value => s.parameter parameter (some value)

/-- A word that is no option: the value of one, or the operand of the command. -/
def word (s : State) (t : Text) : Except UsageError State :=
  match s.pending, s.literal with
  | .parameter parameter none, false =>
    .ok { s with pending := .parameter parameter (some t) }
  | _, _ =>
    if s.full then .error .unknownArgument
    else do
      let s ← s.settle
      return { s with pending := .operand t, full := true }

def read (s : State) (t : Text) : Except UsageError State :=
  if s.literal then s.word t
  else
    match t with
    | ['-', '-'] => .ok { s with literal := true }
    | '-' :: '-' :: t => s.long command t
    | '-' :: c :: t => s.short command (c :: t)
    | t => s.word t

end

end State

/-- The source of a context that settings describe. -/
def Settings.source (s : Settings) : ContextSource := ⟨s.context, s.assignments⟩

def Settings.command (s : Settings) (operand : Text) : CommandName → Command
  | .render => .render operand s.source
  | .resolve => .resolve operand s.source s.output (s.format.getD .yaml)
  | .digest => .digest operand

/-- The settings of the words after the name of a command, and its operand. -/
def readCommand (command : CommandName) (words : List Text) :
    Except UsageError (Settings × Text) := do
  let s ← words.foldlM (State.read (some command)) .start
  let s ← s.settle
  match s.settings.operand with
  | some operand => return (s.settings, operand)
  | none => throw .missingArgument

/-- What the words after `help` ask for. -/
def readHelp : List Text → UsageError
  | [] => .help none
  | [t] =>
    match commandOf? t with
    | some command => .help (some command)
    | none => if t = "help".toList then .help none else .unknownCommand
  | _ => .unknownCommand

/-- What a command line without a command is refused for. -/
def refusal (s : State) : UsageError :=
  match s.settle with
  | .error e => e
  | .ok s =>
    if s.settings.verbose || s.settings.noColor || s.settings.config.isSome then .missingCommand
    else .nothingAsked

/-- The words from a place before the name of the command. -/
def readWords (s : State) : List Text → Except UsageError Invocation
  | [] => .error (refusal s)
  | t :: rest =>
    if s.literal then
      .error (if (commandOf? t).isSome || t = "help".toList then .unknownArgument
        else .unknownCommand)
    else if s.awaitsValue || t.head? = some '-' && t.length ≠ 1 then do
      readWords (← s.read none t) rest
    else
      match commandOf? t with
      | none => .error (if t = "help".toList then readHelp rest else .unknownCommand)
      | some command => do
        let (inner, operand) ← readCommand command rest
        let outer := (← s.settle).settings
        return ⟨outer.verbose || inner.verbose, outer.noColor || inner.noColor,
          inner.config.or outer.config, inner.command operand command⟩

def parse (words : List Text) : Except UsageError Invocation := readWords .start words

end CommandLine
end Stencil
