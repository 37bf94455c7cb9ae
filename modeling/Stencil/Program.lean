import Stencil.CommandLine
import Stencil.Configuration

/-!
# The program

A run reads the command line, then the configuration, then what the command needs, and only when
all of that has succeeded it prints a text or writes a file. Everything before that last step is a
plan, a pure function of the files, the surroundings and the command line.
-/

namespace Stencil

inductive Action
  | print (text : Text)
  | save (path text : Text)
deriving DecidableEq, Repr

/-- Why a run fails. -/
inductive Failure
  | usage (error : UsageError)
  | command (error : CommandError)
deriving DecidableEq, Repr

/-- The exit code after a usage error; help and version are no failures. -/
def UsageError.exitCode : UsageError → Nat
  | .help _ | .version => 0
  | _ => 2

namespace Program

def action (command : Command) (text : Text) : Action :=
  match command.output? with
  | some path => .save path text
  | none => .print text

def execute (now : Int) (files : Files) (env : Environment) (i : Invocation) :
    Except CommandError Action := do
  let config ← Configuration.load files env i.config
  return action i.command (← i.command.text (.standard now) files config.bindings)

def plan (now : Int) (files : Files) (env : Environment) (words : List Text) :
    Except Failure Action := do
  let i ← (CommandLine.parse words).mapError .usage
  (execute now files env i).mapError .command

/-- What a run leaves behind. -/
structure Outcome where
  exitCode : Nat
  /-- What is printed. -/
  output : Text
  /-- The error that is reported. -/
  error : Option CommandError
  files : FileTree

/-- A run that ends with an error of a command. -/
def Outcome.failed (tree : FileTree) (error : CommandError) : Outcome := ⟨1, [], some error, tree⟩

def act (tree : FileTree) : Action → Outcome
  | .print text => ⟨0, text, none, tree⟩
  | .save path text =>
    match tree.write path text with
    | .ok tree => ⟨0, [], none, tree⟩
    | .error e => .failed tree (.unwritable path e)

/-- A run on a tree of files, given what is printed for help and version. -/
def run (page : UsageError → Text) (now : Int) (tree : FileTree) (env : Environment)
    (words : List Text) : Outcome :=
  match plan now tree.files env words with
  | .ok action => act tree action
  | .error (.command e) => .failed tree e
  | .error (.usage e) => ⟨e.exitCode, if e.exitCode = 0 then page e else [], none, tree⟩

end Program
end Stencil
