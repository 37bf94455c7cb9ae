import Stencil.Manual
import Stencil.Program
import Std.Time.DateTime.Timestamp

/-!
# Command line

The program as it runs: it takes the clock and the variables of its surroundings, asks for its
configuration and then for the files that its command line names, and carries out what follows.
-/

open Stencil

/-- A system error, by its number; some calls give it with the other sign. -/
def systemError (e : IO.Error) : SystemError :=
  let ofCode := fun (code : UInt32) (description : String) =>
    match min code (0 - code) with
    | 20 => SystemError.notADirectory
    | 21 => .isADirectory
    | number => .other number.toNat description.toList
  match e with
  | .noFileOrDirectory .. => .notFound
  | .interrupted _ code text | .alreadyExists _ code text | .invalidArgument _ code text
  | .permissionDenied _ code text | .resourceExhausted _ code text
  | .inappropriateType _ code text | .noSuchThing _ code text => ofCode code text
  | .otherError code text | .resourceBusy code text | .resourceVanished code text
  | .unsupportedOperation code text | .hardwareFault code text
  | .unsatisfiedConstraints code text | .illegalOperation code text | .protocolError code text
  | .timeExpired code text => ofCode code text
  | .unexpectedEof => .other 0 "unexpected end of file".toList
  | .userError text => .other 0 text.toList

/-- The bytes of a file. -/
def readBytes (path : Text) : IO (Except SystemError (List UInt8)) := do
  match ← (IO.FS.readBinFile (String.ofList path)).toBaseIO with
  | .ok content => return .ok content.toList
  | .error e => return .error (systemError e)

/-- Whether a file or a directory is seen at a path. -/
def isSeen (path : Text) : IO Bool := do
  match ← (IO.FS.realPath (String.ofList path)).toBaseIO with
  | .ok _ => return true
  | .error _ => return false

/-- Puts the questions of an inquiry to the files of the system, as they come up. -/
def ask {α : Type} : Inquiry α → IO α
  | .done result => return result
  | .look path next => do ask (next (← isSeen path))
  | .read path next => do ask (next (← readBytes path))

def report (e : CommandError) : IO UInt32 := do
  IO.eprintln ("Error: " ++ String.ofList e.message)
  match e.cause? with
  | some cause => IO.eprintln ("\nCaused by:\n    " ++ String.ofList cause.message)
  | none => pure ()
  return 1

def perform : Action → IO UInt32
  | .print text => do
    let output ← IO.getStdout
    output.putStr (String.ofList text)
    output.flush
    return 0
  | .save path text => do
    match ← (IO.FS.writeFile (String.ofList path) (String.ofList text)).toBaseIO with
    | .ok _ => return 0
    | .error e => report (.unwritable path (systemError e))

/-- Shows what is printed for a command line that asks for no command. -/
def refuse (e : UsageError) : IO UInt32 := do
  let output ← if e.exitCode = 0 then IO.getStdout else IO.getStderr
  output.putStr (Manual.page e)
  return e.exitCode.toUInt32

def main (arguments : List String) : IO UInt32 := do
  match CommandLine.parse (arguments.map String.toList) with
  | .error e => refuse e
  | .ok invocation => do
    let home := ((← IO.getEnv "HOME").map String.toList).filter (!·.isEmpty)
    let vars ← [Environment.levelName, Environment.formatName].filterMapM fun name => do
      return (← IO.getEnv (String.ofList name)).map fun value => (name, value.toList)
    let env := Environment.ofVariables home vars
    let now := (← Std.Time.Timestamp.now).toMillisecondsSinceUnixEpoch.val
    match ← ask (Configuration.loading env invocation.config) with
    | .error e => report e
    | .ok config =>
      let command := invocation.command
      let files ← ask (Inquiry.snapshot command.inputs)
      match command.text (.standard now) files config.bindings with
      | .ok text => perform (Program.action command text)
      | .error e => report e
