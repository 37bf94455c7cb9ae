import Stencil.Encoding.Sha256
import Stencil.Json.Printer
import Stencil.Layering
import Stencil.Resolution
import Stencil.Yaml.Printer

/-!
# Commands

What the program can be asked for: the text of a template, a document with its templates resolved,
or the digest of a file. A command reads files and ends in a text or in an error.
-/

namespace Stencil

inductive DocumentFormat
  | yaml
  | json
deriving DecidableEq, Repr

def DocumentFormat.print (value : Json) : DocumentFormat → Text
  | .yaml => Yaml.print value
  | .json => value.printIndented 0 ++ ['\n']

/-- Where the variables of a command come from, apart from the configuration. -/
structure ContextSource where
  file : Option Text
  assignments : List Text
deriving DecidableEq, Repr

/-- What the program is asked for. -/
inductive Command
  | render (template : Text) (source : ContextSource)
  | resolve (document : Text) (source : ContextSource) (output : Option Text)
      (format : DocumentFormat)
  | digest (file : Text)
deriving DecidableEq, Repr

namespace Command

section
variable (engine : Engine) (files : Files) (bindings : Members)

/-- The context of a command. -/
def context (source : ContextSource) : Except CommandError Context :=
  Context.layered files bindings source.file source.assignments

def renderFile (path : Text) (source : ContextSource) : Except CommandError Text := do
  let template ← (files.readText path).mapError (.unreadable .template path)
  let context ← context files bindings source
  (engine.render template context).mapError (.renderFailed path)

/-- The mapping of a document in a file; an empty document is an empty mapping. -/
def readMapping (path : Text) : Except CommandError Members := do
  let t ← (files.readText path).mapError (.unreadable .document path)
  match Yaml.parse? t with
  | some (.object members) => return members
  | some .null => return []
  | some _ => throw (.notAMapping path)
  | none => throw (.invalidDocument path)

/-- The mapping of a document in a file with its templates rendered. -/
def resolveMapping (path : Text) (source : ContextSource) : Except CommandError Members := do
  let members ← readMapping files path
  let context ← context files bindings source
  (Resolution.resolveMembers engine context members).mapError (.resolveFailed path)

def resolveFile (path : Text) (source : ContextSource) (format : DocumentFormat) :
    Except CommandError Text :=
  (resolveMapping engine files bindings path source).map fun members =>
    format.print (.object members)

/-- The digest of a file, taken in piece by piece. -/
def digestFile (path : Text) : Except CommandError Text :=
  match files.read path with
  | .ok content =>
    (Sha256.digestReads .empty ((Sha256.pieces content).map .piece)).mapError (.undigested path)
  | .error e => .error (.undigested path e)

def text : Command → Except CommandError Text
  | .render template source => renderFile engine files bindings template source
  | .resolve document source _ format => resolveFile engine files bindings document source format
  | .digest file => (digestFile files file).map (· ++ ['\n'])

end

/-- The file that a command writes its text to, if it does not print it. -/
def output? : Command → Option Text
  | .resolve _ _ output _ => output
  | .render .. | .digest _ => none

def inputs : Command → List Text
  | .render template source => template :: source.file.toList
  | .resolve document source _ _ => document :: source.file.toList
  | .digest file => [file]

end Command
end Stencil
