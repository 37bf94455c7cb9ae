import Stencil.CommandError
import Stencil.FileTree
import Stencil.Yaml.Value

/-!
# Layers of a context

The variables of a command come from the configuration, from a file, and from the command line. A
later layer replaces the values of an earlier one in place and adds its own variables at the end.
-/

namespace Stencil

/-- A name and a value, with an equals sign between them; the value may hold more of them. -/
def parseAssignment (t : Text) : Except CommandError (Text × Text) :=
  match Text.splitOnce? '=' t with
  | some assignment => .ok assignment
  | none => .error (.invalidVariable t)

/-- The assignments of several texts; the first malformed one is an error. -/
def parseAssignments (texts : List Text) : Except CommandError (List (Text × Text)) :=
  texts.mapM parseAssignment

namespace Context

/-- The variables of a file, which is a YAML or JSON document. -/
def load (files : Files) (path : Text) : Except TemplateError Context := do
  let t ← (files.readText path).mapError .system
  match Yaml.parse? t with
  | some value => ofJson value
  | none => throw .invalidYaml

/-- The context of three layers: given variables, a file, and assignments. -/
def layered (files : Files) (bindings : Members) (path : Option Text) (assignments : List Text) :
    Except CommandError Context := do
  let loaded ←
    match path with
    | some path => (load files path).mapError (.contextFailed path)
    | none => .ok empty
  let assigned ← parseAssignments assignments
  return ((⟨bindings⟩ : Context).extend loaded.bindings).extend
    (assigned.map fun (name, value) => (name, .string value))

end Context
end Stencil
