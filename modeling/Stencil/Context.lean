import Stencil.SystemError
import Stencil.Template.RenderError

/-!
# Contexts

The variables that templates are rendered with, in the order in which they were first set, and
the errors that work on templates and contexts can end in.
-/

namespace Stencil

inductive TemplateError
  | syntaxError (error : Template.SyntaxError)
  | renderError (error : Template.RenderError)
  /-- A context that is no object but a value of the given kind. -/
  | invalidContext (kind : Text)
  | system (error : SystemError)
  | invalidYaml
deriving DecidableEq, Repr

/-- The wording of an error; that of an unreadable document is only its kind. -/
def TemplateError.message : TemplateError → Text
  | .syntaxError error => "Template syntax error: ".toList ++ error.message
  | .renderError error => "Template render error: ".toList ++ error.message
  | .invalidContext kind => "Template context must be a mapping, got ".toList ++ kind
  | .system error => "IO error: ".toList ++ error.message
  | .invalidYaml => "YAML error".toList

structure Context where
  bindings : Members
deriving DecidableEq

namespace Context

def empty : Context := ⟨[]⟩

/-- The members of an object as variables; null has none, and other values are refused. -/
def ofJson : Json → Except TemplateError Context
  | .object members => .ok ⟨members⟩
  | .null => .ok empty
  | other => .error (.invalidContext other.kindName)

def toJson (c : Context) : Json := .object c.bindings

def get? (c : Context) (name : Text) : Option Json := Members.get? c.bindings name

def set (c : Context) (name : Text) (value : Json) : Context := ⟨Members.set c.bindings name value⟩

def extend (c : Context) (changes : List (Text × Json)) : Context :=
  ⟨Members.setAll c.bindings changes⟩

def size (c : Context) : Nat := c.bindings.length

@[simp] theorem get?_set_self (c : Context) (name : Text) (value : Json) :
    (c.set name value).get? name = some value := Members.get?_set_self ..

theorem get?_set_of_ne (c : Context) {name other : Text} (value : Json) (h : other ≠ name) :
    (c.set name value).get? other = c.get? other := Members.get?_set_of_ne _ _ h

end Context
end Stencil
