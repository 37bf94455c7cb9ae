import Stencil.Context
import Stencil.Template.Render
import Stencil.Toolkit

/-!
# Engines

An engine renders templates with its helpers. What is no template at all is a syntax error
whatever the helpers and the variables are; any other failure is an error of rendering. Templates
within templates take up the stack, which ends a rendering that has no end of its own.
-/

namespace Stencil

/-- A way to render templates: the helpers that they may call, and how deep in each other they have
room on the stack. -/
structure Engine where
  helpers : Template.HelperTable
  room : Nat

namespace Engine

/-- More room than any stack has, so that a rendering ends in the bound only when it would not end
on the stack either. -/
def ampleRoom : Nat := Nat.pow 2 32

/-- The engine with the basic helpers alone. -/
def basic : Engine := ⟨Template.basicHelpers, ampleRoom⟩

/-- The engine with all helpers, at a moment in milliseconds. -/
def standard (now : Int) : Engine := ⟨Toolkit.helpers now ++ Template.basicHelpers, ampleRoom⟩

/-- The engine with one more helper, which hides any other of the name. -/
def register (engine : Engine) (name : Text) (helper : Template.Helper) : Engine :=
  { engine with helpers := (name, helper) :: engine.helpers }

/-- The engine with another amount of room. -/
def withRoom (engine : Engine) (room : Nat) : Engine := { engine with room }

def validate (source : Text) : Except TemplateError Unit :=
  match Template.parse source with
  | .ok _ => .ok ()
  | .error e => .error (.syntaxError e)

/-- The text of a source with the variables of a context. Only after a failure is the source read by
itself, to tell what is no template from what fails while it is written. -/
def render (engine : Engine) (source : Text) (context : Context) : Except TemplateError Text :=
  match Template.render engine.helpers engine.room source context.toJson with
  | .ok text => .ok text
  | .error e =>
    match validate source with
    | .error syntaxError => .error syntaxError
    | .ok _ => .error (.renderError e)

end Engine

/-- The mark that opens an expression. -/
def openMarker : Text := Template.openMark

/-- The mark that closes an expression. -/
def closeMarker : Text := Template.closeMark

/-- Whether both marks of an expression occur in a text, in any order. -/
def hasMarkers (t : Text) : Bool := Text.occurs openMarker t && Text.occurs closeMarker t

end Stencil
