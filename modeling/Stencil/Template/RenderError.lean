import Stencil.Template.Scope
import Stencil.HelperError

/-!
# Errors of rendering

Why a template could not be rendered, and where: the place is that of the innermost element that
failed, in the template that holds it.
-/

namespace Stencil.Template

/-- What a helper that computes a value finds wrong with its call. -/
inductive CallError
  | helper (error : HelperError)
  /-- A helper was called without its operand. -/
  | missingOperand (helper : Text)
  /-- A lookup was called without its key. -/
  | missingKey
  /-- A helper on values was called with too few of them. -/
  | missingValue (helper parameter : Text)
  /-- A comparison was called with a value that is no integer. -/
  | notAnInteger (helper parameter : Text)
deriving DecidableEq, Repr

/-- What is wrong with the declaration of a template. -/
inductive InlineError
  | missingName
  | nameNotText
  | missingBlock
deriving DecidableEq, Repr

/-- Why rendering failed. -/
inductive RenderCause
  | call (error : CallError)
  | undefinedHelper (name : Text)
  | undefinedCallee (callee : Callee)
  | undefinedTemplate (name : Text)
  | undefinedDirective (name : Text)
  | inline (error : InlineError)
  | path (error : PathError)
  /-- A text that was to be rendered is no template. -/
  | malformedTemplate
  /-- No failure of a template: the stack had no room left for templates within templates, and the
  rendering did not come to its end. -/
  | exhausted
deriving DecidableEq, Repr

/-- A failure with its place, once that is known. -/
structure RenderError where
  cause : RenderCause
  position : Option Position
deriving DecidableEq, Repr

/-- A failure whose place is not yet known. -/
def RenderError.ofCause (cause : RenderCause) : RenderError := ⟨cause, none⟩

/-- The failure at a place, unless its place is already known. -/
def RenderError.placedAt (e : RenderError) (position : Position) : RenderError :=
  { e with position := e.position.or (some position) }

/-- The inner form of a step of a path, as messages show it. -/
def Segment.describe : Segment → Text
  | .root => "Ruled(path_root)".toList
  | .variableMark => "Ruled(path_local)".toList
  | .up => "Ruled(path_up)".toList
  | .named name => "Named(".toList ++ Text.quoted name ++ [')']

/-- The inner form of a path, as messages show it. -/
def Path.describe (path : Path) : Text :=
  match path.asVariable? with
  | some (depth, name) =>
    "Local((".toList ++ Numeral.ofNat depth ++ ", ".toList ++ Text.quoted name ++ ", ".toList ++
      Text.quoted path.source ++ "))".toList
  | none =>
    "Relative(([".toList ++ Text.join ", ".toList (path.segments.map Segment.describe) ++
      "], ".toList ++ Text.quoted path.source ++ "))".toList

/-- The inner form of what is called, as messages show it. -/
def Callee.describe : Callee → Text
  | .word name => "Name(".toList ++ Text.quoted name ++ [')']
  | .path p => "Path(".toList ++ p.describe ++ [')']

def CallError.message : CallError → Text
  | .helper error => error.message
  | .missingOperand name => "Param not found for helper ".toList ++ Text.quoted name
  | .missingKey => "Insufficient params for helper \"lookup\"".toList
  | .missingValue name parameter =>
    '`' :: name ++ "` helper: Couldn't read parameter ".toList ++ parameter
  | .notAnInteger name parameter =>
    '`' :: name ++ "` helper: Couldn't convert parameter ".toList ++ parameter ++
      " to type `i64`.".toList

def InlineError.message : InlineError → Text
  | .missingName => "Param required for directive \"inline\"".toList
  | .nameNotText => "inline name must be string".toList
  | .missingBlock => "inline should have a block".toList

def RenderCause.message : RenderCause → Text
  | .call error => error.message
  | .undefinedHelper name => "Helper not defined: ".toList ++ Text.quoted name
  | .undefinedCallee callee => "Helper not defined: ".toList ++ callee.describe
  | .undefinedTemplate name => "Partial not found: ".toList ++ name
  | .undefinedDirective name => "Decorator not defined: ".toList ++ Text.quoted name
  | .inline error => error.message
  | .path .memberOfArray => "Cannot access array/vector with string index.".toList
  | .malformedTemplate => "Failed to parse template.".toList
  | .exhausted => "stack overflow".toList

def RenderError.message (e : RenderError) : Text :=
  match e.position with
  | some position =>
    "Error rendering \"Unnamed template\" line ".toList ++ Numeral.ofNat position.line ++
      ", col ".toList ++ Numeral.ofNat position.column ++ ": ".toList ++ e.cause.message
  | none => e.cause.message

end Stencil.Template
