import Stencil.Json.Basic

/-!
# Dotted paths

A path such as `owner.emails.0` names a value inside another: each step between the dots is a
member name in an object and a position in an array. The empty path is the value itself.
-/

namespace Stencil.Json

/-- One step down: a member of an object by name, an item of an array by position. -/
def child? (value : Json) (step : Text) : Option Json :=
  match value with
  | .object members => Members.get? members step
  | .array items => (Numeral.toIndex? step).bind fun i => items[i]?
  | _ => none

def descend? : Json → List Text → Option Json
  | value, [] => some value
  | value, step :: steps => (child? value step).bind fun next => descend? next steps

/-- The value at a dotted path. -/
def atPath? (value : Json) (path : Text) : Option Json :=
  if path.isEmpty then some value else descend? value (Text.fields '.' path)

theorem descend?_append (value : Json) (first second : List Text) :
    descend? value (first ++ second) =
      (descend? value first).bind fun next => descend? next second := by
  induction first generalizing value with
  | nil => rfl
  | cons step steps ih =>
    simp only [List.cons_append, descend?, Option.bind_assoc]
    congr
    funext next
    exact ih next

end Stencil.Json
