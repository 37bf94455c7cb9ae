import Stencil.Engine

/-!
# Resolution of values

Resolving a value renders the templates in it: a string with both marks becomes its text, an
object is resolved member by member, and all else stays, arrays included. The first template that
fails ends the resolution.
-/

namespace Stencil.Resolution

section
variable (engine : Engine) (context : Context)

mutual
/-- The value with its templates rendered. -/
def resolve : Json → Except TemplateError Json
  | .string t =>
    if hasMarkers t then (engine.render t context).map .string else .ok (.string t)
  | .object members => (resolveMembers members).map .object
  | .null => .ok .null
  | .bool b => .ok (.bool b)
  | .number n => .ok (.number n)
  | .array items => .ok (.array items)

/-- The members with the templates in their values rendered. -/
def resolveMembers : List (Text × Json) → Except TemplateError (List (Text × Json))
  | [] => .ok []
  | (name, value) :: members => do
    let value ← resolve value
    return (name, value) :: (← resolveMembers members)
end

end

end Stencil.Resolution
