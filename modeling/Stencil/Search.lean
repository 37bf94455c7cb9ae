import Stencil.Json.DottedPath
import Stencil.Json.Printer
import Stencil.HelperError

/-!
# Searching a collection

A search looks through the items of an array, or the values of an object, for the first one that
holds a given string at one path and anything at another, and gives the text of the latter.
-/

namespace Stencil

/-- What a search looks for: the string `wanted` at `path`, and then the value at `output`. -/
structure Search where
  path : Text
  wanted : Text
  output : Text
deriving DecidableEq, Repr

namespace Search

/-- The items of a collection: those of an array, or the values of an object. -/
def items? : Json → Option (List Json)
  | .array items => some items
  | .object members => some (members.map Prod.snd)
  | _ => none

/-- Whether an item holds the wanted string. -/
def hasWanted (s : Search) (item : Json) : Bool := item.atPath? s.path == some (.string s.wanted)

/-- What an item contributes: the value at `output` when the item holds the wanted string. -/
def usable? (s : Search) (item : Json) : Option Json :=
  if s.hasWanted item then item.atPath? s.output else none

/-- The text of the first usable item, and the empty text when there is none. -/
def among (s : Search) (items : List Json) : Text :=
  match items.findSome? s.usable? with
  | some found => found.text
  | none => []

def run (s : Search) (source : Json) : Except HelperError Text :=
  match items? source with
  | some items => .ok (s.among items)
  | none => .error (.illegalArgumentType "find".toList source.kindName)

end Search
end Stencil
