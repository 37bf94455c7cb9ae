import Stencil.Yaml.Cursor

/-!
# Gaps between words

A text that goes over several lines is folded: the blanks around a line break do not count, a
single break is a space, and of several breaks all but the first stay.
-/

namespace Stencil.Yaml

/-- The blanks and breaks between two words. -/
structure Gap where
  /-- The blanks before the first break. -/
  spaces : Text
  /-- What the first break means, when there is one; an escaped break means nothing. -/
  firstBreak : Option Text
  /-- What the further breaks mean. -/
  breaks : Text
deriving DecidableEq, Repr

namespace Gap

def empty : Gap := ⟨[], none, []⟩

def escaped : Gap := ⟨[], some [], []⟩

/-- Whether the gap goes over the end of a line. -/
def isBroken (gap : Gap) : Bool := gap.firstBreak.isSome

def addBreak (c : Char) (gap : Gap) : Gap :=
  match gap.firstBreak with
  | none => { gap with firstBreak := some [c] }
  | some _ => { gap with breaks := gap.breaks ++ [c] }

/-- The gap with one more blank, which counts only before the first break. -/
def addSpace (c : Char) (gap : Gap) : Gap :=
  if gap.isBroken then gap else { gap with spaces := gap.spaces ++ [c] }

def text (gap : Gap) : Text :=
  match gap.firstBreak with
  | none => gap.spaces
  | some first =>
    if first = ['\n'] then if gap.breaks.isEmpty then [' '] else gap.breaks
    else first ++ gap.breaks

/-- The gap continued over all blanks and breaks that follow, and the position after them. After a
break, a tab in the first `least` columns is refused. -/
def extend? (least : Nat) : (fuel : Nat) → Gap → Cursor → Option (Gap × Cursor)
  | 0, _, _ => none
  | fuel + 1, gap, c =>
    match c.lineBreak? with
    | some (d, c) => extend? least fuel (gap.addBreak d) c
    | none =>
      match c.rest with
      | d :: _ =>
        if !isSpace d then some (gap, c)
        else if gap.isBroken && d = '\t' && c.column < least then none
        else extend? least fuel (gap.addSpace d) c.next
      | [] => some (gap, c)

def read? (least : Nat) (gap : Gap) (c : Cursor) : Option (Gap × Cursor) :=
  extend? least (c.rest.length + 1) gap c

end Gap
end Stencil.Yaml
