import Stencil.Template.Piece

/-!
# Blanks around tags

Which blanks next to a tag belong to the output. A tilde removes all of them on its side. A tag
that shares its line with blanks only, and that is not itself written, takes the whole line out of
the output. Before an inclusion the blanks stay, as the indent of its first line.
-/

namespace Stencil.Template

/-- Whether a tag can take its line out of the output. -/
def Tag.isStructural : Tag → Bool
  | .value _ | .invoke _ => false
  | _ => true

/-- Whether a tag leaves the blanks before it, which indent all that it writes. -/
def Tag.isIndented : Tag → Bool
  | .inclusion _ => true
  | _ => false

/-- What the tags before a text ask of its start. -/
structure Margin where
  /-- All blanks are to be removed. -/
  trim : Bool
  /-- The rest of the line is to be removed, when it is blank. -/
  dropLine : Bool
deriving DecidableEq, Repr

def Margin.start : Margin := ⟨false, false⟩

/-- What a tag asks of the text after it. A comment has no tildes. -/
def Margin.after (margin : Margin) (tag : PlacedTag) : Margin where
  trim :=
    match tag.tag with
    | .comment => margin.trim
    | _ => tag.trimAfter
  dropLine := if tag.tag.isStructural then tag.standalone else margin.dropLine

/-- The text after the blanks of its first line and one end of line. -/
def dropLineStart (t : Text) : Text :=
  match t.dropWhile isLineSpace with
  | '\r' :: '\n' :: rest => rest
  | '\n' :: rest => rest
  | rest => rest

/-- The text with its start as the tags before it ask. -/
def Margin.applyTo (margin : Margin) (t : Text) : Text :=
  if margin.trim then Text.trimStart t
  else if margin.dropLine then dropLineStart t
  else t

/-- The text with its end as the piece after it asks. -/
def fitBefore (next : Option Piece) (t : Text) : Text :=
  match next with
  | some (.tag tag) =>
    let t := if tag.trimBefore then Text.trimEnd t else t
    if tag.tag.isStructural && !tag.tag.isIndented && tag.standalone then
      Text.dropEndWhile isLineSpace t
    else t
  | _ => t

/-- The pieces with the texts that belong to the output. A text that is all blank goes as a whole
where blanks are removed. -/
def layout : Margin → List Piece → List Piece
  | _, [] => []
  | margin, .text t :: rest =>
    if margin.trim && t.all isSpace then layout margin rest
    else
      .text (fitBefore rest.head? (margin.applyTo t)) ::
        layout { margin with dropLine := false } rest
  | margin, .tag tag :: rest => .tag tag :: layout (margin.after tag) rest

end Stencil.Template
