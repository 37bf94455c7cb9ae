import Stencil.Yaml.Gap

/-!
# Plain text

Text without quotes ends before a colon that ends a word, before a comment and, outside brackets,
before a line that is not indented enough. Between brackets the marks of the brackets end it too.
-/

namespace Stencil.Yaml

/-- The marks that structure what stands between brackets. -/
def isFlowMark (c : Char) : Bool :=
  c = ',' || c = '[' || c = ']' || c = '\x7b' || c = '\x7d'

namespace Plain

/-- A plain text, whether a line ended after its last word, and the position after it. -/
structure Reading where
  text : Text
  broken : Bool
  cursor : Cursor
deriving DecidableEq, Repr

/-- The characters up to the end of a word, and the position after them. Between brackets a colon
right before another mark is refused. -/
def word? (inFlow : Bool) : (fuel : Nat) → Cursor → Option (Text × Cursor)
  | 0, _ => none
  | fuel + 1, c =>
    match c.rest with
    | [] => some ([], c)
    | d :: rest =>
      if isSpace d || isBreak d then some ([], c)
      else if inFlow && d = ':' && rest.head?.any fun e => isFlowMark e || e = '?' then none
      else if (d = ':' && endsWord rest) || (inFlow && isFlowMark d) then some ([], c)
      else (word? inFlow fuel c.next).map fun (t, c) => (d :: t, c)

/-- The words that follow a gap. Outside brackets a line continues the text only from column
`least` on. -/
def words? (inFlow : Bool) (least : Nat) : (fuel : Nat) → Gap → Cursor → Option Reading
  | 0, _, _ => none
  | fuel + 1, gap, c =>
    if c.atDocumentMark || c.rest.head? = some '#' then some ⟨[], gap.isBroken, c⟩
    else do
      let (word, after) ← word? inFlow (c.rest.length + 1) c
      if word.isEmpty then some ⟨[], gap.isBroken, c⟩
      else
        let (next, c) ← Gap.read? least .empty after
        let t := gap.text ++ word
        if next = .empty then some ⟨t, false, c⟩
        else if !inFlow && c.column < least then some ⟨t, next.isBroken, c⟩
        else (words? inFlow least fuel next c).map fun r => { r with text := t ++ r.text }

/-- The plain text that starts at a position. -/
def read? (inFlow : Bool) (least : Nat) (c : Cursor) : Option Reading :=
  words? inFlow least (c.rest.length + 1) .empty c

end Plain
end Stencil.Yaml
