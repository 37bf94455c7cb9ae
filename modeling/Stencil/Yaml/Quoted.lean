import Stencil.Text.Hexadecimal
import Stencil.Yaml.Gap

/-!
# Quoted text

Between single quotes only the quote is special: it is written twice. Between double quotes a
backslash starts an escape. In both a line break is folded, and no document may start or end.
-/

namespace Stencil.Yaml

inductive Quote
  | single
  | double
deriving DecidableEq, Repr

/-- The character that opens and closes. -/
def Quote.mark : Quote → Char
  | .single => '\''
  | .double => '"'

namespace Quoted

/-- The character that a letter after a backslash stands for. -/
def shortEscape? (c : Char) : Option Char :=
  match c with
  | '0' => some (Char.ofNat 0)
  | 'a' => some (Char.ofNat 7)
  | 'b' => some (Char.ofNat 8)
  | 't' => some '\t'
  | '\t' => some '\t'
  | 'n' => some '\n'
  | 'v' => some (Char.ofNat 11)
  | 'f' => some (Char.ofNat 12)
  | 'r' => some '\r'
  | 'e' => some (Char.ofNat 27)
  | ' ' => some ' '
  | '"' => some '"'
  | '/' => some '/'
  | '\\' => some '\\'
  | 'N' => some (Char.ofNat 0x85)
  | '_' => some (Char.ofNat 0xA0)
  | 'L' => some (Char.ofNat 0x2028)
  | 'P' => some (Char.ofNat 0x2029)
  | _ => none

/-- How many hexadecimal digits follow a letter that starts a character number. -/
def numberLength? (c : Char) : Option Nat :=
  match c with
  | 'x' => some 2
  | 'u' => some 4
  | 'U' => some 8
  | _ => none

/-- The character that is escaped at a position after a backslash, and the position after it. -/
def escape? (c : Cursor) : Option (Char × Cursor) :=
  match c.rest with
  | [] => none
  | d :: rest =>
    match numberLength? d with
    | some length => do
      let (n, _) ← Hexadecimal.take? length 0 rest
      if n.isValidChar then some (Char.ofNat n, c.skip (length + 1)) else none
    | none => (shortEscape? d).map fun e => (e, c.next)

/-- The text up to the closing quote, and the position after it. -/
def tail? (quote : Quote) : (fuel : Nat) → Cursor → Option (Text × Cursor)
  | 0, _ => none
  | fuel + 1, c =>
    if c.atDocumentMark then none
    else
      match c.rest with
      | [] => none
      | d :: rest =>
        if d = quote.mark then
          if quote = .single ∧ rest.head? = some d then
            (tail? quote fuel (c.skip 2)).map fun (t, c) => (d :: t, c)
          else some ([], c.next)
        else if quote = .double ∧ d = '\\' then
          match c.next.lineBreak? with
          | some (_, after) => do
            let (gap, c) ← Gap.read? 0 .escaped after
            (tail? quote fuel c).map fun (t, c) => (gap.text ++ t, c)
          | none => do
            let (e, c) ← escape? c.next
            (tail? quote fuel c).map fun (t, c) => (e :: t, c)
        else if isSpace d || isBreak d then do
          let (gap, c) ← Gap.read? 0 .empty c
          (tail? quote fuel c).map fun (t, c) => (gap.text ++ t, c)
        else (tail? quote fuel c.next).map fun (t, c) => (d :: t, c)

/-- The text whose opening quote stands at a position, and the position after the closing one. -/
def read? (quote : Quote) (c : Cursor) : Option (Text × Cursor) :=
  tail? quote (c.rest.length + 1) c.next

end Quoted
end Stencil.Yaml
