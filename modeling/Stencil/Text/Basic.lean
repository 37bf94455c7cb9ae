/-!
# Text

Text is a list of Unicode characters. This module holds the operations that every other module
shares: blanks and trimming, finding a piece of text inside another, and cutting text at a
separator. Each operation is a plain recursion over the list, and the small lemmas beside it say
how it treats concatenation.
-/

namespace Stencil

/-- Text as a list of its characters, so that length and position count characters. -/
abbrev Text := List Char

namespace Text

/-- The characters with the Unicode property White_Space. -/
def isBlank (c : Char) : Bool :=
  let n := c.toNat
  (9 ≤ n && n ≤ 13) || n == 0x20 || n == 0x85 || n == 0xA0 || n == 0x1680 ||
    (0x2000 ≤ n && n ≤ 0x200A) || n == 0x2028 || n == 0x2029 || n == 0x202F ||
    n == 0x205F || n == 0x3000

def trimStart (t : Text) : Text := t.dropWhile isBlank

/-- The text without its trailing characters that satisfy `p`. -/
def dropEndWhile (p : Char → Bool) (t : Text) : Text := (t.reverse.dropWhile p).reverse

def trimEnd (t : Text) : Text := dropEndWhile isBlank t

def trim (t : Text) : Text := trimEnd (trimStart t)

/-- What follows `opening` when the text starts with it. -/
def afterPrefix? : (opening t : Text) → Option Text
  | [], t => some t
  | _ :: _, [] => none
  | p :: ps, c :: cs => if p = c then afterPrefix? ps cs else none

@[simp] theorem afterPrefix?_append (p t : Text) : afterPrefix? p (p ++ t) = some t := by
  induction p with
  | nil => cases t <;> rfl
  | cons c p ih => simpa [afterPrefix?] using ih

theorem eq_append_of_afterPrefix? {p t r : Text} (h : afterPrefix? p t = some r) : t = p ++ r := by
  induction p generalizing t with
  | nil => cases t <;> simp_all [afterPrefix?]
  | cons c p ih =>
    cases t with
    | nil => simp [afterPrefix?] at h
    | cons d t =>
      by_cases hcd : c = d
      · simp only [afterPrefix?, hcd, ↓reduceIte] at h
        simp [hcd, ih h]
      · simp [afterPrefix?, hcd] at h

def startsWith (opening t : Text) : Bool := (afterPrefix? opening t).isSome

/-- The text before and after the first occurrence of `piece`. -/
def splitFirst? (piece : Text) : Text → Option (Text × Text)
  | [] => (afterPrefix? piece []).map (([], ·))
  | c :: cs =>
    match afterPrefix? piece (c :: cs) with
    | some rest => some ([], rest)
    | none => (splitFirst? piece cs).map fun (before, rest) => (c :: before, rest)

def occurs (piece : Text) : Text → Bool
  | [] => startsWith piece []
  | c :: cs => startsWith piece (c :: cs) || occurs piece cs

/-- The text before and after the first character `separator`. -/
def splitOnce? (separator : Char) : Text → Option (Text × Text)
  | [] => none
  | c :: cs =>
    if c = separator then some ([], cs)
    else (splitOnce? separator cs).map fun (before, rest) => (c :: before, rest)

theorem splitOnce?_append {separator : Char} (before rest : Text) (h : separator ∉ before) :
    splitOnce? separator (before ++ separator :: rest) = some (before, rest) := by
  induction before with
  | nil => simp [splitOnce?]
  | cons c before ih =>
    have hc : c ≠ separator := fun e => h (by simp [e])
    simp [splitOnce?, hc, ih (fun m => h (List.mem_cons_of_mem _ m))]

/-- The pieces between the characters `separator`; there is always at least one. -/
def fields (separator : Char) : Text → List Text
  | [] => [[]]
  | c :: cs =>
    if c = separator then [] :: fields separator cs
    else
      match fields separator cs with
      | [] => [[c]]
      | piece :: pieces => (c :: piece) :: pieces

@[simp] theorem fields_ne_nil (separator : Char) (t : Text) : fields separator t ≠ [] := by
  induction t with
  | nil => simp [fields]
  | cons c t ih =>
    unfold fields
    split
    · simp
    · split <;> simp

/-- The pieces joined with `separator` between them. -/
def join (separator : Text) : List Text → Text
  | [] => []
  | [piece] => piece
  | piece :: pieces => piece ++ separator ++ join separator pieces

/-- Joining undoes splitting. -/
theorem join_fields (separator : Char) (t : Text) : join [separator] (fields separator t) = t := by
  induction t with
  | nil => rfl
  | cons c t ih =>
    unfold fields
    split
    · next h =>
      cases hf : fields separator t with
      | nil => exact absurd hf (fields_ne_nil separator t)
      | cons piece pieces => rw [hf] at ih; simp [join, ih, h]
    · cases hf : fields separator t with
      | nil => exact absurd hf (fields_ne_nil separator t)
      | cons piece pieces =>
        rw [hf] at ih
        cases pieces with
        | nil => simp_all [join]
        | cons p ps => simp_all [join]

def fill (n : Nat) (c : Char) : Text := List.replicate n c

/-- The text with copies of `c` in front, up to the given width. -/
def padStart (width : Nat) (c : Char) (t : Text) : Text := fill (width - t.length) c ++ t

end Text
end Stencil
