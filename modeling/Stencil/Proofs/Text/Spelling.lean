import Stencil.Text.Basic

/-!
# Spelled texts

Formats write a text character by character, and often leave a choice between the character itself
and an escape. A reader of such a format is described by the codes that it takes for a character.
-/

namespace Stencil

/-- The second text writes the first one, with a code for each character. -/
inductive Spelled (code : Char → Text → Prop) : Text → Text → Prop
  | nil : Spelled code [] []
  | cons {c : Char} {s t u : Text} (first : code c u) (further : Spelled code s t) :
      Spelled code (c :: s) (u ++ t)

namespace Spelled
variable {code : Char → Text → Prop}

theorem flatMap {write : Char → Text} (h : ∀ c, code c (write c)) (s : Text) :
    Spelled code s (s.flatMap write) := by
  induction s with
  | nil => exact .nil
  | cons c s ih => exact .cons (h c) ih

theorem mono {code' : Char → Text → Prop} (h : ∀ c u, code c u → code' c u) {s t : Text}
    (hs : Spelled code s t) : Spelled code' s t := by
  induction hs with
  | nil => exact .nil
  | cons first _ ih => exact .cons (h _ _ first) ih

/-- What holds of the characters of each code holds of those of the whole. -/
theorem forall_mem {P : Char → Prop} (h : ∀ c u, code c u → ∀ d ∈ u, P d) {s t : Text}
    (hs : Spelled code s t) : ∀ d ∈ t, P d := by
  induction hs with
  | nil => simp
  | cons first _ ih =>
    intro d hd
    rcases List.mem_append.mp hd with hd | hd
    · exact h _ _ first d hd
    · exact ih d hd

theorem length_le (h : ∀ c u, code c u → u ≠ []) {s t : Text} (hs : Spelled code s t) :
    s.length ≤ t.length := by
  induction hs with
  | nil => exact Nat.le_refl _
  | cons first _ ih =>
    have hpos := List.length_pos_iff.mpr (h _ _ first)
    rw [List.length_cons, List.length_append]
    omega

end Spelled
end Stencil
