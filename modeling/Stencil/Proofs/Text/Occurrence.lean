import Stencil.Engine

/-!
# Pieces of a text

The scan for a piece of text finds it exactly when it stands somewhere in the text. The marks of
expressions are looked for in this way.
-/

namespace Stencil

theorem Text.startsWith_iff (opening t : Text) :
    startsWith opening t = true ↔ opening <+: t := by
  rw [startsWith, Option.isSome_iff_exists]
  constructor
  · rintro ⟨rest, h⟩
    exact ⟨rest, (eq_append_of_afterPrefix? h).symm⟩
  · rintro ⟨rest, rfl⟩
    exact ⟨rest, afterPrefix?_append opening rest⟩

theorem Text.occurs_iff (piece t : Text) : occurs piece t = true ↔ piece <:+: t := by
  induction t with
  | nil => rw [occurs, startsWith_iff, List.prefix_nil, List.infix_nil]
  | cons c t ih => rw [occurs, Bool.or_eq_true, startsWith_iff, ih, List.infix_cons_iff]

/-- A mark of two different characters is found where it first stands. -/
theorem Text.splitFirst?_pair_eq_some_iff {c d : Char} (hcd : c ≠ d) {t before rest : Text} :
    splitFirst? [c, d] t = some (before, rest) ↔
      t = before ++ c :: d :: rest ∧ ¬[c, d] <:+: before := by
  induction t generalizing before with
  | nil => simp [splitFirst?, afterPrefix?]
  | cons a t ih =>
    rw [splitFirst?]
    split
    · next after hafter =>
      have heq : a :: t = c :: d :: after := eq_append_of_afterPrefix? hafter
      rw [heq]
      constructor
      · intro h
        cases h
        exact ⟨rfl, by simp⟩
      · rintro ⟨hsplit, hbefore⟩
        -- The mark in front would stand in what is before it, or overlap with itself.
        cases before with
        | nil =>
          cases hsplit
          rfl
        | cons b before =>
          cases before with
          | nil =>
            cases hsplit
            exact absurd rfl hcd
          | cons b' before =>
            cases hsplit
            exact absurd ⟨[], before, rfl⟩ hbefore
    · next hnone =>
      have hnot : ¬[c, d] <+: a :: t := by
        rw [← startsWith_iff, startsWith, hnone]
        exact Bool.false_ne_true
      constructor
      · intro h
        obtain ⟨⟨before', rest'⟩, hlater, heq⟩ := Option.map_eq_some_iff.mp h
        cases heq
        obtain ⟨rfl, hbefore⟩ := ih.mp hlater
        refine ⟨rfl, fun hmark => ?_⟩
        rcases List.infix_cons_iff.mp hmark with hfront | hlater
        · exact hnot (hfront.trans (List.prefix_append _ _))
        · exact hbefore hlater
      · rintro ⟨hsplit, hbefore⟩
        cases before with
        | nil =>
          cases hsplit
          exact absurd (List.prefix_append [c, d] rest) hnot
        | cons b before =>
          cases hsplit
          have hlater := ih.mpr ⟨rfl, fun hmark =>
            hbefore (hmark.trans (List.suffix_cons _ before).isInfix)⟩
          rw [hlater]
          rfl

theorem hasMarkers_iff (t : Text) :
    hasMarkers t = true ↔ openMarker <:+: t ∧ closeMarker <:+: t := by
  rw [hasMarkers, Bool.and_eq_true, Text.occurs_iff, Text.occurs_iff]

end Stencil
