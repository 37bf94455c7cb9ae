import Stencil.PropertyTree
import Stencil.Proofs.Text.Occurrence

/-!
# Leaves of a tree of properties

A leaf is a declared text with the getter and the setter that stand before it; a plain text has
ones that never fail. This module says what resolution owes to a single leaf: the new text that it
takes, or the first error between its getter and its setter. Main statements: the outcome that the
resolver computes for a leaf is exactly this, and a leaf never has both.
-/

namespace Stencil

/-- The getter and the setter of a plain text. -/
def Accessor.plain : Accessor := ⟨.ok, fun _ _ => .ok ()⟩

namespace PropertyTree

/-- A declared text: what its slot holds, and how that is read and written. -/
structure Leaf where
  held : Option Text
  access : Accessor

theorem isMarked_iff (t : Text) : isMarked t = true ↔ openMarker <:+: t :=
  Text.occurs_iff openMarker t

namespace Leaf
variable (engine : Engine) (context : Context)

/-- The leaf is read, holds an opening mark, is rendered and has the new text accepted. -/
def Takes (leaf : Leaf) (new : Text) : Prop :=
  ∃ old, leaf.access.read leaf.held = .ok (some old) ∧ openMarker <:+: old ∧
    engine.render old context = .ok new ∧ leaf.access.accept leaf.held new = .ok ()

/-- The first error between the getter and the setter. A text without an opening mark is neither
rendered nor written, so that only its getter can fail. -/
inductive Fails (leaf : Leaf) : PropertyError → Prop
  | read {e : PropertyError} : leaf.access.read leaf.held = .error e → Fails leaf e
  | render {old : Text} {e : TemplateError} : leaf.access.read leaf.held = .ok (some old) →
      openMarker <:+: old → engine.render old context = .error e → Fails leaf (.template e)
  | write {old new : Text} {e : PropertyError} : leaf.access.read leaf.held = .ok (some old) →
      openMarker <:+: old → engine.render old context = .ok new →
      leaf.access.accept leaf.held new = .error e → Fails leaf e

/-- What the resolver makes of the leaf. -/
def outcome (leaf : Leaf) : Option (Except PropertyError Text) :=
  renderAccessor? engine context leaf.held leaf.access

def rendered? (leaf : Leaf) : Option Text :=
  match leaf.outcome engine context with
  | some (.ok new) => some new
  | _ => none

def failure? (leaf : Leaf) : Option PropertyError :=
  match leaf.outcome engine context with
  | some (.error e) => some e
  | _ => none

def settled (leaf : Leaf) : Leaf :=
  { leaf with held := storedAfter leaf.held (leaf.outcome engine context) }

variable {engine context}

theorem renderText?_of_ok {old new : Text} (hmark : openMarker <:+: old)
    (hrender : engine.render old context = .ok new) :
    renderText? engine context old = some (.ok new) := by
  rw [renderText?, (isMarked_iff old).mpr hmark, hrender]
  rfl

theorem renderText?_of_error {old : Text} {e : TemplateError} (hmark : openMarker <:+: old)
    (hrender : engine.render old context = .error e) :
    renderText? engine context old = some (.error (.template e)) := by
  rw [renderText?, (isMarked_iff old).mpr hmark, hrender]
  rfl

theorem Takes.outcome {leaf : Leaf} {new : Text} (h : leaf.Takes engine context new) :
    leaf.outcome engine context = some (.ok new) := by
  obtain ⟨old, hread, hmark, hrender, haccept⟩ := h
  simp [Leaf.outcome, renderAccessor?, hread, renderText?_of_ok hmark hrender, haccept,
    Except.map]

theorem Fails.outcome {leaf : Leaf} {e : PropertyError} (h : leaf.Fails engine context e) :
    leaf.outcome engine context = some (.error e) := by
  cases h with
  | read hread => simp [Leaf.outcome, renderAccessor?, hread]
  | render hread hmark hrender =>
    simp [Leaf.outcome, renderAccessor?, hread, renderText?_of_error hmark hrender]
  | write hread hmark hrender haccept =>
    simp [Leaf.outcome, renderAccessor?, hread, renderText?_of_ok hmark hrender, haccept,
      Except.map]

theorem outcome_of_unmarked {leaf : Leaf} {t : Text}
    (hread : leaf.access.read leaf.held = .ok (some t)) (hmark : ¬openMarker <:+: t) :
    leaf.outcome engine context = none := by
  have hoff : isMarked t = false := by
    rw [← Bool.not_eq_true, isMarked_iff]
    exact hmark
  simp [outcome, renderAccessor?, renderText?, hread, hoff]

theorem outcome_cases (engine : Engine) (context : Context) (leaf : Leaf) :
    leaf.outcome engine context = none ∨ (∃ new, leaf.Takes engine context new) ∨
      ∃ e, leaf.Fails engine context e := by
  cases hread : leaf.access.read leaf.held with
  | error e => exact .inr (.inr ⟨e, .read hread⟩)
  | ok current =>
    cases current with
    | none => exact .inl (by simp [Leaf.outcome, renderAccessor?, hread])
    | some old =>
      by_cases hmark : openMarker <:+: old
      · cases hrender : engine.render old context with
        | error e => exact .inr (.inr ⟨_, .render hread hmark hrender⟩)
        | ok new =>
          cases haccept : leaf.access.accept leaf.held new with
          | error e => exact .inr (.inr ⟨e, .write hread hmark hrender haccept⟩)
          | ok u => exact .inr (.inl ⟨new, old, hread, hmark, hrender, haccept⟩)
      · exact .inl (outcome_of_unmarked hread hmark)

theorem outcome_eq_ok_iff {leaf : Leaf} {new : Text} :
    leaf.outcome engine context = some (.ok new) ↔ leaf.Takes engine context new := by
  refine ⟨fun h => ?_, Takes.outcome⟩
  rcases outcome_cases engine context leaf with hnone | ⟨new', htakes⟩ | ⟨e, hfails⟩
  · exact absurd (hnone.symm.trans h) (by simp)
  · have hsame := htakes.outcome.symm.trans h
    simp only [Option.some.injEq, Except.ok.injEq] at hsame
    exact hsame ▸ htakes
  · exact absurd (hfails.outcome.symm.trans h) (by simp)

theorem outcome_eq_error_iff {leaf : Leaf} {e : PropertyError} :
    leaf.outcome engine context = some (.error e) ↔ leaf.Fails engine context e := by
  refine ⟨fun h => ?_, Fails.outcome⟩
  rcases outcome_cases engine context leaf with hnone | ⟨new, htakes⟩ | ⟨e', hfails⟩
  · exact absurd (hnone.symm.trans h) (by simp)
  · exact absurd (htakes.outcome.symm.trans h) (by simp)
  · have hsame := hfails.outcome.symm.trans h
    simp only [Option.some.injEq, Except.error.injEq] at hsame
    exact hsame ▸ hfails

theorem rendered?_eq_some_iff {leaf : Leaf} {new : Text} :
    leaf.rendered? engine context = some new ↔ leaf.Takes engine context new := by
  rw [← outcome_eq_ok_iff, rendered?]
  split <;> simp_all

theorem failure?_eq_some_iff {leaf : Leaf} {e : PropertyError} :
    leaf.failure? engine context = some e ↔ leaf.Fails engine context e := by
  rw [← outcome_eq_error_iff, failure?]
  split <;> simp_all

theorem Takes.not_fails {leaf : Leaf} {new : Text} (h : leaf.Takes engine context new)
    (e : PropertyError) : ¬leaf.Fails engine context e :=
  fun hfails => absurd (h.outcome.symm.trans hfails.outcome) (by simp)

theorem Takes.settled {leaf : Leaf} {new : Text} (h : leaf.Takes engine context new) :
    leaf.settled engine context = { leaf with held := some new } := by
  rw [Leaf.settled, h.outcome, storedAfter]

theorem settled_of_not_takes {leaf : Leaf} (h : ∀ new, ¬leaf.Takes engine context new) :
    leaf.settled engine context = leaf := by
  rw [Leaf.settled]
  cases hout : leaf.outcome engine context with
  | none => rfl
  | some result =>
    cases result with
    | error e => rfl
    | ok new => exact absurd (outcome_eq_ok_iff.mp hout) (h new)

end Leaf
end PropertyTree
end Stencil
