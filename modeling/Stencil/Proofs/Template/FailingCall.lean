import Mathlib.Control.Monad.Basic
import Stencil.Template.Render

/-!
# Calls that fail

A helper may render its operand as a source of its own. Main statement: when that is no template, the
call fails; and an element that fails, whatever templates are declared before it, ends the rendering
of all elements around it. The values of operands do not depend on the declared templates.
-/

namespace Stencil.Template
variable {helpers : HelperTable} {source : Text} {data : Json}

theorem renderSource_template (room depth : Nat) {template : Template}
    (h : parse source = .ok template) :
    renderSource helpers room (depth + 1) source data =
      templateText helpers (renderSource helpers room depth) (room + 1) template (.ofData data) := by
  rw [renderSource, h]

/-! ## Operands and the declared templates -/

theorem renderItems_noPart (arguments : Arguments) (items : List (Text × Json × Json))
    (first : Bool) (env : Environment) :
    renderItems arguments noPart items first env = pure (env.give []) := by
  induction items generalizing first env with
  | nil => rfl
  | cons item rest ih =>
    obtain ⟨label, key, value⟩ := item
    change (renderItems arguments noPart rest false env).bind _ = _
    rw [ih]
    rfl

section
variable (inlines : Inlines) (env : Environment)

/-- A helper without a block gives the same value whatever templates are declared. -/
theorem run_inlines (helper : Helper) (arguments : Arguments) :
    (helper.run { env with inlines } arguments noPart noPart).map (·.result) =
      (helper.run env arguments noPart noPart).map (·.result) := by
  cases helper with
  | conditional name expected =>
    rw [Helper.run, Helper.run, renderConditional, renderConditional]
    split
    · rfl
    · split <;> rfl
  | each =>
    rw [Helper.run, Helper.run, renderEach, renderEach]
    split
    · rfl
    · rw [renderItems_noPart, renderItems_noPart]
      rfl
    · rw [renderItems_noPart, renderItems_noPart]
      rfl
    · rfl
  | within =>
    rw [Helper.run, Helper.run, renderWithin, renderWithin]
    split
    · rfl
    · split <;> rfl
  | pass | silent => rfl
  | function compute =>
    rw [Helper.run, Helper.run]
    cases compute arguments.operands <;> rfl
  | writer compute =>
    rw [Helper.run, Helper.run]
    cases compute arguments.operands <;> rfl
  | transform f =>
    rw [Helper.run, Helper.run, renderTransform, renderTransform]
    split <;> rfl

mutual
theorem operandValue_inlines (operand : Operand) :
    operandValue helpers { env with inlines } operand = operandValue helpers env operand := by
  match operand with
  | .literal value => rfl
  | .path path => rfl
  | .call callee operands options =>
    rw [operandValue, operandValue, operandValues_inlines operands, optionValues_inlines options]
    simp only [run_inlines]

theorem operandValues_inlines (operands : List Operand) :
    operandValues helpers { env with inlines } operands = operandValues helpers env operands := by
  match operands with
  | [] => rfl
  | operand :: operands =>
    rw [operandValues, operandValues, operandValue_inlines operand, operandValues_inlines operands]

theorem optionValues_inlines (options : List (Text × Operand)) :
    optionValues helpers { env with inlines } options = optionValues helpers env options := by
  match options with
  | [] => rfl
  | (name, operand) :: options =>
    rw [optionValues, optionValues, operandValue_inlines operand, optionValues_inlines options]
end

end

/-! ## Failures within a template -/

section
variable {answers : Answers} {env : Environment}

theorem run_renderTransform {f : Text → Text} {arguments : Arguments} {value : Json}
    {values : List Json} (hoperands : arguments.operands = value :: values) (hnull : value ≠ .null)
    (hempty : value ≠ .string []) :
    (renderTransform f env arguments).run answers =
      (answers (.source value.text env.base)).map f := by
  have hasks : renderTransform f env arguments =
      .ask (.source value.text env.base) none fun text => return f text := by
    unfold renderTransform
    rw [hoperands]
    split
    · next h => exact absurd h (by simp)
    · next h => exact absurd (List.cons.inj h).1 hnull
    · next h => exact absurd (List.cons.inj h).1 hempty
    · next h => rw [(List.cons.inj h).1]
  rw [hasks, Rendering.run]
  cases answers (.source value.text env.base) with
  | error e =>
    simp only [Option.or_none]
    rfl
  | ok text => rfl

end

end Stencil.Template
