import Stencil.Proofs.Template.FailingCall
import Stencil.Proofs.Template.Variable

/-!
# Calls with a variable

A helper may render its operand as a template of its own before it works on it. Main statement:
called with a variable, it writes what it makes of that rendering; the call adds nothing but its
place to a failure.
-/

namespace Stencil.Template

/-- The call of a helper with the value at a name. -/
def variableCall (position : Position) (helper name : Text) : Template :=
  [.invoke position false ⟨helper, [.path (.ofName name)], []⟩ [] [] []]

/-- Whether a template is such a call, its place aside. -/
def isVariableCall (helper name : Text) : Template → Bool
  | [.invoke _ false ⟨called, [.path path], []⟩ [] [] []] =>
    called = helper && path = .ofName name
  | _ => false

theorem eq_of_isVariableCall {helper name : Text} {template : Template}
    (h : isVariableCall helper name template = true) :
    ∃ position, template = variableCall position helper name := by
  unfold isVariableCall at h
  split at h
  · next position called path =>
    simp only [Bool.and_eq_true, decide_eq_true_eq] at h
    obtain ⟨rfl, rfl⟩ := h
    exact ⟨position, rfl⟩
  · exact absurd h (by simp)

variable {helpers : HelperTable} {answers : Answers} {helper name : Text} {f : Text → Text}

theorem pathValue_ofName (members : Members) (name : Text) :
    pathValue (.ofData (.object members)) (.ofName name) =
      pure ((members.get? name).getD .null) := by
  rw [pathValue, evaluate_ofName]

theorem run_renderElements_singleton (element : Element) (env : Environment) :
    (renderElements helpers [element] env).run answers =
      (renderElement helpers element env).run answers := by
  rw [renderElements, andThen, Rendering.run_bind]
  cases (renderElement helpers element env).run answers with
  | error e => rfl
  | ok head =>
    exact congrArg (fun t => Except.ok (After.mk t head.inlines)) (List.append_nil head.result)

/-- The call writes what its helper makes of the value at the name. -/
theorem variableCall_eq (hhelper : helpers.lookup helper = some (.transform f))
    (position : Position) (name : Text) (env : Environment) :
    (renderElements helpers (variableCall position helper name) env).run answers =
      ((((pathValue env (.ofName name)).bind fun value =>
        renderTransform f env ⟨[value], [], [], true⟩).run answers).mapError
          (·.placedAt position)).map env.give := by
  have hfind : findHelper helpers false helper = some (.transform f) := by
    rw [findHelper, hhelper]
    rfl
  have hcall : renderCall helpers env false ⟨helper, [.path (.ofName name)], []⟩ []
      (fun env => renderElements helpers [] env) (fun env => renderElements helpers [] env) =
        ((pathValue env (.ofName name)).bind fun value =>
          renderTransform f env ⟨[value], [], [], true⟩).map env.give := by
    rw [renderCall, operandValues, operandValue, pathValue]
    split
    · simp only [bind, pure, Rendering.bind, operandValues, optionValues, hfind, Helper.run]
      exact Rendering.map_map _ _ _
    · rfl
  rw [variableCall, run_renderElements_singleton, renderElement, Rendering.run_placedAt, hcall,
    Rendering.run_map]
  cases Rendering.run answers _ <;> rfl

/-- A value that is there and is not empty is rendered with all of the data. -/
theorem variableCall_of_member (hhelper : helpers.lookup helper = some (.transform f))
    (position : Position) {members : Members} {value : Json}
    (hvalue : members.get? name = some value) (hnull : value ≠ .null)
    (hempty : value ≠ .string []) :
    (renderElements helpers (variableCall position helper name)
        (.ofData (.object members))).run answers =
      (((answers (.source value.text (.object members))).map f).mapError
        (·.placedAt position)).map (Environment.ofData (.object members)).give := by
  rw [variableCall_eq hhelper, pathValue_ofName, hvalue]
  exact congrArg (fun r => (Except.mapError _ r).map _) (run_renderTransform rfl hnull hempty)

end Stencil.Template
