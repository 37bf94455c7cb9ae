import Stencil.Proofs.Yaml.BlockValues
import Stencil.Proofs.Yaml.FlowNodes

/-!
# Values of JSON

A document of JSON means the value that a reader of JSON makes of it. Where an object is given a
name twice, both keep the first place and the last value.
-/

namespace Stencil.Yaml

theorem flowItemNodes_eq_map (items : List Json) : flowItemNodes items = items.map flowNode := by
  induction items with
  | nil => rfl
  | cons v items ih => rw [flowItemNodes, ih, List.map_cons]

theorem flowMemberNodes_eq_map (members : Members) :
    flowMemberNodes members = members.map fun m => (.scalar none false m.1, flowNode m.2) := by
  induction members with
  | nil => rfl
  | cons m members ih => rw [flowMemberNodes, ih, List.map_cons]

theorem nodeForm_flow : NodeForm flowNode (.scalar none false) where
  scalar hv noArray noObject := by
    cases hv with
    | null => exact ⟨true, _, rfl, rfl⟩
    | bool b => cases b <;> exact ⟨true, _, rfl, rfl⟩
    | integer n exact => exact ⟨true, _, rfl, scalar?_integer exact⟩
    | string t => exact ⟨false, t, rfl, rfl⟩
    | @array items _ => exact absurd rfl (noArray items)
    | @object members _ => exact absurd rfl (noObject members)
  name t := ⟨false, rfl⟩
  array items := by rw [flowNode, flowItemNodes_eq_map]
  object members := by rw [flowNode, flowMemberNodes_eq_map]

/-- A text that JSON and YAML share means in YAML what it means in JSON. -/
theorem parse?_shared {members : Members} {t : Text} (h : SharedText members t)
    (hdepth : (Json.object members).NestedWithin Document.nestingLimit) :
    parse? t = some (Json.object members).settled := by
  have hvalue (d : Document) := nodeForm_flow.value? d (Json.Starts.integral h.writes) hdepth
  rw [parse?, Document.ofText?, Token.ofText?_shared h]
  simp only [Option.bind_eq_bind, Option.bind_some, Document.ofTokens?_flowTokens, Document.toJson?,
    Document.run?, hvalue]
  rfl

end Stencil.Yaml
