import Stencil.Proofs.Json.Grammar
import Stencil.Proofs.Yaml.BlockNodes
import Stencil.Yaml.Value

/-!
# Values of a printed value

The node of a value means that value, so that the block form of a mapping is read back. What a node
means does not depend on the layout of its text, so this is told of any way to make nodes of values
that keeps their shape.
-/

namespace Stencil.Yaml

/-- A text is written without quotes only when it denotes itself. -/
theorem denotesItself_of_plain {t : Text} (h : Scalar.style t = .plain) :
    Meaning.ofText t = .text := by
  rw [Scalar.style] at h
  split at h
  · split at h <;> cases h
  · split at h
    · next hplain =>
      simp only [Bool.and_eq_true, Scalar.denotesItself, decide_eq_true_eq] at hplain
      exact hplain.1.1
    · split at h <;> cases h

theorem scalar?_text (t : Text) : scalar? none (Scalar.style t = .plain) t = some (.string t) := by
  by_cases h : Scalar.style t = .plain
  · rw [decide_eq_true h, scalar?, if_pos rfl, denotesItself_of_plain h]
    rfl
  · rw [decide_eq_false h, scalar?]
    rfl

theorem scalar?_integer {n : Int} (exact : Number.Exact n) :
    scalar? none true (Numeral.ofInt n) = some (.number (.integer n exact)) := by
  rw [scalar?, if_pos rfl, Meaning.ofText_ofInt exact]
  simp [Meaning.toJson?, Number.ofInt?, exact]

namespace Document

variable (d : Document)

theorem value?_scalar {plain : Bool} {t : Text} {v : Json} (h : scalar? none plain t = some v)
    (depth : Nat) : d.value? depth (.scalar none plain t) = pure v := by
  have hlift : (liftM (scalar? none plain t) : Following Json) = pure v := by
    rw [h]
    rfl
  cases depth <;> exact hlift

theorem value?_sequence (depth : Nat) (items : List Node) :
    d.value? (depth + 1) (.sequence none items) =
      (do return .array (← items.mapM fun item => d.value? depth item)) := rfl

theorem value?_mapping (depth : Nat) (entries : List (Node × Node)) :
    d.value? (depth + 1) (.mapping none entries) =
      (do return .object (← d.members? (fun v => d.value? depth v) entries)) := rfl

theorem text?_textNode (t : Text) : d.text? (textNode t) = pure t := rfl

end Document

/-! ## Nodes with the shape of values -/

/-- A way to make nodes of values: a value without parts becomes a text that denotes it, and a
collection has the nodes of its parts. -/
structure NodeForm (node : Json → Node) (nameNode : Text → Node) : Prop where
  scalar {v : Json} (hv : v.Integral) (noArray : ∀ items, v ≠ .array items)
    (noObject : ∀ members, v ≠ .object members) :
    ∃ plain t, node v = .scalar none plain t ∧ scalar? none plain t = some v
  name (t : Text) : ∃ plain, nameNode t = .scalar none plain t
  array (items : List Json) : node (.array items) = .sequence none (items.map node)
  object (members : Members) :
    node (.object members) = .mapping none (members.map fun m => (nameNode m.1, node m.2))

namespace NodeForm
variable {node : Json → Node} {nameNode : Text → Node}

theorem mapM_items {items : List Json} {read : Node → Following Json}
    (h : ∀ v ∈ items, read (node v) = pure v.settled) :
    (items.map node).mapM read = pure (Json.settledItems items) := by
  induction items with
  | nil => rfl
  | cons v items ih =>
    obtain ⟨hv, hfurther⟩ := List.forall_mem_cons.mp h
    rw [List.map_cons, List.mapM_cons, hv, pure_bind, ih hfurther, pure_bind]
    rfl

theorem foldlM_members (form : NodeForm node nameNode) (d : Document) {members : Members}
    {value? : Node → Following Json}
    (h : ∀ m ∈ members, value? (node m.2) = pure m.2.settled) (read : Members) :
    (members.map fun m => (nameNode m.1, node m.2)).foldlM (fun read (name, value) => do
      let name ← d.text? name
      return Members.set read name (← value? value)) read =
        pure (Members.setAll read (Json.settledMembers members)) := by
  induction members generalizing read with
  | nil => rfl
  | cons m members ih =>
    obtain ⟨name, v⟩ := m
    obtain ⟨hv, hfurther⟩ := List.forall_mem_cons.mp h
    obtain ⟨plain, hname⟩ := form.name name
    have htext : d.text? (nameNode name) = pure name := by
      rw [hname]
      rfl
    rw [List.map_cons, List.foldlM_cons]
    simp only [htext, hv, pure_bind]
    exact ih hfurther (read.set name v.settled)

/-- The node of a value means the value, for a reader that allows its nesting. Of members with one
name the first gives the place, and the last the value. -/
theorem value? (form : NodeForm node nameNode) (d : Document) {v : Json} (hintegral : v.Integral)
    {depth : Nat} (hdepth : v.NestedWithin depth) :
    d.value? depth (node v) = pure v.settled := by
  induction v using Json.parts_induction generalizing depth with
  | null | bool b | number n | string t =>
    obtain ⟨plain, t, hnode, hscalar⟩ := form.scalar hintegral (by simp) (by simp)
    rw [hnode]
    exact d.value?_scalar hscalar depth
  | array items ih =>
    cases hintegral with | array hintegral =>
    cases hdepth with | @array depth _ hdepth =>
    have hitems := mapM_items fun v hv => ih v hv (hintegral v hv) (hdepth v hv)
    rw [form.array, Document.value?_sequence, hitems, pure_bind]
    rfl
  | object members ih =>
    cases hintegral with | object hintegral =>
    cases hdepth with | @object depth _ hdepth =>
    have hmembers := form.foldlM_members d
      (fun m hm => ih m hm (hintegral m hm) (hdepth m hm)) []
    rw [form.object, Document.value?_mapping, Document.members?, hmembers, pure_bind]
    rfl

end NodeForm

theorem itemNodes_eq_map (items : List Json) : itemNodes items = items.map blockNode := by
  induction items with
  | nil => rfl
  | cons v items ih => rw [itemNodes, ih, List.map_cons]

theorem memberNodes_eq_map (members : Members) :
    memberNodes members = members.map fun m => (textNode m.1, blockNode m.2) := by
  induction members with
  | nil => rfl
  | cons m members ih => rw [memberNodes, ih, List.map_cons]

theorem nodeForm_block : NodeForm blockNode textNode where
  scalar hv noArray noObject := by
    cases hv with
    | null => exact ⟨true, _, rfl, rfl⟩
    | bool b => cases b <;> exact ⟨true, _, rfl, rfl⟩
    | integer n exact => exact ⟨true, _, rfl, scalar?_integer exact⟩
    | string t => exact ⟨_, t, rfl, scalar?_text t⟩
    | @array items _ => exact absurd rfl (noArray items)
    | @object members _ => exact absurd rfl (noObject members)
  name t := ⟨_, rfl⟩
  array items := by rw [blockNode, itemNodes_eq_map]
  object members := by rw [blockNode, memberNodes_eq_map]

/-- The node of a value means the value, for a reader that allows its nesting. -/
theorem Document.value?_blockNode (d : Document) {v : Json} (hintegral : v.Integral)
    (hnames : v.WellNamed) {depth : Nat} (hdepth : v.NestedWithin depth) :
    d.value? depth (blockNode v) = pure v := by
  rw [nodeForm_block.value? d hintegral hdepth, Json.settled_of_wellNamed hnames]

/-- A mapping of integers that is nested within the limit is read back from its block form. -/
theorem parse?_print {members : Members} (hintegral : (Json.object members).Integral)
    (hnames : (Json.object members).WellNamed)
    (hdepth : (Json.object members).NestedWithin Document.nestingLimit) :
    parse? (print (.object members)) = some (.object members) := by
  rw [parse?, Document.ofText?_print hintegral, Option.bind_eq_bind, Option.bind_some,
    Document.toJson?]
  dsimp only
  rw [Document.run?, Document.value?_blockNode _ hintegral hnames hdepth]
  rfl

end Stencil.Yaml
