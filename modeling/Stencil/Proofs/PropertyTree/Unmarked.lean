import Stencil.Proofs.Engine.PlainSource
import Stencil.Proofs.PropertyTree.Containment

/-!
# Texts without an opening mark

Resolution leaves a text without an opening mark alone. Main statement: rendering it would give it
back, whatever backslashes, closing marks and blanks it holds, so that an object comes out as if
all of its texts had been rendered. Rendering would also store the text, which can be seen only
behind a getter that gives something else than its slot holds.
-/

namespace Stencil.PropertyTree

section
variable (engine : Engine) (context : Context)

/-- What becomes of the text of a leaf when it is rendered, marked or not. -/
def Leaf.rendering (leaf : Leaf) : Option (Except PropertyError Text) :=
  match leaf.access.read leaf.held with
  | .error e => some (.error e)
  | .ok none => none
  | .ok (some t) => some do
    let new ← (engine.render t context).mapError .template
    leaf.access.accept leaf.held new
    return new

mutual
/-- The property with all of its texts rendered, marked or not. -/
def renderProperty : Property → Property
  | .text name value =>
    .text name (textAfter value ((⟨some value, .plain⟩ : Leaf).rendering engine context))
  | .nested name properties => .nested name (renderAll properties)
  | .unset name => .unset name
  | .accessor name held access =>
    .accessor name (storedAfter held ((⟨held, access⟩ : Leaf).rendering engine context)) access

/-- The properties with all of their texts rendered, marked or not. -/
def renderAll : List Property → List Property
  | [] => []
  | property :: properties => renderProperty property :: renderAll properties
end

end

namespace Leaf
variable {engine : Engine} {context : Context}

/-- A text that the getter gives is the one in the slot. -/
def ReadsHeld (leaf : Leaf) : Prop :=
  ∀ t, leaf.access.read leaf.held = .ok (some t) → leaf.held = some t

/-- A text that the getter gives, unmarked, and that the setter takes back is the one in the slot. -/
def KeepsReading (leaf : Leaf) : Prop :=
  ∀ t, leaf.access.read leaf.held = .ok (some t) → ¬openMarker <:+: t →
    leaf.access.accept leaf.held t = .ok () → leaf.held = some t

theorem ReadsHeld.keepsReading {leaf : Leaf} (h : leaf.ReadsHeld) : leaf.KeepsReading := by
  intro t hread _ _
  exact h t hread

theorem readsHeld_plain (value : Text) : ReadsHeld ⟨some value, .plain⟩ := by
  intro t hread
  exact Except.ok.inj hread

theorem rendering_of_marked {leaf : Leaf} {t : Text}
    (hread : leaf.access.read leaf.held = .ok (some t)) (hmark : openMarker <:+: t) :
    leaf.rendering engine context = leaf.outcome engine context := by
  have hon : isMarked t = true := (isMarked_iff t).mpr hmark
  simp only [rendering, outcome, renderAccessor?, renderText?, hread, hon, if_true, Option.map_some]
  cases engine.render t context with
  | error e => rfl
  | ok new => cases leaf.access.accept leaf.held new <;> rfl

/-- Rendering an unmarked text comes down to giving it back to the setter. -/
theorem rendering_of_unmarked {leaf : Leaf} {t : Text}
    (hread : leaf.access.read leaf.held = .ok (some t)) (hmark : ¬openMarker <:+: t) :
    leaf.rendering engine context = some ((leaf.access.accept leaf.held t).map fun _ => t) := by
  have hrender := Engine.render_of_no_opening engine context hmark
  cases haccept : leaf.access.accept leaf.held t with
  | error e =>
    simp [rendering, hread, hrender, haccept, bind, Except.bind, Except.mapError, Except.map]
  | ok u =>
    simp [rendering, hread, hrender, haccept, bind, pure, Except.bind, Except.pure,
      Except.mapError, Except.map]

theorem storedAfter_rendering_iff (engine : Engine) (context : Context) (leaf : Leaf) :
    storedAfter leaf.held (leaf.rendering engine context) =
      storedAfter leaf.held (leaf.outcome engine context) ↔ leaf.KeepsReading := by
  cases hread : leaf.access.read leaf.held with
  | error e => simp [KeepsReading, rendering, outcome, renderAccessor?, hread]
  | ok current =>
    cases current with
    | none => simp [KeepsReading, rendering, outcome, renderAccessor?, hread]
    | some t =>
      by_cases hmark : openMarker <:+: t
      · simp [KeepsReading, rendering_of_marked hread hmark, hread, hmark]
      · rw [rendering_of_unmarked hread hmark, outcome_of_unmarked hread hmark]
        cases haccept : leaf.access.accept leaf.held t with
        | error e => simp [KeepsReading, storedAfter, Except.map, hread, haccept]
        | ok u => simp [KeepsReading, storedAfter, Except.map, hread, haccept, hmark, eq_comm]

end Leaf

section
variable {engine : Engine} {context : Context}

theorem textAfter_rendering_plain (value : Text) :
    textAfter value ((⟨some value, .plain⟩ : Leaf).rendering engine context) =
      textAfter value (renderText? engine context value) := by
  have hstored := (Leaf.storedAfter_rendering_iff engine context ⟨some value, .plain⟩).mpr
    (Leaf.readsHeld_plain value).keepsReading
  rw [outcome_plain, storedAfter_some, storedAfter_some] at hstored
  exact Option.some.inj hstored

theorem renderAll_eq_iff (path : Text) (ps : List Property) :
    renderAll engine context ps = (resolveAll engine context path ps).1 ↔
      ∀ a ∈ sites ps, a.2.leaf.KeepsReading := by
  induction ps using forest_induction generalizing path with
  | nil => simp [renderAll, resolveAll, sites]
  | nested name inner rest ihInner ihRest =>
    have hinner := ihInner (join path name)
    have hrest := ihRest path
    simp only [renderAll, renderProperty, resolveAll, resolveProperty, List.cons.injEq,
      Property.nested.injEq, true_and, hinner, hrest, sites, sitesOf, List.forall_mem_append,
      List.forall_mem_map, Site.below]
  | flat p rest hp ihRest =>
    have hrest := ihRest path
    cases p, hp using flat_cases with
    | unset name =>
      simp only [renderAll, renderProperty, resolveAll, resolveProperty, List.cons.injEq, true_and,
        hrest, sites, sitesOf, List.map_nil, List.nil_append, List.forall_mem_map]
    | text name value =>
      have hkeeps := (Leaf.readsHeld_plain value).keepsReading
      simp only [renderAll, renderProperty, resolveAll, resolveProperty, List.cons.injEq,
        textAfter_rendering_plain, true_and, hrest, sites, sitesOf, List.forall_mem_append,
        List.forall_mem_map, List.forall_mem_singleton, hkeeps]
    | accessor name held access =>
      have hslot := Leaf.storedAfter_rendering_iff engine context ⟨held, access⟩
      simp only [Leaf.outcome] at hslot
      simp only [renderAll, renderProperty, resolveAll, resolveProperty, List.cons.injEq,
        Property.accessor.injEq, true_and, and_true, hslot, hrest, sites, sitesOf,
        List.forall_mem_append, List.forall_mem_map, List.forall_mem_singleton]

end

/-- A text without an opening mark is rendered to itself. Rendering every text of an object, marked
or not, therefore gives the object that resolution gives, when getters give what their slots hold;
and without that it does so exactly when no slot changes by having its unmarked text stored again. -/
theorem unmarked_texts_render_to_themselves (engine : Engine) (context : Context) :
    (∀ t, ¬openMarker <:+: t → engine.render t context = .ok t) ∧
    (∀ ps, (∀ a ∈ sites ps, a.2.leaf.ReadsHeld) →
      renderAll engine context ps = (resolve engine context ps).1) ∧
    ∀ ps, renderAll engine context ps = (resolve engine context ps).1 ↔
      ∀ a ∈ sites ps, a.2.leaf.KeepsReading := by
  refine ⟨fun t hmark => Engine.render_of_no_opening engine context hmark, ?_, ?_⟩
  · intro ps hreads
    exact (renderAll_eq_iff [] ps).mpr fun a ha => (hreads a ha).keepsReading
  · exact renderAll_eq_iff []

/-- Blanks, a backslash and closing marks beside a text that is rendered and a setter that refuses
what it is given. -/
theorem unmarked_texts_render_to_themselves_refused :
    let ps : List Property :=
      [.text "a".toList " \\\n\x7d\x7d \\".toList,
        .nested "n".toList [.text "b".toList "\x7b\x7bx\x7d\x7d".toList],
        .accessor "c".toList (some "\x7d\x7d".toList) ⟨.ok, fun _ _ => .error (.write [])⟩]
    let context : Context := ⟨[("x".toList, .string "X".toList)]⟩
    (∀ a ∈ sites ps, a.2.leaf.ReadsHeld) ∧
      Engine.basic.render " \\\n\x7d\x7d \\".toList context = .ok " \\\n\x7d\x7d \\".toList ∧
      renderAll .basic context ps = (resolve .basic context ps).1 := by
  intro ps context
  have hreads : ∀ a ∈ sites ps, a.2.leaf.ReadsHeld := by
    intro a ha
    simp only [ps, sites, sitesOf, List.map_cons, List.map_nil, List.cons_append, List.nil_append,
      List.append_nil, List.mem_cons, List.not_mem_nil, or_false] at ha
    rcases ha with rfl | rfl | rfl
    · exact Leaf.readsHeld_plain _
    · exact Leaf.readsHeld_plain _
    · exact fun t hread => Except.ok.inj hread
  have hmark : ¬openMarker <:+: " \\\n\x7d\x7d \\".toList := by
    rw [← Text.occurs_iff]
    decide
  have htheorem := unmarked_texts_render_to_themselves .basic context
  exact ⟨hreads, htheorem.1 _ hmark, htheorem.2.1 ps hreads⟩

end Stencil.PropertyTree
