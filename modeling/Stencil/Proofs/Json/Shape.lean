import Stencil.Json.Basic

/-!
# Shapes of values

What can be said of a value and all its parts: that its numbers are integers, that its objects
have each name once, and that its collections are nested no deeper than a limit.
-/

namespace Stencil

/-- What holds of all values and of a new one holds after it is set. -/
theorem Members.forall_set {P : Json → Prop} {members : Members} {value : Json}
    (h : ∀ m ∈ members, P m.2) (hvalue : P value) (name : Text) :
    ∀ m ∈ Members.set members name value, P m.2 := by
  induction members with
  | nil => simpa [set] using hvalue
  | cons m rest ih =>
    obtain ⟨hm, hrest⟩ := List.forall_mem_cons.mp h
    rw [set]
    split
    · exact List.forall_mem_cons.mpr ⟨hvalue, hrest⟩
    · exact List.forall_mem_cons.mpr ⟨hm, ih hrest⟩

namespace Json

/-- Induction on values through the items of arrays and the members of objects. -/
@[elab_as_elim]
theorem parts_induction {motive : Json → Prop} (null : motive .null)
    (bool : ∀ b, motive (.bool b)) (number : ∀ n, motive (.number n))
    (string : ∀ s, motive (.string s))
    (array : ∀ items, (∀ v ∈ items, motive v) → motive (.array items))
    (object : ∀ members : Members, (∀ m ∈ members, motive m.2) → motive (.object members))
    (v : Json) : motive v := by
  match v with
  | .null => exact null
  | .bool b => exact bool b
  | .number n => exact number n
  | .string s => exact string s
  | .array items =>
    refine array items fun v hv => ?_
    have hsize : sizeOf v < sizeOf items := List.sizeOf_lt_of_mem hv
    exact parts_induction null bool number string array object v
  | .object members =>
    refine object members fun m hm => ?_
    have hsize : sizeOf m < sizeOf members := List.sizeOf_lt_of_mem hm
    exact parts_induction null bool number string array object m.2
termination_by sizeOf v
decreasing_by
  · simp only [Json.array.sizeOf_spec]
    omega
  · obtain ⟨name, value⟩ := m
    simp only [Json.object.sizeOf_spec, Prod.mk.sizeOf_spec] at hsize ⊢
    omega

/-- Every number in the value is an integer. -/
inductive Integral : Json → Prop
  | null : Integral .null
  | bool (b : Bool) : Integral (.bool b)
  | integer (n : Int) (exact : Number.Exact n) : Integral (.number (.integer n exact))
  | string (s : Text) : Integral (.string s)
  | array {items : List Json} (h : ∀ v ∈ items, Integral v) : Integral (.array items)
  | object {members : Members} (h : ∀ m ∈ members, Integral m.2) : Integral (.object members)

/-- Every object in the value has each name once. -/
inductive WellNamed : Json → Prop
  | null : WellNamed .null
  | bool (b : Bool) : WellNamed (.bool b)
  | number (n : Number) : WellNamed (.number n)
  | string (s : Text) : WellNamed (.string s)
  | array {items : List Json} (h : ∀ v ∈ items, WellNamed v) : WellNamed (.array items)
  | object {members : Members} (distinct : (Members.names members).Nodup)
      (h : ∀ m ∈ members, WellNamed m.2) : WellNamed (.object members)

/-- At most the given number of collections stand in one another. -/
inductive NestedWithin : Nat → Json → Prop
  | null (depth : Nat) : NestedWithin depth .null
  | bool (depth : Nat) (b : Bool) : NestedWithin depth (.bool b)
  | number (depth : Nat) (n : Number) : NestedWithin depth (.number n)
  | string (depth : Nat) (s : Text) : NestedWithin depth (.string s)
  | array {depth : Nat} {items : List Json} (h : ∀ v ∈ items, NestedWithin depth v) :
      NestedWithin (depth + 1) (.array items)
  | object {depth : Nat} {members : Members} (h : ∀ m ∈ members, NestedWithin depth m.2) :
      NestedWithin (depth + 1) (.object members)

end Json
end Stencil
