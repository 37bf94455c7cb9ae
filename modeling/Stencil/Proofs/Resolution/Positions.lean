import Mathlib.Control.Monad.Basic
import Stencil.Proofs.Json.Members
import Stencil.Proofs.Resolution.Outcome

/-!
# A resolved object, position by position

A chain of names leads from an object through nested objects to a value, and never into an array.
Main statement: a resolved object has the same names in the same order at each chain, and the value
at a chain depends on nothing but the value that was there.
-/

namespace Stencil.Resolution

/-- The value that a chain of names leads to through objects. -/
def memberAt? : (chain : List Text) → Json → Option Json
  | [], v => some v
  | name :: chain, .object members => (Members.get? members name).bind (memberAt? chain)
  | _ :: _, _ => none

def names? : Json → Option (List Text)
  | .object members => some (Members.names members)
  | _ => none

variable {engine : Engine} {context : Context}

theorem names_resolveMembers {members out : Members}
    (h : resolveMembers engine context members = .ok out) : out.names = members.names := by
  induction members generalizing out with
  | nil =>
    simp only [resolveMembers, Except.ok.injEq] at h
    rw [← h]
  | cons m rest ih =>
    obtain ⟨w, further, -, hrest, rfl⟩ := resolveMembers_cons_ok_iff.mp h
    have hnames := ih hrest
    simp only [Members.names, List.map_cons] at hnames ⊢
    rw [hnames]

theorem get?_resolveMembers {members out : Members}
    (h : resolveMembers engine context members = .ok out) (name : Text) :
    Option.Rel (fun v w => resolve engine context v = .ok w)
      (members.get? name) (out.get? name) := by
  induction members generalizing out with
  | nil =>
    simp only [resolveMembers, Except.ok.injEq] at h
    subst h
    exact .none
  | cons m rest ih =>
    obtain ⟨own, value⟩ := m
    obtain ⟨w, further, hvalue, hrest, rfl⟩ := resolveMembers_cons_ok_iff.mp h
    by_cases hname : name = own
    · simpa [Members.get?, hname] using Option.Rel.some hvalue
    · have hne : (name == own) = false := by simpa using hname
      simpa [Members.get?, List.lookup_cons, hne] using ih hrest

theorem names?_resolve {v w : Json} (h : resolve engine context v = .ok w) :
    names? w = names? v := by
  cases v with
  | object members =>
    obtain ⟨out, hout, rfl⟩ := resolve_object_ok_iff.mp h
    rw [names?, names?, names_resolveMembers hout]
  | string t =>
    by_cases ht : hasMarkers t = true
    · obtain ⟨new, -, rfl⟩ := resolve_template_ok ht h
      rfl
    · simp only [resolve, ht, Bool.false_eq_true, ↓reduceIte, Except.ok.injEq] at h
      rw [← h]
  | null | bool b | number n | array items =>
    simp only [resolve, Except.ok.injEq] at h
    rw [← h]

theorem memberAt?_of_names?_eq_none {v : Json} (h : names? v = none) (name : Text)
    (chain : List Text) : memberAt? (name :: chain) v = none := by
  cases v with
  | object members => simp [names?] at h
  | null | bool b | number n | string s | array items => rfl

/-- What stands at a chain afterwards is what became of the value that stood there. -/
theorem memberAt?_resolve {v w : Json} (h : resolve engine context v = .ok w)
    (chain : List Text) :
    Option.Rel (fun v w => resolve engine context v = .ok w)
      (memberAt? chain v) (memberAt? chain w) := by
  induction chain generalizing v w with
  | nil => exact .some h
  | cons name chain ih =>
    cases hv : names? v with
    | none =>
      have hw : names? w = none := (names?_resolve h).trans hv
      rw [memberAt?_of_names?_eq_none hv, memberAt?_of_names?_eq_none hw]
      exact .none
    | some names =>
      obtain ⟨members, rfl⟩ : ∃ members, v = .object members := by
        cases v <;> simp_all [names?]
      obtain ⟨out, hout, rfl⟩ := resolve_object_ok_iff.mp h
      have hrel := get?_resolveMembers hout name
      rw [memberAt?, memberAt?]
      -- The relation is split only once neither side mentions the members.
      generalize Members.get? members name = before, Members.get? out name = after at hrel ⊢
      cases hrel with
      | none => exact .none
      | some hvalue => exact ih hvalue

/-- Position by position. A resolved object has the same chains of names, each leading to an object
with the same names in the same order or to no object. A string with both marks at a chain has
become its rendered text, and any other value that is no object is still there. -/
theorem resolveMembers_by_position {source out : Members}
    (h : resolveMembers engine context source = .ok out) (chain : List Text) :
    (memberAt? chain (.object out)).map names? =
      (memberAt? chain (.object source)).map names? ∧
    ∀ v, memberAt? chain (.object source) = some v → (∀ members, v ≠ .object members) →
      (∀ t, v = .string t → openMarker <:+: t → closeMarker <:+: t →
        ∃ new, engine.render t context = .ok new ∧
          memberAt? chain (.object out) = some (.string new)) ∧
      ((∀ t, v = .string t → ¬(openMarker <:+: t ∧ closeMarker <:+: t)) →
        memberAt? chain (.object out) = some v) := by
  have hrel := memberAt?_resolve (resolve_object_ok_iff.mpr ⟨out, h, rfl⟩) chain
  generalize memberAt? chain (.object source) = before,
    memberAt? chain (.object out) = after at hrel ⊢
  cases hrel with
  | none => exact ⟨rfl, by simp⟩
  | @some v w hvalue =>
    refine ⟨by rw [Option.map_some, Option.map_some, names?_resolve hvalue], ?_⟩
    intro v' hv hobject
    obtain rfl := Option.some.inj hv
    constructor
    · rintro t rfl hopen hclose
      obtain ⟨new, hrender, rfl⟩ :=
        resolve_template_ok ((hasMarkers_iff t).mpr ⟨hopen, hclose⟩) hvalue
      exact ⟨new, hrender, rfl⟩
    · intro hmarks
      have hplain : ∀ t, v = .string t → hasMarkers t = false := by
        intro t ht
        rw [← Bool.not_eq_true, hasMarkers_iff]
        exact hmarks t ht
      rw [resolve_other hobject hplain] at hvalue
      rw [Except.ok.inj hvalue]

/-- A string is rendered, and one inside an array is not. -/
theorem resolveMembers_by_position_array :
    let source : Members :=
      [("z".toList, .string "\x7b\x7ba\x7d\x7d".toList),
        ("m".toList, .object [("q".toList, .array [.string "\x7b\x7ba\x7d\x7d".toList])])]
    let out : Members :=
      [("z".toList, .string "x".toList),
        ("m".toList, .object [("q".toList, .array [.string "\x7b\x7ba\x7d\x7d".toList])])]
    resolveMembers .basic ⟨[("a".toList, .string "x".toList)]⟩ source = .ok out ∧
      memberAt? ["m".toList, "q".toList] (.object out) =
        some (.array [.string "\x7b\x7ba\x7d\x7d".toList]) := by
  intro source out
  have h : resolveMembers .basic ⟨[("a".toList, .string "x".toList)]⟩ source = .ok out := by
    decide +kernel
  have hposition := resolveMembers_by_position h ["m".toList, "q".toList]
  exact ⟨h, (hposition.2 (.array [.string "\x7b\x7ba\x7d\x7d".toList]) rfl (by simp)).2 (by simp)⟩

end Stencil.Resolution
