import Stencil.Resolution
import Stencil.Proofs.Text.Occurrence

/-!
# Outcomes of a resolution

What the resolution of a value comes to, given what that of its members comes to. A list of members
is resolved exactly when each value in it is, and otherwise ends in the error of the first value
that is not.
-/

namespace Stencil

/-- Induction on values through the members of objects. Arrays are not entered. -/
@[elab_as_elim]
theorem Json.member_induction {motive : Json → Prop}
    (object : ∀ members : Members, (∀ m ∈ members, motive m.2) → motive (.object members))
    (other : ∀ v, (∀ members, v ≠ .object members) → motive v) (v : Json) : motive v := by
  match v with
  | .object members =>
    refine object members fun m hm => ?_
    have hsize : sizeOf m < sizeOf members := List.sizeOf_lt_of_mem hm
    exact Json.member_induction object other m.2
  | .null => exact other _ (by simp)
  | .bool b => exact other _ (by simp)
  | .number n => exact other _ (by simp)
  | .string s => exact other _ (by simp)
  | .array items => exact other _ (by simp)
termination_by sizeOf v
decreasing_by
  obtain ⟨name, value⟩ := m
  simp only [Json.object.sizeOf_spec, Prod.mk.sizeOf_spec] at hsize ⊢
  omega

namespace Resolution
variable {engine : Engine} {context : Context}

theorem resolve_object_ok_iff {members : Members} {w : Json} :
    resolve engine context (.object members) = .ok w ↔
      ∃ out, resolveMembers engine context members = .ok out ∧ w = .object out := by
  rw [resolve]
  cases resolveMembers engine context members <;> simp [Except.map, eq_comm]

theorem resolve_object_error_iff {members : Members} {e : TemplateError} :
    resolve engine context (.object members) = .error e ↔
      resolveMembers engine context members = .error e := by
  rw [resolve]
  cases resolveMembers engine context members <;> simp [Except.map]

theorem resolve_template {t : Text} (h : hasMarkers t = true) :
    resolve engine context (.string t) = (engine.render t context).map .string := by
  rw [resolve, if_pos h]

theorem resolve_template_ok {t : Text} {w : Json} (ht : hasMarkers t = true)
    (h : resolve engine context (.string t) = .ok w) :
    ∃ new, engine.render t context = .ok new ∧ w = .string new := by
  rw [resolve_template ht] at h
  cases hrender : engine.render t context with
  | error e => simp [hrender, Except.map] at h
  | ok new =>
    simp only [hrender, Except.map, Except.ok.injEq] at h
    exact ⟨new, rfl, h.symm⟩

theorem resolve_other {v : Json} (hobject : ∀ members, v ≠ .object members)
    (hstring : ∀ t, v = .string t → hasMarkers t = false) :
    resolve engine context v = .ok v := by
  cases v with
  | object members => exact absurd rfl (hobject members)
  | string t => simp [resolve, hstring t rfl]
  | null => rfl
  | bool b => rfl
  | number n => rfl
  | array items => rfl

theorem resolveMembers_cons_ok_iff {name : Text} {value : Json} {rest out : Members} :
    resolveMembers engine context ((name, value) :: rest) = .ok out ↔
      ∃ w further, resolve engine context value = .ok w ∧
        resolveMembers engine context rest = .ok further ∧ out = (name, w) :: further := by
  rw [resolveMembers]
  cases resolve engine context value with
  | error e => simp [bind, Except.bind]
  | ok w =>
    cases resolveMembers engine context rest <;>
      simp [bind, Except.bind, pure, Except.pure, eq_comm]

theorem resolveMembers_append {before out : Members}
    (h : resolveMembers engine context before = .ok out) (after : Members) :
    resolveMembers engine context (before ++ after) =
      (resolveMembers engine context after).map (out ++ ·) := by
  induction before generalizing out with
  | nil =>
    simp only [resolveMembers, Except.ok.injEq] at h
    subst h
    rw [List.nil_append]
    cases resolveMembers engine context after <;> rfl
  | cons m before ih =>
    obtain ⟨w, further, hvalue, hbefore, rfl⟩ := resolveMembers_cons_ok_iff.mp h
    rw [List.cons_append, resolveMembers, hvalue, ih hbefore]
    cases resolveMembers engine context after <;> rfl

theorem resolveMembers_ok_iff {members : Members} :
    (∃ out, resolveMembers engine context members = .ok out) ↔
      ∀ m ∈ members, ∃ w, resolve engine context m.2 = .ok w := by
  induction members with
  | nil => simp [resolveMembers]
  | cons m rest ih =>
    rw [List.forall_mem_cons, ← ih]
    constructor
    · rintro ⟨out, h⟩
      obtain ⟨w, further, hvalue, hrest, -⟩ := resolveMembers_cons_ok_iff.mp h
      exact ⟨⟨w, hvalue⟩, further, hrest⟩
    · rintro ⟨⟨w, hvalue⟩, further, hrest⟩
      exact ⟨(m.1, w) :: further, resolveMembers_cons_ok_iff.mpr ⟨w, further, hvalue, hrest, rfl⟩⟩

/-- The error of a list of members is that of its first value that is not resolved. -/
theorem resolveMembers_error_iff {members : Members} {e : TemplateError} :
    resolveMembers engine context members = .error e ↔
      ∃ before name value after, members = before ++ (name, value) :: after ∧
        (∃ out, resolveMembers engine context before = .ok out) ∧
        resolve engine context value = .error e := by
  constructor
  · intro h
    induction members with
    | nil => simp [resolveMembers] at h
    | cons m rest ih =>
      obtain ⟨name, value⟩ := m
      cases hvalue : resolve engine context value with
      | error e' =>
        simp only [resolveMembers, hvalue, bind, Except.bind, Except.error.injEq] at h
        exact ⟨[], name, value, rest, rfl, ⟨[], rfl⟩, h ▸ hvalue⟩
      | ok w =>
        have hrest : resolveMembers engine context rest = .error e := by
          cases hr : resolveMembers engine context rest <;>
            simp_all [resolveMembers, bind, Except.bind, pure, Except.pure]
        obtain ⟨before, name', value', after, rfl, ⟨out, hbefore⟩, herror⟩ := ih hrest
        exact ⟨(name, value) :: before, name', value', after, rfl,
          ⟨_, resolveMembers_cons_ok_iff.mpr ⟨w, out, hvalue, hbefore, rfl⟩⟩, herror⟩
  · rintro ⟨before, name, value, after, rfl, ⟨out, hbefore⟩, herror⟩
    rw [resolveMembers_append hbefore, resolveMembers, herror]
    rfl

end Resolution
end Stencil
