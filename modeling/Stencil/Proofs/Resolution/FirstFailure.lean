import Mathlib.Control.Monad.Basic
import Stencil.Proofs.Resolution.Outcome

/-!
# The first failure of a resolution

A template of a value is a string with both marks that is reached through objects alone. A spine
names one of them: at each object on the way down, the members before it, its name, and the members
after it. Main statement: a resolution fails exactly when a template fails to be rendered, with the
error of the first one in depth-first order, and what comes after that one has no part in it.
-/

namespace Stencil.Resolution

/-- An object with a gap in place of one value. -/
structure Branch where
  before : Members
  name : Text
  after : Members

/-- Objects with gaps, from the outermost on, each filled with the next. -/
abbrev Spine := List Branch

/-- The value with another in the last gap of a spine. -/
def fill : Spine → Json → Json
  | [], v => v
  | b :: spine, v => .object (b.before ++ (b.name, fill spine v) :: b.after)

mutual
/-- The templates of a value, in depth-first order. -/
def templates : Json → List Text
  | .string t => if hasMarkers t then [t] else []
  | .object members => templatesIn members
  | .null | .bool _ | .number _ | .array _ => []

def templatesIn : List (Text × Json) → List Text
  | [] => []
  | (_, value) :: members => templates value ++ templatesIn members
end

/-- The templates of all that comes before the last gap of a spine. -/
def earlier (spine : Spine) : List Text := spine.flatMap fun b => templatesIn b.before

theorem mem_templatesIn_iff {members : Members} {t : Text} :
    t ∈ templatesIn members ↔ ∃ m ∈ members, t ∈ templates m.2 := by
  induction members with
  | nil => simp [templatesIn]
  | cons m rest ih =>
    obtain ⟨name, value⟩ := m
    simp [templatesIn, ih]

theorem mem_templates_fill {t : Text} (ht : hasMarkers t = true) (spine : Spine) :
    t ∈ templates (fill spine (.string t)) := by
  induction spine with
  | nil => simp [fill, templates, ht]
  | cons b spine ih =>
    rw [fill, templates, mem_templatesIn_iff]
    exact ⟨_, List.mem_append_right _ List.mem_cons_self, ih⟩

/-- Spines that agree on everything but what comes after the gaps. -/
def SameBefore (spine spine' : Spine) : Prop :=
  spine.map (fun b => (b.before, b.name)) = spine'.map fun b => (b.before, b.name)

theorem SameBefore.earlier_eq {spine spine' : Spine} (h : SameBefore spine spine') :
    earlier spine = earlier spine' := by
  have hflat := congrArg (List.flatMap fun b : Members × Text => templatesIn b.1) h
  simpa only [List.flatMap_map, earlier] using hflat

section
variable (engine : Engine) (context : Context)

/-- The text is rendered without an error. -/
def Renders (t : Text) : Prop := ∃ new, engine.render t context = .ok new

variable {engine context}

/-- A value is resolved exactly when all its templates are rendered. -/
theorem resolve_ok_iff (v : Json) :
    (∃ w, resolve engine context v = .ok w) ↔ ∀ t ∈ templates v, Renders engine context t := by
  induction v using Json.member_induction with
  | object members ih =>
    simp only [resolve_object_ok_iff, templates, mem_templatesIn_iff]
    constructor
    · rintro ⟨w, out, hout, -⟩ t ⟨m, hm, ht⟩
      exact (ih m hm).mp (resolveMembers_ok_iff.mp ⟨out, hout⟩ m hm) t ht
    · intro h
      obtain ⟨out, hout⟩ := resolveMembers_ok_iff.mpr fun m hm =>
        (ih m hm).mpr fun t ht => h t ⟨m, hm, ht⟩
      exact ⟨.object out, out, hout, rfl⟩
  | other v hobject =>
    cases v with
    | object members => exact absurd rfl (hobject members)
    | string t =>
      by_cases ht : hasMarkers t = true
      · simp only [templates, ht, ↓reduceIte, List.mem_singleton, forall_eq, Renders,
          resolve_template ht]
        cases engine.render t context <;> simp [Except.map]
      · simp [templates, resolve, ht]
    | null | bool b | number n | array items => simp [templates, resolve]

theorem resolveMembers_ok_iff_templates (members : Members) :
    (∃ out, resolveMembers engine context members = .ok out) ↔
      ∀ t ∈ templatesIn members, Renders engine context t := by
  have h : (∃ w, resolve engine context (.object members) = .ok w) ↔
      ∀ t ∈ templates (.object members), Renders engine context t := resolve_ok_iff _
  rw [templates] at h
  rw [← h]
  constructor
  · rintro ⟨out, hout⟩
    exact ⟨.object out, resolve_object_ok_iff.mpr ⟨out, hout, rfl⟩⟩
  · rintro ⟨w, hw⟩
    obtain ⟨out, hout, -⟩ := resolve_object_ok_iff.mp hw
    exact ⟨out, hout⟩

/-- The error of a template stands when all templates before it are rendered, whatever comes
after it. -/
theorem resolve_fill {spine : Spine} {t : Text} {e : TemplateError} (ht : hasMarkers t = true)
    (hearlier : ∀ s ∈ earlier spine, Renders engine context s)
    (herror : engine.render t context = .error e) :
    resolve engine context (fill spine (.string t)) = .error e := by
  induction spine with
  | nil =>
    rw [fill, resolve_template ht, herror]
    rfl
  | cons b spine ih =>
    simp only [earlier, List.flatMap_cons, List.mem_append] at hearlier
    have hbefore := (resolveMembers_ok_iff_templates b.before).mpr fun s hs =>
      hearlier s (.inl hs)
    have hinner := ih fun s hs => hearlier s (.inr hs)
    rw [fill, resolve_object_error_iff, resolveMembers_error_iff]
    exact ⟨b.before, b.name, _, b.after, rfl, hbefore, hinner⟩

/-- A resolution fails exactly with the error of the first template that is not rendered. -/
theorem resolve_error_iff (v : Json) (e : TemplateError) :
    resolve engine context v = .error e ↔
      ∃ spine t, v = fill spine (.string t) ∧ hasMarkers t = true ∧
        (∀ s ∈ earlier spine, Renders engine context s) ∧
        engine.render t context = .error e := by
  constructor
  · intro h
    induction v using Json.member_induction with
    | object members ih =>
      obtain ⟨before, name, value, after, rfl, hbefore, hvalue⟩ :=
        resolveMembers_error_iff.mp (resolve_object_error_iff.mp h)
      obtain ⟨spine, t, rfl, ht, hearlier, herror⟩ := ih (name, value) (by simp) hvalue
      refine ⟨⟨before, name, after⟩ :: spine, t, rfl, ht, ?_, herror⟩
      intro s hs
      -- Earlier templates are those beside the failing member and those before it inside.
      rcases List.mem_append.mp hs with hs | hs
      · exact (resolveMembers_ok_iff_templates before).mp hbefore s hs
      · exact hearlier s hs
    | other v hobject =>
      by_cases hstring : ∃ t, v = .string t ∧ hasMarkers t = true
      · obtain ⟨t, rfl, ht⟩ := hstring
        refine ⟨[], t, rfl, ht, by simp [earlier], ?_⟩
        rw [resolve_template ht] at h
        cases hrender : engine.render t context <;> simp_all [Except.map]
      · have hunmarked : ∀ t, v = .string t → hasMarkers t = false := by
          intro t ht
          rw [← Bool.not_eq_true]
          exact fun hmarks => hstring ⟨t, ht, hmarks⟩
        exact absurd ((resolve_other hobject hunmarked).symm.trans h) (by simp)
  · rintro ⟨spine, t, rfl, ht, hearlier, herror⟩
    exact resolve_fill ht hearlier herror

end

/-- Fail-fast. An object is not resolved exactly when some template of it is not rendered. The
error is then that of the first such template in depth-first order: all before it are rendered.
An object that differs only in what comes after that template ends in the same error. -/
theorem resolveMembers_fails_first (engine : Engine) (context : Context) (source : Members) :
    ((∃ e, resolveMembers engine context source = .error e) ↔
      ∃ spine t, .object source = fill spine (.string t) ∧
        openMarker <:+: t ∧ closeMarker <:+: t ∧ ∃ e, engine.render t context = .error e) ∧
    (∀ e, resolveMembers engine context source = .error e ↔
      ∃ spine t, .object source = fill spine (.string t) ∧
        openMarker <:+: t ∧ closeMarker <:+: t ∧
        (∀ s ∈ earlier spine, ∃ new, engine.render s context = .ok new) ∧
        engine.render t context = .error e) ∧
    ∀ spine t e, .object source = fill spine (.string t) →
      openMarker <:+: t → closeMarker <:+: t →
      (∀ s ∈ earlier spine, ∃ new, engine.render s context = .ok new) →
      engine.render t context = .error e →
      resolveMembers engine context source = .error e ∧
      ∀ spine' other, SameBefore spine spine' → .object other = fill spine' (.string t) →
        resolveMembers engine context other = .error e := by
  refine ⟨?_, ?_, ?_⟩
  · simp only [← resolve_object_error_iff]
    constructor
    · rintro ⟨e, h⟩
      obtain ⟨spine, t, hsource, ht, -, herror⟩ := (resolve_error_iff _ e).mp h
      obtain ⟨hopen, hclose⟩ := (hasMarkers_iff t).mp ht
      exact ⟨spine, t, hsource, hopen, hclose, e, herror⟩
    · rintro ⟨spine, t, hsource, hopen, hclose, e, herror⟩
      have ht := (hasMarkers_iff t).mpr ⟨hopen, hclose⟩
      have hmem : t ∈ templates (.object source) := hsource ▸ mem_templates_fill ht spine
      cases hresult : resolve engine context (.object source) with
      | error e' => exact ⟨e', rfl⟩
      | ok w =>
        obtain ⟨new, hnew⟩ := (resolve_ok_iff _).mp ⟨w, hresult⟩ t hmem
        exact absurd (hnew.symm.trans herror) (by simp)
  · intro e
    rw [← resolve_object_error_iff, resolve_error_iff]
    simp only [hasMarkers_iff, and_assoc, Renders]
  · intro spine t e hsource hopen hclose hearlier herror
    have ht := (hasMarkers_iff t).mpr ⟨hopen, hclose⟩
    constructor
    · rw [← resolve_object_error_iff, hsource]
      exact resolve_fill ht hearlier herror
    · intro spine' other hsame hother
      rw [← resolve_object_error_iff, hother]
      exact resolve_fill ht (hsame.earlier_eq ▸ hearlier) herror

/-- Two failing templates, of which the nested one comes first. -/
theorem resolveMembers_fails_first_nested :
    resolveMembers .basic .empty
      [("a".toList, .object [("b".toList, .string "\x7b\x7bf 1\x7d\x7d".toList)]),
        ("c".toList, .string "\x7b\x7bg 1\x7d\x7d".toList)] =
      .error (.renderError ⟨.undefinedHelper "f".toList, some ⟨1, 1⟩⟩) :=
  ((resolveMembers_fails_first _ _ _).2.2 [⟨[], "a".toList, [("c".toList, _)]⟩, ⟨[], "b".toList, []⟩]
    "\x7b\x7bf 1\x7d\x7d".toList _ rfl ⟨[], "f 1\x7d\x7d".toList, rfl⟩ ⟨"\x7b\x7bf 1".toList, [], rfl⟩
    (by simp [earlier, templatesIn]) (by decide +kernel)).1

end Stencil.Resolution
