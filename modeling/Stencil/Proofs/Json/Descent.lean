import Stencil.Json.DottedPath
import Stencil.Proofs.Text.Fields
import Stencil.Proofs.Text.Numeral

/-!
# Descent along dotted paths

A dotted path is compared with what one reaches by taking its steps one after the other, without
any splitting of text. Main statement: the value at a path is the one that its steps lead down to,
so that every value inside another can be named by the path to it, and a path in two parts is one
path followed by the other. Only the empty step by itself cannot be written, since the empty path
is the value that it starts from.
-/

namespace Stencil.Json
variable {v u w : Json} {step : Text} {steps : List Text} {i : Nat}

/-- The texts for a position, which must fit a 64-bit word: its numeral, with any number of zeros
and at most a plus sign in front. -/
inductive NamesPosition : Text → Nat → Prop
  | bare {i : Nat} (zeros : Nat) (hfits : i < 18446744073709551616) :
    NamesPosition (Text.fill zeros '0' ++ Numeral.ofNat i) i
  | plus {i : Nat} (zeros : Nat) (hfits : i < 18446744073709551616) :
    NamesPosition ('+' :: (Text.fill zeros '0' ++ Numeral.ofNat i)) i

/-- One step down: to the member of an object with that name, or to the item of an array at that
position. Nothing lies below any other value. -/
inductive Step : Json → Text → Json → Prop
  | member {members : Members} {name : Text} {inner : Json}
    (h : Members.get? members name = some inner) : Step (.object members) name inner
  | item {items : List Json} {step : Text} {i : Nat} {inner : Json} (hstep : NamesPosition step i)
    (h : items[i]? = some inner) : Step (.array items) step inner

/-- What several steps lead down to, one after the other. -/
inductive Descends : Json → List Text → Json → Prop
  | done (v : Json) : Descends v [] v
  | step {v u w : Json} {step : Text} {steps : List Text} (first : Step v step u)
    (rest : Descends u steps w) : Descends v (step :: steps) w

/-- A value inside another, with the steps to it: names of members without a dot, and the numerals
of positions. -/
inductive Inside : Json → List Text → Json → Prop
  | whole (v : Json) : Inside v [] v
  | member {members : Members} {name : Text} {inner w : Json} {steps : List Text}
    (h : Members.get? members name = some inner) (hname : '.' ∉ name)
    (rest : Inside inner steps w) : Inside (.object members) (name :: steps) w
  | item {items : List Json} {i : Nat} {inner w : Json} {steps : List Text}
    (h : items[i]? = some inner) (hfits : i < 18446744073709551616)
    (rest : Inside inner steps w) : Inside (.array items) (Numeral.ofNat i :: steps) w

/-! ## One step -/

theorem toIndex?_eq_some_iff : Numeral.toIndex? step = some i ↔ NamesPosition step i := by
  rw [Numeral.toIndex?, Option.filter_eq_some_iff, decide_eq_true_eq]
  constructor
  · rintro ⟨h, hfits⟩
    unfold Numeral.toUnsigned? at h
    split at h
    all_goals
      obtain ⟨hdigits, rfl⟩ := Numeral.toNat?_eq_some_iff.mp h
      obtain ⟨zeros, heq⟩ := Numeral.exists_eq_fill_append hdigits
    · next t =>
      rw [heq, Numeral.value_fill_append]
      exact .plus zeros hfits
    · next t _ =>
      rw [heq, Numeral.value_fill_append]
      exact .bare zeros hfits
  · intro h
    cases h with
    | bare zeros hfits =>
      rw [Numeral.toUnsigned?_of_isDigits (Numeral.isDigits_fill_append zeros i)]
      exact ⟨Numeral.toNat?_fill_append zeros i, hfits⟩
    | plus zeros hfits => exact ⟨Numeral.toNat?_fill_append zeros i, hfits⟩

theorem child?_eq_some_iff : child? v step = some u ↔ Step v step u := by
  constructor
  · intro h
    cases v with
    | object members => exact .member h
    | array items =>
      obtain ⟨i, hi, hitem⟩ := Option.bind_eq_some_iff.mp h
      exact .item (toIndex?_eq_some_iff.mp hi) hitem
    | null | bool b | number n | string s => cases h
  · intro h
    cases h with
    | member h => exact h
    | item hstep h => exact Option.bind_eq_some_iff.mpr ⟨_, toIndex?_eq_some_iff.mpr hstep, h⟩

/-! ## Several steps -/

theorem descend?_eq_some_iff : descend? v steps = some w ↔ Descends v steps w := by
  induction steps generalizing v with
  | nil =>
    constructor
    · intro h
      obtain rfl := Option.some.inj h
      exact .done v
    · intro h
      cases h
      rfl
  | cons step steps ih =>
    rw [descend?, Option.bind_eq_some_iff]
    constructor
    · rintro ⟨u, hfirst, hrest⟩
      exact .step (child?_eq_some_iff.mp hfirst) (ih.mp hrest)
    · intro h
      cases h with
      | step first rest => exact ⟨_, child?_eq_some_iff.mpr first, ih.mpr rest⟩

theorem Inside.descends (h : Inside v steps w) : Descends v steps w := by
  induction h with
  | whole v => exact .done v
  | member h _ _ ih => exact .step (.member h) ih
  | item h hfits _ ih => exact .step (.item (.bare 0 hfits) h) ih

/-- The steps to a value inside another can stand between dots. -/
theorem Inside.not_mem_dot (h : Inside v steps w) : ∀ step ∈ steps, '.' ∉ step := by
  induction h with
  | whole v => exact List.forall_mem_nil _
  | member _ hname _ ih => exact List.forall_mem_cons.mpr ⟨hname, ih⟩
  | @item _ i _ _ _ _ _ _ ih =>
    have hdigits := Numeral.not_mem_of_isDigits (Numeral.isDigits_ofNat i) (c := '.') rfl
    exact List.forall_mem_cons.mpr ⟨hdigits, ih⟩

/-! ## Paths -/

theorem atPath?_of_ne_nil {path : Text} (h : path ≠ []) (v : Json) :
    v.atPath? path = descend? v (Text.fields '.' path) := by
  rw [atPath?, if_neg (by rwa [List.isEmpty_iff])]

theorem atPath?_join (hne : steps ≠ []) (hdot : ∀ step ∈ steps, '.' ∉ step)
    (hpath : Text.join ['.'] steps ≠ []) (v : Json) :
    v.atPath? (Text.join ['.'] steps) = descend? v steps := by
  rw [atPath?_of_ne_nil hpath, Text.fields_join hne hdot]

theorem join_ne_nil (hne : steps ≠ []) (h : steps ≠ [[]]) : Text.join ['.'] steps ≠ [] := by
  match steps with
  | [] => exact absurd rfl hne
  | [step] => simpa [Text.join] using h
  | first :: next :: rest => simp [Text.join]

theorem atPath?_inside (h : Inside v steps w) (hne : steps ≠ [[]]) :
    v.atPath? (Text.join ['.'] steps) = some w := by
  by_cases hnil : steps = []
  · subst hnil
    cases h
    rfl
  · rw [atPath?_join hnil h.not_mem_dot (join_ne_nil hnil hne)]
    exact descend?_eq_some_iff.mpr h.descends

theorem atPath?_append {p q : Text} (hp : p ≠ []) (hq : q ≠ []) (v : Json) :
    v.atPath? (p ++ '.' :: q) = (v.atPath? p).bind fun u => u.atPath? q := by
  have hpq : p ++ '.' :: q ≠ [] := List.append_ne_nil_of_left_ne_nil hp _
  simp only [atPath?_of_ne_nil hp, atPath?_of_ne_nil hq, atPath?_of_ne_nil hpq,
    Text.fields_append_separator, descend?_append]

/-- A path of steps without dots gives what the steps lead down to, and nothing where they lead
nowhere; so every value inside another is at the path to it, unless that is the empty step alone.
The value at two paths with a dot between them is the one at the second path from the one at the
first. -/
theorem dotted_paths_descend (v : Json) :
    (∀ steps w, steps ≠ [] → (∀ step ∈ steps, '.' ∉ step) → Text.join ['.'] steps ≠ [] →
      (v.atPath? (Text.join ['.'] steps) = some w ↔ Descends v steps w)) ∧
    (∀ steps w, Inside v steps w → steps ≠ [[]] →
      v.atPath? (Text.join ['.'] steps) = some w) ∧
    ∀ p q : Text, p ≠ [] → q ≠ [] →
      v.atPath? (p ++ '.' :: q) = (v.atPath? p).bind fun u => u.atPath? q := by
  refine ⟨?_, fun steps w h hne => atPath?_inside h hne, fun p q hp hq => atPath?_append hp hq v⟩
  intro steps w hne hdot hpath
  rw [atPath?_join hne hdot hpath, descend?_eq_some_iff]

/-- An empty name, a position with a sign and a zero, and a name that looks like a position. -/
theorem dotted_paths_descend_nested :
    let deep := Json.string "deep".toList
    let v := Json.object [("a".toList, .object [([], .array [.null,
      .object [("7".toList, deep)]])])]
    Descends v ["a".toList, [], "+01".toList, "7".toList] deep ∧
      v.atPath? "a..+01.7".toList = some deep ∧
      Inside v ["a".toList, [], "1".toList, "7".toList] deep ∧
      v.atPath? "a..1.7".toList = some deep ∧
      v.atPath? "a..1.7".toList = (v.atPath? "a.".toList).bind fun u => u.atPath? "1.7".toList := by
  intro deep v
  have hdown : Descends v ["a".toList, [], "+01".toList, "7".toList] deep :=
    .step (.member rfl) (.step (.member rfl) (.step (.item (.plus (i := 1) 1 (by decide)) rfl)
      (.step (.member rfl) (.done deep))))
  have hinside : Inside v ["a".toList, [], "1".toList, "7".toList] deep :=
    .member rfl (by decide) (.member rfl (by decide) (.item (i := 1) rfl (by decide)
      (.member rfl (by decide) (.whole deep))))
  have htheorem := dotted_paths_descend v
  exact ⟨hdown, (htheorem.1 ["a".toList, [], "+01".toList, "7".toList] deep (by decide)
    (by decide) (by decide)).mpr hdown, hinside, htheorem.2.1 _ _ hinside (by decide),
    htheorem.2.2 "a.".toList "1.7".toList (by decide) (by decide)⟩

end Stencil.Json
