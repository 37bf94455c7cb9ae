import Mathlib.Data.List.Basic
import Stencil.Proofs.PropertyTree.Reporting

/-!
# Resolving what was resolved

An object that was resolved is resolved once more. A leaf that failed still holds what it held, so
that it fails again in the same way; a leaf that took a new text is looked at anew, and is left
alone when that text has no opening mark. Main statement: the second pass skips again all that the
first one skipped, and does nothing else when no text of the first pass has an opening mark.
-/

namespace Stencil

/-- The getter always fails with the same error, or gives what the slot holds. -/
def Accessor.ReadsBack (access : Accessor) : Prop :=
  (∃ e, ∀ held, access.read held = .error e) ∨ ∀ held, access.read held = .ok held

namespace PropertyTree
variable {engine : Engine} {context : Context}

/-! ## One leaf -/

namespace Leaf
variable {leaf : Leaf} {new : Text} {e : PropertyError}

/-- A leaf that fails is left as it is. -/
theorem Fails.settled (h : leaf.Fails engine context e) : leaf.settled engine context = leaf :=
  settled_of_not_takes fun _ htakes => htakes.not_fails e h

/-- A leaf that took a text without an opening mark is left alone from then on. -/
theorem Takes.outcome_settled (h : leaf.Takes engine context new)
    (hreads : leaf.access.ReadsBack) (hmark : ¬openMarker <:+: new) :
    (leaf.settled engine context).outcome engine context = none := by
  rw [h.settled]
  obtain ⟨old, hread, -⟩ := h
  rcases hreads with ⟨e, herror⟩ | hheld
  · rw [herror] at hread
    cases hread
  · exact outcome_of_unmarked (hheld (some new)) hmark

/-- All that is left to a second pass are the failures of the first. -/
theorem outcome_settled (hreads : leaf.access.ReadsBack)
    (hmark : ∀ new, leaf.Takes engine context new → ¬openMarker <:+: new) :
    (leaf.settled engine context).outcome engine context =
      (leaf.failure? engine context).map .error := by
  rcases outcome_cases engine context leaf with hnone | ⟨new, htakes⟩ | ⟨e, hfails⟩
  · rw [settled, failure?, hnone]
    exact hnone
  · rw [htakes.outcome_settled hreads (hmark new htakes), failure?, htakes.outcome]
    rfl
  · rw [hfails.settled, failure?, hfails.outcome]
    rfl

theorem failure?_settled_of_fails (h : leaf.Fails engine context e) :
    (leaf.settled engine context).failure? engine context = some e := by
  rw [h.settled]
  exact failure?_eq_some_iff.mpr h

theorem failure?_settled (hreads : leaf.access.ReadsBack)
    (hmark : ∀ new, leaf.Takes engine context new → ¬openMarker <:+: new) :
    (leaf.settled engine context).failure? engine context = leaf.failure? engine context := by
  rw [failure?, outcome_settled hreads hmark]
  cases leaf.failure? engine context <;> rfl

theorem rendered?_settled (hreads : leaf.access.ReadsBack)
    (hmark : ∀ new, leaf.Takes engine context new → ¬openMarker <:+: new) :
    (leaf.settled engine context).rendered? engine context = none := by
  rw [rendered?, outcome_settled hreads hmark]
  cases leaf.failure? engine context <;> rfl

theorem settled_settled (hreads : leaf.access.ReadsBack)
    (hmark : ∀ new, leaf.Takes engine context new → ¬openMarker <:+: new) :
    (leaf.settled engine context).settled engine context = leaf.settled engine context := by
  apply settled_of_not_takes
  intro new htakes
  have hnone := rendered?_settled hreads hmark
  rw [rendered?_eq_some_iff.mpr htakes] at hnone
  cases hnone

end Leaf

/-! ## All sites -/

theorem sites_resolveAll (path : Text) (ps : List Property) :
    sites (resolveAll engine context path ps).1 =
      (sites ps).map fun a => (a.1, a.2.settled engine context) := by
  induction ps using forest_induction generalizing path with
  | nil => rfl
  | nested name inner rest ihInner ihRest =>
    have hinner := ihInner (join path name)
    have hrest := ihRest path
    simp only [resolveAll, resolveProperty, sites, sitesOf, hinner, hrest, List.map_append,
      List.map_map]
    rfl
  | flat p rest hp ihRest =>
    have hrest := ihRest path
    have hflat : ∀ name inner, (resolveProperty engine context path p).1 ≠ .nested name inner := by
      intro name inner hnested
      cases p, hp using flat_cases <;> cases hnested
    simp only [resolveAll, sites, hrest, sitesOf_flat hp, sitesOf_flat hflat,
      ofProperty?_resolveProperty, List.map_append, List.map_map]
    cases Site.ofProperty? p <;> rfl

/-- Resolution keeps a tree in which every leaf is as it would be left. -/
theorem resolveAll_fst_of_settled {ps : List Property}
    (h : ∀ a ∈ sites ps, a.2.leaf.settled engine context = a.2.leaf) (path : Text) :
    (resolveAll engine context path ps).1 = ps := by
  induction ps using forest_induction generalizing path with
  | nil => rfl
  | nested name inner rest ihInner ihRest =>
    simp only [sites, sitesOf, List.forall_mem_append, List.forall_mem_map] at h
    have hinner := ihInner h.1 (join path name)
    have hrest := ihRest h.2 path
    simp only [resolveAll, resolveProperty, hinner, hrest]
  | flat p rest hp ihRest =>
    simp only [sites, List.forall_mem_append, List.forall_mem_map] at h
    have hrest := ihRest h.2 path
    have hhead : (resolveProperty engine context path p).1 = p := by
      cases p, hp using flat_cases with
      | unset name => rfl
      | text name value =>
        have hheld := congrArg Leaf.held (h.1 _ List.mem_cons_self)
        simp only [Leaf.settled, outcome_plain, storedAfter_some, Option.some.injEq] at hheld
        simp only [resolveProperty, hheld]
      | accessor name held access =>
        have hheld := congrArg Leaf.held (h.1 _ List.mem_cons_self)
        simp only [Leaf.settled, Leaf.outcome] at hheld
        simp only [resolveProperty, hheld]
    simp only [resolveAll, hhead, hrest]

/-! ## Both reports -/

theorem filterMap_sublist_filterMap {α β : Type} {f g : α → Option β} {l : List α}
    (h : ∀ a ∈ l, ∀ b, f a = some b → g a = some b) : (l.filterMap f).Sublist (l.filterMap g) := by
  induction l with
  | nil => exact List.Sublist.slnil
  | cons a l ih =>
    have hrest := ih fun a' ha => h a' (List.mem_cons_of_mem _ ha)
    cases hf : f a with
    | some b =>
      rw [List.filterMap_cons_some hf, List.filterMap_cons_some (h a List.mem_cons_self b hf)]
      exact hrest.cons_cons b
    | none =>
      rw [List.filterMap_cons_none hf]
      cases hg : g a with
      | none => rwa [List.filterMap_cons_none hg]
      | some b =>
        rw [List.filterMap_cons_some hg]
        exact hrest.cons b

theorem listed_skipped_sublist_settled (path : Text) (l : List Site) :
    (listed engine context path l).skipped.Sublist
      (listed engine context path (l.map (.settled engine context))).skipped := by
  simp only [listed, List.filterMap_map]
  apply filterMap_sublist_filterMap
  intro site _ entry hentry
  obtain ⟨e, hfailure, rfl⟩ := Option.map_eq_some_iff.mp hentry
  have hfails := Leaf.failure?_eq_some_iff.mp hfailure
  exact Option.map_eq_some_iff.mpr ⟨e, Leaf.failure?_settled_of_fails hfails, rfl⟩

theorem listed_settled (path : Text) {l : List Site}
    (hreads : ∀ site ∈ l, site.leaf.access.ReadsBack)
    (hmark : ∀ site ∈ l, ∀ new, site.leaf.Takes engine context new → ¬openMarker <:+: new) :
    listed engine context path (l.map (.settled engine context)) =
      ⟨[], (listed engine context path l).skipped⟩ := by
  simp only [listed, List.filterMap_map, Report.mk.injEq, List.filterMap_eq_nil_iff]
  constructor
  · intro site hsite
    have hrendered := Leaf.rendered?_settled (hreads site hsite) (hmark site hsite)
    simp only [Function.comp_apply, Site.settled, hrendered, Option.map_none]
  · apply List.filterMap_congr
    intro site hsite
    have hfailure := Leaf.failure?_settled (hreads site hsite) (hmark site hsite)
    simp only [Function.comp_apply, Site.settled, hfailure]
    rfl

/-- The second pass. A leaf that fails in the first pass is unchanged after it and fails again with
the same error, and what the first pass skips, the second one skips again in the same order. When
getters read back what is stored and no text that the first pass stores has an opening mark, the
second pass renders nothing, skips exactly the same, and leaves the object unchanged. -/
theorem resolve_again (engine : Engine) (context : Context) (ps : List Property) :
    (∀ address site e, siteAt? address ps = some site → site.leaf.Fails engine context e →
      siteAt? address (resolve engine context ps).1 = some site) ∧
    (resolve engine context ps).2.skipped.Sublist
      (resolve engine context (resolve engine context ps).1).2.skipped ∧
    ((∀ a ∈ sites ps, a.2.leaf.access.ReadsBack) →
      (∀ a ∈ sites ps, ∀ new, a.2.leaf.Takes engine context new → ¬openMarker <:+: new) →
      resolve engine context (resolve engine context ps).1 =
        ((resolve engine context ps).1, ⟨[], (resolve engine context ps).2.skipped⟩)) := by
  have hfirst := resolveAll_report engine context [] ps
  have hsecond : (resolve engine context (resolve engine context ps).1).2 =
      listed engine context [] (((sites ps).map Prod.snd).map (.settled engine context)) := by
    rw [resolve, resolveAll_report, resolve, sites_resolveAll, List.map_map, List.map_map]
    rfl
  refine ⟨?_, ?_, ?_⟩
  · intro address site e hsite hfails
    rw [resolve, siteAt?_resolveAll, hsite, Option.map_some, Site.settled, hfails.settled]
  · rw [hsecond, resolve, hfirst]
    exact listed_skipped_sublist_settled [] _
  · intro hreads hmark
    apply Prod.ext
    · apply resolveAll_fst_of_settled
      rw [resolve, sites_resolveAll, List.forall_mem_map]
      intro a ha
      exact Leaf.settled_settled (hreads a ha) (hmark a ha)
    · rw [hsecond, listed_settled [] (List.forall_mem_map.mpr hreads)
        (List.forall_mem_map.mpr hmark), ← hfirst]
      rfl

/-- A text that is rendered, a mark that is not closed, a getter that fails and a setter that
refuses. -/
theorem resolve_again_nested :
    let context : Context := ⟨[("x".toList, .string "X".toList)]⟩
    let locked : Accessor := ⟨fun _ => .error (.read "locked".toList), fun _ _ => .ok ()⟩
    let strict : Accessor := ⟨.ok, fun _ _ => .error (.write "refused".toList)⟩
    let ps : List Property :=
      [.text "a".toList "\x7b\x7bx\x7d\x7d".toList,
        .nested "n".toList [.text "b".toList "\x7b\x7b".toList, .accessor "c".toList none locked],
        .accessor "d".toList (some "\x7b\x7bx\x7d\x7d".toList) strict]
    let unreadable : Site := ⟨["n".toList, "c".toList], ⟨none, locked⟩⟩
    siteAt? [1, 1] ps = some unreadable ∧
      unreadable.leaf.Fails .basic context (.read "locked".toList) ∧
      siteAt? [1, 1] (resolve .basic context ps).1 = some unreadable ∧
      (∀ a ∈ sites ps, a.2.leaf.access.ReadsBack) ∧
      (∀ a ∈ sites ps, ∀ new, a.2.leaf.Takes .basic context new → ¬openMarker <:+: new) ∧
      resolve .basic context (resolve .basic context ps).1 =
        ((resolve .basic context ps).1, ⟨[], (resolve .basic context ps).2.skipped⟩) := by
  intro context locked strict ps unreadable
  have hfails : unreadable.leaf.Fails .basic context (.read "locked".toList) := .read rfl
  have hreads : ∀ a ∈ sites ps, a.2.leaf.access.ReadsBack :=
    List.forall_mem_cons.mpr ⟨.inr fun _ => rfl, List.forall_mem_cons.mpr ⟨.inr fun _ => rfl,
      List.forall_mem_cons.mpr ⟨.inl ⟨_, fun _ => rfl⟩, List.forall_mem_cons.mpr
        ⟨.inr fun _ => rfl, List.forall_mem_nil _⟩⟩⟩⟩
  have hrendered : ∀ a ∈ sites ps, a.2.leaf.rendered? .basic context = some "X".toList ∨
      a.2.leaf.rendered? .basic context = none := by
    decide +kernel
  have hmark : ∀ a ∈ sites ps, ∀ new, a.2.leaf.Takes .basic context new →
      ¬openMarker <:+: new := by
    intro a ha new htakes
    have hnew := Leaf.rendered?_eq_some_iff.mpr htakes
    rcases hrendered a ha with hX | hnone
    · rw [hX] at hnew
      obtain rfl := Option.some.inj hnew
      rw [← Text.occurs_iff]
      decide
    · rw [hnone] at hnew
      cases hnew
  have htheorem := resolve_again .basic context ps
  exact ⟨rfl, hfails, htheorem.1 [1, 1] unreadable _ rfl hfails, hreads, hmark,
    htheorem.2.2 hreads hmark⟩

end PropertyTree
end Stencil
