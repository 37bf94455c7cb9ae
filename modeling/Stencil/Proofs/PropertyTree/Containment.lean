import Mathlib.Control.Monad.Basic
import Stencil.Proofs.PropertyTree.Site

/-!
# Faults stay with their property

Resolution changes nothing but the texts in the slots of a tree, and each of them by itself: a
leaf that takes a new text holds it afterwards, and every other leaf holds what it held. What
happens to one leaf can therefore not be seen at any other.
-/

namespace Stencil.PropertyTree

mutual
/-- The property with nothing in its slots. -/
def bare : Property → Property
  | .text name _ => .text name []
  | .nested name inner => .nested name (bareAll inner)
  | .unset name => .unset name
  | .accessor name _ access => .accessor name none access

/-- The properties with nothing in their slots: names, order, nesting and accessors remain. -/
def bareAll : List Property → List Property
  | [] => []
  | p :: rest => bare p :: bareAll rest
end

section
variable (engine : Engine) (context : Context)

theorem bare_resolveProperty_flat {p : Property} (hp : ∀ name inner, p ≠ .nested name inner)
    (path : Text) : bare (resolveProperty engine context path p).1 = bare p := by
  cases p, hp using flat_cases <;> rfl

theorem bareAll_resolveAll (path : Text) (ps : List Property) :
    bareAll (resolveAll engine context path ps).1 = bareAll ps := by
  induction ps using forest_induction generalizing path with
  | nil => rfl
  | nested name inner rest ihInner ihRest =>
    have hhead := ihInner (join path name)
    have htail := ihRest path
    simp only [resolveAll, resolveProperty, bareAll, bare, hhead, htail]
  | flat p rest hp ihRest =>
    have hhead := bare_resolveProperty_flat engine context hp path
    have htail := ihRest path
    simp only [resolveAll, bareAll, hhead, htail]

theorem outcome_plain (value : Text) :
    (⟨some value, .plain⟩ : Leaf).outcome engine context = renderText? engine context value := by
  cases h : renderText? engine context value with
  | none => simp [Leaf.outcome, renderAccessor?, Accessor.plain, h]
  | some result => cases result <;> simp [Leaf.outcome, renderAccessor?, Accessor.plain, h, Except.map]

theorem storedAfter_some (old : Text) (result : Option (Except PropertyError Text)) :
    storedAfter (some old) result = some (textAfter old result) := by
  match result with
  | none => rfl
  | some (.ok new) => rfl
  | some (.error e) => rfl

theorem ofProperty?_resolveProperty (path : Text) (p : Property) :
    Site.ofProperty? (resolveProperty engine context path p).1 =
      (Site.ofProperty? p).map (Site.settled engine context) := by
  cases p with
  | nested name inner => rfl
  | unset name => rfl
  | accessor name held access => rfl
  | text name value =>
    simp only [resolveProperty, Site.ofProperty?, Option.map_some, Site.settled, Leaf.settled,
      outcome_plain, storedAfter_some]

theorem resolveAll_fst (path : Text) (ps : List Property) :
    (resolveAll engine context path ps).1 =
      ps.map fun p => (resolveProperty engine context path p).1 := by
  induction ps with
  | nil => rfl
  | cons p rest ih => rw [resolveAll, List.map_cons, ← ih]

/-- Resolution settles every site where it stands. -/
theorem siteAt?_resolveAll (address : List Nat) (path : Text) (ps : List Property) :
    siteAt? address (resolveAll engine context path ps).1 =
      (siteAt? address ps).map (Site.settled engine context) := by
  -- The address is what gets shorter; below a nested object the path is another one.
  induction address generalizing path ps with
  | nil => rfl
  | cons i address ih =>
    have hsite := ofProperty?_resolveProperty engine context path
    simp only [resolveAll_fst, siteAt?, List.getElem?_map]
    cases ps[i]? with
    | none => rfl
    | some p =>
      cases p with
      | nested name inner =>
        have hinner := ih (join path name) inner
        simp only [Option.map_some, resolveProperty, hinner, Option.map_map]
        rfl
      | text name value =>
        have h := hsite (.text name value)
        by_cases ha : address = [] <;> simp_all [resolveProperty]
      | unset name => by_cases ha : address = [] <;> simp [resolveProperty, ha, Site.ofProperty?]
      | accessor name held access =>
        have h := hsite (.accessor name held access)
        by_cases ha : address = [] <;> simp_all [resolveProperty]

end

/-- Fault containment. Names, order and nesting stay. A leaf that is read, marked, rendered and
accepted holds the new text; any other leaf holds what it held. Whatever stands at one address,
before and after, can be told from no other address. -/
theorem resolve_contains_faults (engine : Engine) (context : Context) (ps : List Property) :
    bareAll (resolve engine context ps).1 = bareAll ps ∧
    (∀ address site, siteAt? address ps = some site →
      (∀ new, site.leaf.Takes engine context new →
        siteAt? address (resolve engine context ps).1 =
          some ⟨site.names, { site.leaf with held := some new }⟩) ∧
      ((∀ new, ¬site.leaf.Takes engine context new) →
        siteAt? address (resolve engine context ps).1 = some site)) ∧
    ∀ (other : List Property) (changed : List Nat),
      (∀ address, address ≠ changed → siteAt? address other = siteAt? address ps) →
      ∀ address, address ≠ changed →
        siteAt? address (resolve engine context other).1 =
          siteAt? address (resolve engine context ps).1 := by
  refine ⟨bareAll_resolveAll engine context [] ps, ?_, ?_⟩
  · intro address site hsite
    simp only [resolve, siteAt?_resolveAll, hsite, Option.map_some, Option.some.injEq]
    constructor
    · intro new htakes
      rw [Site.settled, htakes.settled]
    · intro hnone
      rw [Site.settled, Leaf.settled_of_not_takes hnone]
  · intro other changed hsame address haddress
    simp only [resolve, siteAt?_resolveAll, hsame address haddress]

/-- A nested leaf is rendered although the mark in the leaf before it is never closed. -/
theorem resolve_contains_faults_nested :
    siteAt? [1, 0] (resolve .basic ⟨[("x".toList, .string "X".toList)]⟩
        [.text "a".toList "\x7b\x7b".toList,
          .nested "n".toList [.text "b".toList "\x7b\x7bx\x7d\x7d".toList]]).1 =
      some ⟨["n".toList, "b".toList], ⟨some "X".toList, .plain⟩⟩ := by
  have htakes : Leaf.Takes .basic ⟨[("x".toList, .string "X".toList)]⟩
      ⟨some "\x7b\x7bx\x7d\x7d".toList, .plain⟩ "X".toList :=
    ⟨_, rfl, ⟨[], "x\x7d\x7d".toList, rfl⟩, by decide +kernel, rfl⟩
  exact ((resolve_contains_faults _ _ _).2.1 [1, 0]
    ⟨["n".toList, "b".toList], ⟨some "\x7b\x7bx\x7d\x7d".toList, .plain⟩⟩ rfl).1 _ htakes

end Stencil.PropertyTree
