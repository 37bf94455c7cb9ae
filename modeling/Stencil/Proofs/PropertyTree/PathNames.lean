import Mathlib.Data.List.Nodup
import Stencil.Proofs.PropertyTree.Reporting
import Stencil.Proofs.Text.Fields

/-!
# Paths lead back to leaves

A path in a report is a flat text. When no name is empty or holds a dot, and no two siblings have
the same name, it is still an address: split at its dots it gives the names on the way, and at each
level one property has the name. Main statements: names lead to the address they were collected
at, so that different leaves have different paths, and the entries of a report are about the leaves
their paths lead to.
-/

namespace Stencil.PropertyTree

mutual
/-- A property inside which names can be told apart in a path. -/
def WellNamed : Property → Prop
  | .nested _ properties => WellNamedAll properties
  | .text _ _ | .unset _ | .accessor _ _ _ => True

/-- Properties whose names are neither empty nor hold a dot, none twice among siblings, here and
in nested objects. -/
def WellNamedAll : List Property → Prop
  | [] => True
  | property :: properties =>
    property.name ≠ [] ∧ '.' ∉ property.name ∧ property.name ∉ properties.map Property.name ∧
      WellNamed property ∧ WellNamedAll properties
end

/-- The address that names lead to: at each level, the position of the first property that has the
name. Names that end at a nested object or go on behind another property lead nowhere. -/
def addressOf? : (names : List Text) → List Property → Option (List Nat)
  | [], _ => none
  | name :: names, ps =>
    let i := (ps.map Property.name).idxOf name
    match ps[i]? with
    | some (.nested _ inner) => (addressOf? names inner).map (i :: ·)
    | some _ => if names = [] then some [i] else none
    | none => none

theorem WellNamedAll.names {ps : List Property} (h : WellNamedAll ps) :
    (ps.map Property.name).Nodup ∧
      ∀ p ∈ ps, p.name ≠ [] ∧ '.' ∉ p.name ∧ WellNamed p := by
  induction ps with
  | nil => exact ⟨List.nodup_nil, List.forall_mem_nil _⟩
  | cons p rest ih =>
    obtain ⟨hne, hdot, hnew, hfirst, hrest⟩ := h
    obtain ⟨hnodup, hall⟩ := ih hrest
    exact ⟨List.nodup_cons.mpr ⟨hnew, hnodup⟩,
      List.forall_mem_cons.mpr ⟨⟨hne, hdot, hfirst⟩, hall⟩⟩

/-! ## Descent by names -/

theorem idxOf_name {ps : List Property} {i : Nat} {p : Property}
    (h : (ps.map Property.name).Nodup) (hp : ps[i]? = some p) :
    (ps.map Property.name).idxOf p.name = i := by
  obtain ⟨hi, rfl⟩ := List.getElem?_eq_some_iff.mp hp
  have hpos := h.idxOf_getElem i (by rwa [List.length_map])
  rwa [List.getElem_map] at hpos

theorem name_of_getElem?_idxOf {ps : List Property} {name : Text} {p : Property}
    (hp : ps[(ps.map Property.name).idxOf name]? = some p) : p.name = name := by
  obtain ⟨hi, rfl⟩ := List.getElem?_eq_some_iff.mp hp
  rw [← List.getElem_map Property.name (h := by rwa [List.length_map]), List.getElem_idxOf]

theorem addressOf?_nested {ps : List Property} {i : Nat} {name : Text} {inner : List Property}
    (h : (ps.map Property.name).Nodup) (hp : ps[i]? = some (.nested name inner))
    (names : List Text) :
    addressOf? (name :: names) ps = (addressOf? names inner).map (i :: ·) := by
  have hpos : (ps.map Property.name).idxOf name = i := idxOf_name h hp
  simp only [addressOf?, hpos, hp]

theorem addressOf?_flat {ps : List Property} {i : Nat} {p : Property}
    (h : (ps.map Property.name).Nodup) (hp : ps[i]? = some p)
    (hflat : ∀ name inner, p ≠ .nested name inner) :
    addressOf? [p.name] ps = some [i] := by
  simp only [addressOf?, idxOf_name h hp, hp]
  cases p, hflat using flat_cases <;> rfl

theorem Site.ofProperty?_eq_some {p : Property} {site : Site}
    (h : Site.ofProperty? p = some site) :
    site.names = [p.name] ∧ ∀ name inner, p ≠ .nested name inner := by
  cases p with
  | nested name inner => cases h
  | unset name => cases h
  | text name value =>
    obtain rfl := Option.some.inj h
    exact ⟨rfl, by simp⟩
  | accessor name held access =>
    obtain rfl := Option.some.inj h
    exact ⟨rfl, by simp⟩

/-- Induction on the way to a site: it is a property by itself, or a site further inside, seen from
above its nested object. -/
theorem siteAt?_induction {motive : List Nat → List Property → Site → Prop}
    (here : ∀ i ps p site, ps[i]? = some p → Site.ofProperty? p = some site →
      motive [i] ps site)
    (inside : ∀ i address ps name inner site, ps[i]? = some (.nested name inner) →
      motive address inner site → motive (i :: address) ps (site.below name))
    {address : List Nat} {ps : List Property} {site : Site}
    (h : siteAt? address ps = some site) : motive address ps site := by
  induction address generalizing ps site with
  | nil => cases h
  | cons i address ih =>
    have hflat : ∀ p, ps[i]? = some p →
        (if address = [] then Site.ofProperty? p else none) = some site →
        motive (i :: address) ps site := by
      intro p hp hsite
      split at hsite
      · next haddress => exact haddress ▸ here i ps p site hp hsite
      · cases hsite
    rw [siteAt?] at h
    split at h
    · next name inner hp =>
      obtain ⟨below, hbelow, rfl⟩ := Option.map_eq_some_iff.mp h
      exact inside i address ps name inner below hp (ih hbelow)
    · next p _ hp => exact hflat p hp h
    · cases h

theorem WellNamedAll.names_of_siteAt? {ps : List Property} (h : WellNamedAll ps)
    {address : List Nat} {site : Site} (hsite : siteAt? address ps = some site) :
    site.names ≠ [] ∧ ∀ name ∈ site.names, name ≠ [] ∧ '.' ∉ name := by
  refine siteAt?_induction (motive := fun _ ps site => WellNamedAll ps →
    site.names ≠ [] ∧ ∀ name ∈ site.names, name ≠ [] ∧ '.' ∉ name) ?_ ?_ hsite h
  · intro i ps p site hp hproperty h
    obtain ⟨hne, hdot, -⟩ := h.names.2 p (List.mem_of_getElem? hp)
    rw [(Site.ofProperty?_eq_some hproperty).1]
    exact ⟨List.cons_ne_nil _ _, List.forall_mem_singleton.mpr ⟨hne, hdot⟩⟩
  · intro i address ps name inner site hp ih h
    obtain ⟨hne, hdot, hinner⟩ := h.names.2 _ (List.mem_of_getElem? hp)
    exact ⟨List.cons_ne_nil _ _, List.forall_mem_cons.mpr ⟨⟨hne, hdot⟩, (ih hinner).2⟩⟩

/-- The names that were collected on the way to a site lead to it. -/
theorem WellNamedAll.addressOf?_names {ps : List Property} (h : WellNamedAll ps)
    {address : List Nat} {site : Site} (hsite : siteAt? address ps = some site) :
    addressOf? site.names ps = some address := by
  refine siteAt?_induction (motive := fun address ps site => WellNamedAll ps →
    addressOf? site.names ps = some address) ?_ ?_ hsite h
  · intro i ps p site hp hproperty h
    obtain ⟨hnames, hflat⟩ := Site.ofProperty?_eq_some hproperty
    rw [hnames, addressOf?_flat h.names.1 hp hflat]
  · intro i address ps name inner site hp ih h
    obtain ⟨-, -, hinner⟩ := h.names.2 _ (List.mem_of_getElem? hp)
    rw [Site.below, addressOf?_nested h.names.1 hp, ih hinner, Option.map_some]

/-- A site that names lead to has these names on its way. -/
theorem names_of_addressOf? {names : List Text} {ps : List Property} {address : List Nat}
    {site : Site} (h : addressOf? names ps = some address)
    (hsite : siteAt? address ps = some site) : site.names = names := by
  induction names generalizing ps address site with
  | nil => cases h
  | cons name names ih =>
    rw [addressOf?] at h
    split at h
    · next found inner hp =>
      obtain ⟨rest, hrest, rfl⟩ := Option.map_eq_some_iff.mp h
      rw [siteAt?, hp] at hsite
      obtain ⟨below, hbelow, rfl⟩ := Option.map_eq_some_iff.mp hsite
      rw [Site.below, ih hrest hbelow, show found = name from name_of_getElem?_idxOf hp]
    · next p hflat hp =>
      obtain ⟨rfl, haddress⟩ := Option.ite_none_right_eq_some.mp h
      obtain rfl := Option.some.inj haddress
      rw [siteAt?, hp] at hsite
      have hproperty : Site.ofProperty? p = some site := by
        split at hsite
        · next found inner heq => exact absurd (Option.some.inj heq) (hflat found inner)
        · next heq => rwa [if_pos rfl, ← Option.some.inj heq] at hsite
        · next heq => cases heq
      rw [(Site.ofProperty?_eq_some hproperty).1, name_of_getElem?_idxOf hp]
    · cases h

/-! ## Entries of a report -/

/-- A path split at its dots leads to the site it was made for. -/
theorem WellNamedAll.addressOf?_path {ps : List Property} (h : WellNamedAll ps)
    {address : List Nat} {site : Site} (hsite : siteAt? address ps = some site) :
    addressOf? (Text.fields '.' site.path) ps = some address := by
  obtain ⟨hne, hnames⟩ := h.names_of_siteAt? hsite
  rw [Site.path_eq_join fun hempty => (hnames [] hempty).1 rfl,
    Text.fields_join hne fun name hname => (hnames name hname).2, h.addressOf?_names hsite]

theorem WellNamedAll.path_eq_iff {ps : List Property} (h : WellNamedAll ps)
    {address : List Nat} {site : Site} (hsite : siteAt? address ps = some site) (path : Text) :
    site.path = path ↔ addressOf? (Text.fields '.' path) ps = some address := by
  constructor
  · rintro rfl
    exact h.addressOf?_path hsite
  · intro hpath
    have hnames := names_of_addressOf? hpath hsite
    rw [Site.path_eq_join, hnames, Text.join_fields]
    exact fun hempty => ((h.names_of_siteAt? hsite).2 [] hempty).1 rfl

/-- Different sites have different paths. -/
theorem WellNamedAll.paths_distinct {ps : List Property} (h : WellNamedAll ps) :
    (sites ps).Pairwise fun a b => a.2.path ≠ b.2.path := by
  have hascending := List.pairwise_map.mp (sites_ascending ps)
  refine hascending.imp_of_mem fun {a b} ha hb hlt heq => ?_
  have hpath := h.addressOf?_path ((mem_sites_iff ps a.1 a.2).mp ha)
  rw [heq, h.addressOf?_path ((mem_sites_iff ps b.1 b.2).mp hb)] at hpath
  rw [Option.some.inj hpath] at hlt
  exact List.lt_irrefl _ hlt

/-- What is found at the leaves, each with the path of its site. -/
def listing {α : Type} (f : Leaf → Option α) (ps : List Property) : List (Text × α) :=
  (sites ps).filterMap fun a => (f a.2.leaf).map fun x => (a.2.path, x)

theorem WellNamedAll.mem_listing_iff {ps : List Property} (h : WellNamedAll ps) {α : Type}
    (f : Leaf → Option α) (path : Text) (x : α) :
    (path, x) ∈ listing f ps ↔ ∃ address site,
      addressOf? (Text.fields '.' path) ps = some address ∧ siteAt? address ps = some site ∧
        f site.leaf = some x := by
  simp only [listing, List.mem_filterMap, Option.map_eq_some_iff, Prod.exists, mem_sites_iff,
    Prod.mk.injEq]
  constructor
  · rintro ⟨address, site, hsite, x, hx, hpath, rfl⟩
    exact ⟨address, site, (h.path_eq_iff hsite path).mp hpath, hsite, hx⟩
  · rintro ⟨address, site, haddress, hsite, hx⟩
    exact ⟨address, site, hsite, x, hx, (h.path_eq_iff hsite path).mpr haddress, rfl⟩

theorem WellNamedAll.nodup_listing {ps : List Property} (h : WellNamedAll ps) {α : Type}
    (f : Leaf → Option α) : ((listing f ps).map Prod.fst).Nodup := by
  refine List.pairwise_map.mpr (List.pairwise_filterMap.mpr (h.paths_distinct.imp ?_))
  intro a b hne entry ha entry' hb
  obtain ⟨-, -, rfl⟩ := Option.map_eq_some_iff.mp ha
  obtain ⟨-, -, rfl⟩ := Option.map_eq_some_iff.mp hb
  exact hne

section
variable (engine : Engine) (context : Context) (ps : List Property)

theorem rendered_eq_listing :
    (resolve engine context ps).2.rendered =
      (listing (Leaf.rendered? engine context) ps).map Prod.fst := by
  simp only [resolve_rendered, listing, List.map_filterMap, Option.map_map]
  rfl

theorem skipped_eq_listing :
    (resolve engine context ps).2.skipped = listing (Leaf.failure? engine context) ps :=
  resolve_skipped engine context ps

end

/-- Report paths are unambiguous. When no name in a tree is empty or holds a dot, and no name
stands twice among siblings, no path stands twice in a report, the rendered and the skipped ones
together. A path is rendered when its names, split at the dots, lead to a leaf that takes a new
text, and skipped with an error when they lead to one that fails with it; and the path made for a
leaf leads to this leaf, by position. -/
theorem paths_lead_to_leaves {ps : List Property} (h : WellNamedAll ps) (engine : Engine)
    (context : Context) :
    ((resolve engine context ps).2.rendered ++
      (resolve engine context ps).2.skipped.map Prod.fst).Nodup ∧
    (∀ path, path ∈ (resolve engine context ps).2.rendered ↔ ∃ address site new,
      addressOf? (Text.fields '.' path) ps = some address ∧ siteAt? address ps = some site ∧
        site.leaf.Takes engine context new) ∧
    (∀ path e, (path, e) ∈ (resolve engine context ps).2.skipped ↔ ∃ address site,
      addressOf? (Text.fields '.' path) ps = some address ∧ siteAt? address ps = some site ∧
        site.leaf.Fails engine context e) ∧
    ∀ address site, siteAt? address ps = some site →
      addressOf? (Text.fields '.' site.path) ps = some address := by
  have hrendered : ∀ path, path ∈ (resolve engine context ps).2.rendered ↔ ∃ address site new,
      addressOf? (Text.fields '.' path) ps = some address ∧ siteAt? address ps = some site ∧
        site.leaf.Takes engine context new := by
    intro path
    simp only [rendered_eq_listing, List.mem_map, Prod.exists, exists_and_right, exists_eq_right,
      h.mem_listing_iff, Leaf.rendered?_eq_some_iff]
    exact ⟨fun ⟨new, address, site, hall⟩ => ⟨address, site, new, hall⟩,
      fun ⟨address, site, new, hall⟩ => ⟨new, address, site, hall⟩⟩
  have hskipped : ∀ path e, (path, e) ∈ (resolve engine context ps).2.skipped ↔
      ∃ address site, addressOf? (Text.fields '.' path) ps = some address ∧
        siteAt? address ps = some site ∧ site.leaf.Fails engine context e := by
    intro path e
    simp only [skipped_eq_listing, h.mem_listing_iff, Leaf.failure?_eq_some_iff]
  refine ⟨List.nodup_append.mpr ⟨?_, ?_, ?_⟩, hrendered, hskipped, fun _ _ => h.addressOf?_path⟩
  · rw [rendered_eq_listing]
    exact h.nodup_listing _
  · rw [skipped_eq_listing]
    exact h.nodup_listing _
  · -- One path leads to one leaf, which does not take a text and fail as well.
    rintro path htaken path' hfailed rfl
    obtain ⟨address, site, new, haddress, hsite, htakes⟩ := (hrendered path).mp htaken
    obtain ⟨⟨path', e⟩, hmem, rfl⟩ := List.mem_map.mp hfailed
    obtain ⟨address', site', haddress', hsite', hfails⟩ := (hskipped path' e).mp hmem
    obtain rfl := Option.some.inj (haddress.symm.trans haddress')
    obtain rfl := Option.some.inj (hsite.symm.trans hsite')
    exact htakes.not_fails e hfails

/-- The path of a nested leaf leads past a leaf outside that has the same last name. -/
theorem paths_lead_to_leaves_nested :
    let tree : List Property :=
      [.text "b".toList "plain".toList, .nested "a".toList
        [.unset "u".toList, .text "b".toList "\x7b\x7bx\x7d\x7d".toList]]
    WellNamedAll tree ∧ addressOf? (Text.fields '.' "a.b".toList) tree = some [1, 1] ∧
      "a.b".toList ∈
        (resolve .basic ⟨[("x".toList, .string "X".toList)]⟩ tree).2.rendered := by
  intro tree
  have hnamed : WellNamedAll tree :=
    ⟨by decide, by decide, by decide, trivial, by decide, by decide, by decide,
      ⟨by decide, by decide, by decide, trivial, by decide, by decide, by decide, trivial,
        trivial⟩, trivial⟩
  have htakes : Leaf.Takes .basic ⟨[("x".toList, .string "X".toList)]⟩
      ⟨some "\x7b\x7bx\x7d\x7d".toList, .plain⟩ "X".toList :=
    ⟨_, rfl, ⟨[], "x\x7d\x7d".toList, rfl⟩, by decide +kernel, rfl⟩
  obtain ⟨-, hrendered, -, haddress⟩ := paths_lead_to_leaves hnamed .basic
    ⟨[("x".toList, .string "X".toList)]⟩
  have hpath := haddress [1, 1]
    ⟨["a".toList, "b".toList], ⟨some "\x7b\x7bx\x7d\x7d".toList, .plain⟩⟩ rfl
  exact ⟨hnamed, hpath, (hrendered _).mpr ⟨_, _, _, hpath, rfl, htakes⟩⟩

end Stencil.PropertyTree
