import Stencil.Proofs.PropertyTree.Leaf

/-!
# Where the leaves of a tree of properties stand

An address leads to a leaf by positions: that of a property among the declared ones, then that of
a property inside it, and so on. Beside the leaf it gives the names on the way. Positions tell
apart what names may not, since siblings may share a name. Main statements: the list of all sites
holds exactly those that an address leads to, and its addresses ascend, which is depth-first
order of declaration.
-/

namespace Stencil.PropertyTree

/-- Induction on the properties of an object and, with them, on those of its nested objects. -/
@[elab_as_elim]
theorem forest_induction {motive : List Property → Prop} (nil : motive [])
    (nested : ∀ name inner rest, motive inner → motive rest →
      motive (.nested name inner :: rest))
    (flat : ∀ p rest, (∀ name inner, p ≠ .nested name inner) → motive rest → motive (p :: rest))
    (ps : List Property) : motive ps := by
  match ps with
  | [] => exact nil
  | .nested name inner :: rest =>
    exact nested name inner rest (forest_induction nil nested flat inner)
      (forest_induction nil nested flat rest)
  | .text name value :: rest =>
    exact flat _ rest (by simp) (forest_induction nil nested flat rest)
  | .unset name :: rest =>
    exact flat _ rest (by simp) (forest_induction nil nested flat rest)
  | .accessor name held access :: rest =>
    exact flat _ rest (by simp) (forest_induction nil nested flat rest)

/-- The properties that are no nested objects. -/
@[elab_as_elim]
theorem flat_cases {motive : (p : Property) → (∀ name inner, p ≠ .nested name inner) → Prop}
    (text : ∀ name value h, motive (.text name value) h)
    (unset : ∀ name h, motive (.unset name) h)
    (accessor : ∀ name held access h, motive (.accessor name held access) h)
    (p : Property) (hp : ∀ name inner, p ≠ .nested name inner) : motive p hp := by
  cases p with
  | nested name inner => exact absurd rfl (hp name inner)
  | text name value => exact text name value hp
  | unset name => exact unset name hp
  | accessor name held access => exact accessor name held access hp

/-- A leaf and the names that lead to it. -/
structure Site where
  names : List Text
  leaf : Leaf

namespace Site

/-- The site that a property is by itself. -/
def ofProperty? : Property → Option Site
  | .text name value => some ⟨[name], ⟨some value, .plain⟩⟩
  | .accessor name held access => some ⟨[name], ⟨held, access⟩⟩
  | .nested _ _ | .unset _ => none

/-- The site, seen from above a nested object of the given name. -/
def below (name : Text) (site : Site) : Site := ⟨name :: site.names, site.leaf⟩

/-- The path that a report gives for the site, when the tree stands below another path. -/
def pathFrom (path : Text) (site : Site) : Text := site.names.foldl join path

def path (site : Site) : Text := site.pathFrom []

/-- The site with its leaf as resolution leaves it. -/
def settled (engine : Engine) (context : Context) (site : Site) : Site :=
  ⟨site.names, site.leaf.settled engine context⟩

end Site

def siteAt? : (address : List Nat) → List Property → Option Site
  | [], _ => none
  | i :: address, ps =>
    match ps[i]? with
    | some (.nested name inner) => (siteAt? address inner).map (.below name)
    | some p => if address = [] then Site.ofProperty? p else none
    | none => none

mutual
/-- The sites at a property, with their addresses from there on. -/
def sitesOf : Property → List (List Nat × Site)
  | .text name value => [([], ⟨[name], ⟨some value, .plain⟩⟩)]
  | .nested name inner => (sites inner).map fun a => (a.1, a.2.below name)
  | .unset _ => []
  | .accessor name held access => [([], ⟨[name], ⟨held, access⟩⟩)]

def sites : List Property → List (List Nat × Site)
  | [] => []
  | p :: rest =>
    (sitesOf p).map (fun a => (0 :: a.1, a.2)) ++
      (sites rest).map fun a => (a.1.modifyHead (· + 1), a.2)
end

theorem sitesOf_flat {p : Property} (hp : ∀ name inner, p ≠ .nested name inner) :
    sitesOf p = ((Site.ofProperty? p).map fun site => ([], site)).toList := by
  cases p, hp using flat_cases <;> rfl

theorem siteAt?_zero_of_flat {p : Property} (hp : ∀ name inner, p ≠ .nested name inner)
    (address : List Nat) (rest : List Property) :
    siteAt? (0 :: address) (p :: rest) =
      if address = [] then Site.ofProperty? p else none := by
  cases p, hp using flat_cases <;> rfl

/-! ## The list of sites and the addresses agree -/

/-- A listed site of the first property keeps its address behind a zero; one of a later property
has its first position counted one further. -/
theorem mem_sites_cons {address : List Nat} {site : Site} {p : Property}
    {rest : List Property} :
    (address, site) ∈ sites (p :: rest) ↔
      (∃ below, (below, site) ∈ sitesOf p ∧ address = 0 :: below) ∨
        ∃ later, (later, site) ∈ sites rest ∧ address = later.modifyHead (· + 1) := by
  simp only [sites, List.mem_append, List.mem_map, Prod.exists, Prod.mk.injEq]
  constructor
  · rintro (⟨a, s, h, rfl, rfl⟩ | ⟨a, s, h, rfl, rfl⟩)
    · exact .inl ⟨a, h, rfl⟩
    · exact .inr ⟨a, h, rfl⟩
  · rintro (⟨a, h, rfl⟩ | ⟨a, h, rfl⟩)
    · exact .inl ⟨a, site, h, rfl, rfl⟩
    · exact .inr ⟨a, site, h, rfl, rfl⟩

private theorem mem_sites_step {p : Property} {rest : List Property}
    (head : ∀ a s, (a, s) ∈ sitesOf p ↔ siteAt? (0 :: a) (p :: rest) = some s)
    (tail : ∀ a s, (a, s) ∈ sites rest ↔ siteAt? a rest = some s)
    (address : List Nat) (site : Site) :
    (address, site) ∈ sites (p :: rest) ↔ siteAt? address (p :: rest) = some site := by
  rw [mem_sites_cons]
  constructor
  · rintro (⟨below, h, rfl⟩ | ⟨later, h, rfl⟩)
    · exact (head below site).mp h
    · have hat := (tail later site).mp h
      -- No site has the empty address, which counting further would leave as it is.
      cases later with
      | nil => simp [siteAt?] at hat
      | cons i a => exact hat
  · intro h
    match address with
    | [] => simp [siteAt?] at h
    | 0 :: below => exact .inl ⟨below, (head below site).mpr h, rfl⟩
    | (i + 1) :: below => exact .inr ⟨i :: below, (tail _ site).mpr h, rfl⟩

/-- A site is listed exactly under the address that leads to it. -/
theorem mem_sites_iff (ps : List Property) (address : List Nat) (site : Site) :
    (address, site) ∈ sites ps ↔ siteAt? address ps = some site := by
  induction ps using forest_induction generalizing address site with
  | nil => cases address <;> simp [sites, siteAt?]
  | nested name inner rest ihInner ihRest =>
    refine mem_sites_step (fun a s => ?_) ihRest address site
    have hzero : siteAt? (0 :: a) (.nested name inner :: rest) =
      (siteAt? a inner).map (.below name) := rfl
    rw [hzero, Option.map_eq_some_iff]
    simp only [sitesOf, List.mem_map, Prod.exists, Prod.mk.injEq]
    constructor
    · rintro ⟨b, t, h, rfl, rfl⟩
      exact ⟨t, (ihInner b t).mp h, rfl⟩
    · rintro ⟨t, h, rfl⟩
      exact ⟨a, t, (ihInner a t).mpr h, rfl, rfl⟩
  | flat p rest hp ihRest =>
    refine mem_sites_step (fun a s => ?_) ihRest address site
    rw [sitesOf_flat hp, siteAt?_zero_of_flat hp]
    cases Site.ofProperty? p <;> by_cases ha : a = [] <;> simp [ha, eq_comm]

/-! ## Addresses ascend -/

theorem ne_nil_of_mem_sites {ps : List Property} {address : List Nat} {site : Site}
    (h : (address, site) ∈ sites ps) : address ≠ [] := by
  rintro rfl
  simp [mem_sites_iff, siteAt?] at h

private theorem modifyHead_succ_lt {a b : List Nat} (h : a < b) :
    a.modifyHead (· + 1) < b.modifyHead (· + 1) := by
  cases a with
  | nil => cases b <;> simp_all
  | cons i a =>
    cases b with
    | nil => simp at h
    | cons j b => simpa [List.cons_lt_cons_iff] using h

private theorem ascending_step {p : Property} {rest : List Property}
    (head : ((sitesOf p).map Prod.fst).Pairwise (· < ·))
    (tail : ((sites rest).map Prod.fst).Pairwise (· < ·)) :
    ((sites (p :: rest)).map Prod.fst).Pairwise (· < ·) := by
  rw [List.pairwise_map] at head tail
  simp only [sites, List.map_append, List.map_map, List.pairwise_append, List.pairwise_map,
    Function.comp_apply, List.mem_map, forall_exists_index, and_imp]
  refine ⟨?_, ?_, ?_⟩
  · exact head.imp fun h => List.cons_lt_cons_iff.mpr (.inr ⟨rfl, h⟩)
  · exact tail.imp modifyHead_succ_lt
  · rintro x below hbelow rfl y ⟨later, site⟩ hlater rfl
    match later, ne_nil_of_mem_sites hlater with
    | i :: later, _ => exact List.cons_lt_cons_iff.mpr (.inl (Nat.succ_pos i))

/-- The list of sites is in depth-first order of declaration. -/
theorem sites_ascending (ps : List Property) :
    ((sites ps).map Prod.fst).Pairwise (· < ·) := by
  induction ps using forest_induction with
  | nil => exact List.Pairwise.nil
  | nested name inner rest ihInner ihRest =>
    refine ascending_step ?_ ihRest
    rw [sitesOf, List.map_map]
    exact ihInner
  | flat p rest hp ihRest =>
    refine ascending_step ?_ ihRest
    rw [sitesOf_flat hp]
    cases Site.ofProperty? p <;> simp

end Stencil.PropertyTree
