import Stencil.Json.Basic

/-!
# Members set in turn

Setting a name that an object does not have puts it last, so that members of distinct names are
kept as they are when they are set one after the other. In general the last change of a name gives
its value, and the new names follow the old ones in the order in which they first come.
-/

namespace Stencil.Members

theorem set_of_notMem {members : Members} {name : Text} (h : name ∉ names members)
    (value : Json) : set members name value = members ++ [(name, value)] := by
  induction members with
  | nil => rfl
  | cons m rest ih =>
    simp only [names, List.map_cons, List.mem_cons, not_or] at h
    rw [set, if_neg (Ne.symm h.1), ih h.2]
    rfl

theorem setAll_of_nodup {members changes : Members} (h : (names (members ++ changes)).Nodup) :
    setAll members changes = members ++ changes := by
  induction changes generalizing members with
  | nil => simp [setAll]
  | cons change changes ih =>
    have hfresh : change.1 ∉ names members := by
      simp only [names, List.map_append, List.map_cons] at h ⊢
      exact fun hmem => (List.nodup_append.mp h).2.2 _ hmem _ List.mem_cons_self rfl
    have hset := set_of_notMem hfresh change.2
    have hrest : setAll (members ++ [change]) changes = members ++ [change] ++ changes :=
      ih (by simpa using h)
    rw [setAll, List.foldl_cons, hset]
    simpa [setAll] using hrest

/-! ## Names -/

@[simp] theorem names_cons (name : Text) (value : Json) (rest : Members) :
    names ((name, value) :: rest) = name :: names rest := rfl

theorem names_set (members : Members) (name : Text) (value : Json) :
    names (set members name value) =
      if name ∈ names members then names members else names members ++ [name] := by
  induction members with
  | nil => rfl
  | cons m rest ih =>
    obtain ⟨k, v⟩ := m
    by_cases hk : k = name
    · simp [set, hk]
    · have hne : ¬name = k := fun h => hk h.symm
      rw [set, if_neg hk, names_cons, ih]
      by_cases hmem : name ∈ names rest <;> simp [hne, hmem]

theorem nodup_names_set {members : Members} (h : (names members).Nodup) (name : Text)
    (value : Json) : (names (set members name value)).Nodup := by
  rw [names_set]
  split
  · exact h
  · next hfresh =>
    refine List.nodup_append.mpr ⟨h, by simp, fun k hk other hother heq => hfresh ?_⟩
    rwa [← List.mem_singleton.mp hother, ← heq]

theorem setAll_cons (members : Members) (change : Text × Json) (changes : List (Text × Json)) :
    setAll members (change :: changes) = setAll (set members change.1 change.2) changes := rfl

theorem nodup_names_setAll {members : Members} (h : (names members).Nodup)
    (changes : List (Text × Json)) : (names (setAll members changes)).Nodup := by
  induction changes generalizing members with
  | nil => exact h
  | cons change changes ih => exact ih (nodup_names_set h change.1 change.2)

theorem names_setAll (members changes : Members) :
    names (setAll members changes) =
      names members ++ ((names changes).filter (· ∉ names members)).eraseDups := by
  induction changes generalizing members with
  | nil => simp [setAll, names]
  | cons change changes ih =>
    obtain ⟨name, value⟩ := change
    -- A name that is there already is passed over, a new one is kept and hides its repetitions.
    rw [setAll_cons, ih, names_set, names_cons]
    by_cases hmem : name ∈ names members
    · simp [hmem]
    · have hfilter : (names changes).filter (· ∉ names members ++ [name]) =
          ((names changes).filter (· ∉ names members)).filter (!· == name) := by
        rw [List.filter_filter]
        congr 1
        funext other
        by_cases hother : other = name <;> simp [hother]
      rw [if_neg hmem, hfilter, List.filter_cons_of_pos (by simpa using hmem), List.eraseDups_cons,
        List.append_assoc, List.singleton_append]

theorem eraseDups_of_nodup {names : List Text} (h : names.Nodup) : names.eraseDups = names := by
  induction names with
  | nil => rfl
  | cons name names ih =>
    obtain ⟨hfresh, hrest⟩ := List.nodup_cons.mp h
    have hkept : names.filter (!· == name) = names := by
      rw [List.filter_eq_self]
      intro other hother
      simpa using fun heq : other = name => hfresh (heq ▸ hother)
    rw [List.eraseDups_cons, hkept, ih hrest]

/-- An object sets its new names in its own order. -/
theorem names_setAll_of_nodup {changes : Members} (h : (names changes).Nodup) (members : Members) :
    names (setAll members changes) =
      names members ++ (names changes).filter (· ∉ names members) := by
  rw [names_setAll, eraseDups_of_nodup (h.filter _)]

/-! ## Values -/

theorem get?_set (members : Members) (name other : Text) (value : Json) :
    get? (set members name value) other = if other = name then some value else get? members other := by
  split
  · next h => rw [h, get?_set_self]
  · next h => exact get?_set_of_ne members value h

theorem get?_setAll (members changes : Members) (name : Text) :
    get? (setAll members changes) name = (changes.reverse.lookup name).or (get? members name) := by
  induction changes generalizing members with
  | nil => rfl
  | cons change changes ih =>
    obtain ⟨k, v⟩ := change
    rw [setAll_cons, ih, get?_set, List.reverse_cons, List.lookup_append, Option.or_assoc]
    by_cases hk : name = k
    · simp [hk]
    · have hne : (name == k) = false := by simpa using hk
      simp [hk, hne, List.lookup_cons]

theorem lookup_reverse {members : Members} (h : (names members).Nodup) (name : Text) :
    members.reverse.lookup name = members.lookup name := by
  induction members with
  | nil => rfl
  | cons m rest ih =>
    obtain ⟨k, v⟩ := m
    obtain ⟨hfresh, hrest⟩ := List.nodup_cons.mp h
    rw [List.reverse_cons, List.lookup_append, ih hrest, List.lookup_cons]
    by_cases hk : name = k
    · have hnone : rest.lookup k = none := by
        rw [List.lookup_eq_none_iff]
        intro m hm
        exact bne_iff_ne.mpr fun heq => hfresh (List.mem_map.mpr ⟨m, hm, heq.symm⟩)
      simp [hk, hnone]
    · have hne : (name == k) = false := by simpa using hk
      simp [hne, List.lookup_cons]

/-- The changes as an object come before the members. -/
theorem get?_setAll_of_nodup {changes : Members} (h : (names changes).Nodup) (members : Members)
    (name : Text) :
    get? (setAll members changes) name = (get? changes name).or (get? members name) := by
  rw [get?_setAll, lookup_reverse h]
  rfl

end Stencil.Members
