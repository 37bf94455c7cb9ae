import Stencil.Search

/-!
# The first usable item

Main statement: a search gives the text that the first usable item offers, and the empty text when
there is none. Neither the items behind that one nor unusable items anywhere change the result, and
an object is searched as the array of its values.
-/

namespace Stencil.Search
variable {s : Search} {source : Json} {item found : Json} {items before after : List Json}

/-- The values that are searched: the items of an array or the values of an object, in order. -/
inductive Holds : Json → List Json → Prop
  | array (items : List Json) : Holds (.array items) items
  | object (members : Members) : Holds (.object members) (members.map Prod.snd)

/-- The item is usable: it holds the wanted string at the path and `found` at the output. -/
structure Offers (s : Search) (item found : Json) : Prop where
  wanted : item.atPath? s.path = some (.string s.wanted)
  output : item.atPath? s.output = some found

/-- The item is passed over: it lacks the wanted string or has nothing at the output. -/
def Passes (s : Search) (item : Json) : Prop := ∀ found, ¬ s.Offers item found

/-- What a search through items gives: the text that the first usable one offers, or nothing. -/
inductive Finds (s : Search) : List Json → Text → Prop
  | first {before after : List Json} {item found : Json} (hbefore : ∀ i ∈ before, s.Passes i)
      (h : s.Offers item found) : Finds s (before ++ item :: after) found.text
  | nowhere {items : List Json} (h : ∀ item ∈ items, s.Passes item) : Finds s items []

theorem items?_eq_some_iff : items? source = some items ↔ Holds source items := by
  constructor
  · intro h
    unfold items? at h
    split at h
    · obtain rfl := Option.some.inj h
      exact .array _
    · obtain rfl := Option.some.inj h
      exact .object _
    · cases h
  · intro h
    cases h with
    | array => rfl
    | object => rfl

theorem usable?_eq_some_iff : s.usable? item = some found ↔ s.Offers item found := by
  have hwanted : s.hasWanted item = true ↔ item.atPath? s.path = some (.string s.wanted) :=
    beq_iff_eq
  unfold usable?
  split
  · next h => exact ⟨fun houtput => ⟨hwanted.mp h, houtput⟩, fun hoffers => hoffers.output⟩
  · next h => exact iff_of_false nofun fun hoffers => h (hwanted.mpr hoffers.wanted)

theorem usable?_eq_none_iff : s.usable? item = none ↔ s.Passes item := by
  unfold Passes
  simp only [Option.eq_none_iff_forall_ne_some, ne_eq, usable?_eq_some_iff]

/-! ## Items -/

theorem passes_or_offers (s : Search) (item : Json) :
    s.Passes item ∨ ∃ found, s.Offers item found := by
  by_cases h : ∃ found, s.Offers item found
  · exact .inr h
  · exact .inl (not_exists.mp h)

theorem among_cons_of_passes (h : s.Passes item) : s.among (item :: items) = s.among items := by
  rw [among, among, List.findSome?_cons, usable?_eq_none_iff.mpr h]

theorem among_cons_of_offers (h : s.Offers item found) :
    s.among (item :: items) = found.text := by
  rw [among, List.findSome?_cons, usable?_eq_some_iff.mpr h]

theorem finds_cons_of_passes {text : Text} (hitem : s.Passes item) (h : s.Finds items text) :
    s.Finds (item :: items) text := by
  cases h with
  | first hbefore h => exact .first (List.forall_mem_cons.mpr ⟨hitem, hbefore⟩) h
  | nowhere h => exact .nowhere (List.forall_mem_cons.mpr ⟨hitem, h⟩)

/-- What the search gives is what the first usable item offers. -/
theorem finds_among (s : Search) (items : List Json) : s.Finds items (s.among items) := by
  induction items with
  | nil => exact .nowhere (List.forall_mem_nil _)
  | cons item items ih =>
    rcases s.passes_or_offers item with hitem | ⟨found, hitem⟩
    · rw [among_cons_of_passes hitem]
      exact finds_cons_of_passes hitem ih
    · have hfirst : s.Finds ([] ++ item :: items) found.text :=
        .first (List.forall_mem_nil _) hitem
      rwa [among_cons_of_offers hitem]

theorem among_append_of_passes (hbefore : ∀ i ∈ before, s.Passes i) :
    s.among (before ++ items) = s.among items := by
  induction before with
  | nil => rfl
  | cons item before ih =>
    obtain ⟨hitem, hrest⟩ := List.forall_mem_cons.mp hbefore
    rw [List.cons_append, among_cons_of_passes hitem, ih hrest]

theorem Finds.eq_among {text : Text} (h : s.Finds items text) : text = s.among items := by
  cases h with
  | first hbefore h => rw [among_append_of_passes hbefore, among_cons_of_offers h]
  | nowhere h =>
    have hnone : s.among (items ++ []) = s.among [] := among_append_of_passes h
    rw [List.append_nil] at hnone
    exact hnone.symm

theorem finds_iff {text : Text} : s.Finds items text ↔ s.among items = text := by
  constructor
  · exact fun h => h.eq_among.symm
  · rintro rfl
    exact finds_among s items

/-- The result depends on the items behind a common front only through their own result. -/
theorem among_append_congr {items' : List Json} (h : s.among items = s.among items') :
    s.among (before ++ items) = s.among (before ++ items') := by
  induction before with
  | nil => exact h
  | cons item before ih =>
    rw [List.cons_append, List.cons_append]
    rcases s.passes_or_offers item with hitem | ⟨found, hitem⟩
    · rw [among_cons_of_passes hitem, among_cons_of_passes hitem, ih]
    · rw [among_cons_of_offers hitem, among_cons_of_offers hitem]

/-- An unusable item can be left out wherever it stands. -/
theorem among_insert (hitem : s.Passes item) :
    s.among (before ++ item :: after) = s.among (before ++ after) :=
  among_append_congr (among_cons_of_passes hitem)

/-- What stands behind a usable item does not matter. -/
theorem among_replace (hitem : s.Offers item found) (after' : List Json) :
    s.among (before ++ item :: after) = s.among (before ++ item :: after') := by
  apply among_append_congr
  rw [among_cons_of_offers hitem, among_cons_of_offers hitem]

/-! ## Sources -/

theorem run_of_holds (h : Holds source items) : s.run source = .ok (s.among items) := by
  rw [run, items?_eq_some_iff.mpr h]

theorem run_of_not_holds (h : ¬ ∃ items, Holds source items) :
    s.run source = .error (.illegalArgumentType "find".toList source.kindName) := by
  have hnone : items? source = none :=
    Option.eq_none_iff_forall_not_mem.mpr fun items hitems =>
      h ⟨items, items?_eq_some_iff.mp hitems⟩
  rw [run, hnone]

theorem run_eq_ok_iff {text : Text} (h : Holds source items) :
    s.run source = .ok text ↔ s.Finds items text := by
  rw [run_of_holds h, Except.ok.injEq, finds_iff]

theorem run_eq_error_iff {e : HelperError} :
    s.run source = .error e ↔
      (¬ ∃ items, Holds source items) ∧ e = .illegalArgumentType "find".toList source.kindName := by
  by_cases h : ∃ items, Holds source items
  · obtain ⟨items, hitems⟩ := h
    rw [run_of_holds hitems]
    exact iff_of_false nofun fun hand => hand.1 ⟨items, hitems⟩
  · rw [run_of_not_holds h, Except.error.injEq, and_iff_right h, eq_comm]

/-- A search fails for what is neither an array nor an object, with an error that names its kind.
Otherwise it gives what the first usable item offers, and the empty text when there is none. The
items behind a usable one and the unusable ones wherever they stand do not matter, and an object is
searched as the array of its values. -/
theorem run_finds_first (s : Search) (source : Json) :
    (∀ e, s.run source = .error e ↔
      (¬ ∃ items, Holds source items) ∧
        e = .illegalArgumentType "find".toList source.kindName) ∧
    (∀ items text, Holds source items → (s.run source = .ok text ↔ s.Finds items text)) ∧
    (∀ source' before item found after after', s.Offers item found →
      Holds source (before ++ item :: after) → Holds source' (before ++ item :: after') →
      s.run source = s.run source') ∧
    (∀ source' before item after, s.Passes item →
      Holds source (before ++ item :: after) → Holds source' (before ++ after) →
      s.run source = s.run source') ∧
    ∀ members : Members, s.run (.object members) = s.run (.array (members.map Prod.snd)) := by
  refine ⟨fun e => run_eq_error_iff, fun items text h => run_eq_ok_iff h, ?_, ?_, ?_⟩
  · intro source' before item found after after' hitem h h'
    rw [run_of_holds h, run_of_holds h', among_replace hitem after']
  · intro source' before item after hitem h h'
    rw [run_of_holds h, run_of_holds h', among_insert hitem]
  · intro members
    rw [run_of_holds (.object members), run_of_holds (.array _)]

/-- Neither a number nor a match with nothing at the output ends the search. -/
example :
    (⟨"id".toList, "1".toList, "label".toList⟩ : Search).run
      (.object [("a".toList, .object [("id".toList, .number (.integer 1 (by decide)))]),
        ("b".toList, .object [("id".toList, .string "1".toList)]),
        ("c".toList, .object [("id".toList, .string "1".toList),
          ("label".toList, .string "third".toList)])]) = .ok "third".toList := rfl

end Stencil.Search
