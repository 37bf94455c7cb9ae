import Stencil.Json.Printer
import Stencil.Proofs.Json.GrammarReader

/-!
# Reading indented text

The indented text of a value is one that the grammar gives for it, with blanks between the tokens
and an escape wherever one is needed. Main statement: a reader that allows a given nesting reads the
text of a value of integers with distinct names exactly when the value is nested no deeper.
-/

namespace Stencil.Json

/-! ## Indented text as a text of the grammar -/

theorem charCode_escapeChar (c : Char) : CharCode c (escapeChar c) := by
  unfold escapeChar
  split
  · next h => exact .letter (by rw [h]; rfl)
  split
  · next h => exact .letter (by rw [h]; rfl)
  split
  · next h => exact .letter (by rw [h]; rfl)
  split
  · next h => exact .letter (by rw [h]; rfl)
  split
  · next h => exact .letter (by rw [h]; rfl)
  split
  · next h => exact .letter (by rw [← Char.ofNat_toNat c, h]; rfl)
  split
  · next h => exact .letter (by rw [← Char.ofNat_toNat c, h]; rfl)
  split
  · next h =>
    have hzero : Hexadecimal.digitValue? '0' = some 0 := rfl
    have hhigh := Hexadecimal.digitValue?_digit (c.toNat / 16) (by omega)
    have hlow := Hexadecimal.digitValue?_digit (c.toNat % 16) (by omega)
    have hsum : c.toNat / 16 * 16 + c.toNat % 16 = c.toNat := by omega
    exact .digits (by simp [Hexadecimal.take?, hzero, hhigh, hlow, hsum])
  · next hquote hslash _ _ _ _ _ hcontrol =>
    exact .raw (Nat.not_lt.mp hcontrol) hquote hslash

theorem isBlank_newline (depth : Nat) : IsBlank (newline depth) := by
  intro c hc
  rcases List.mem_cons.mp hc with rfl | hc
  · rfl
  · rw [List.eq_of_mem_replicate hc]
    rfl

theorem printIndentedItems_cons (depth : Nat) (v w : Json) (items : List Json) :
    printIndentedItems depth (v :: w :: items) =
      newline depth ++ (printIndented depth v ++ ',' :: printIndentedItems depth (w :: items)) := by
  simp [printIndentedItems]

/-- The text of a member without the start of its line. -/
def memberText (depth : Nat) (m : Text × Json) : Text :=
  printString m.1 ++ ':' :: ' ' :: printIndented depth m.2

theorem printIndentedMembers_singleton (depth : Nat) (m : Text × Json) :
    printIndentedMembers depth [m] = newline depth ++ memberText depth m := by
  simp [printIndentedMembers, memberText]

theorem printIndentedMembers_cons (depth : Nat) (m m' : Text × Json) (members : Members) :
    printIndentedMembers depth (m :: m' :: members) =
      newline depth ++
        (memberText depth m ++ ',' :: printIndentedMembers depth (m' :: members)) := by
  simp [printIndentedMembers, memberText]

theorem spelled_escapeChar (s : Text) : Spelled Spelling.standard.code s (s.flatMap escapeChar) :=
  .flatMap charCode_escapeChar s

/-- Whether the grammar gives the indented text for a value, wherever it stands. -/
def WritesIndented (v : Json) : Prop :=
  ∀ d r, Starts .standard (.value v) (printIndented d v ++ r) r

/-- Items on lines of their own, up to the line of the closing bracket. -/
theorem starts_printIndentedItems {items : List Json} (hne : items ≠ [])
    (hitems : ∀ v ∈ items, WritesIndented v) (d e : Nat) (r : Text) :
    Starts .standard (.elements items) (printIndentedItems d items ++ (newline e ++ r)) r := by
  induction items with
  | nil => exact absurd rfl hne
  | cons v items ih =>
    obtain ⟨hv, hfurther⟩ := List.forall_mem_cons.mp hitems
    cases items with
    | nil =>
      rw [printIndentedItems, List.append_assoc]
      exact .lastElement (.element (isBlank_newline d) (hv d _) (isBlank_newline e))
    | cons w items =>
      rw [printIndentedItems_cons, List.append_assoc, List.append_assoc, List.cons_append]
      exact .elements (.element (isBlank_newline d) (hv d _) isBlank_nil)
        (ih (List.cons_ne_nil w items) hfurther)

theorem starts_memberText {m : Text × Json} (hm : WritesIndented m.2) (d : Nat) {after : Text}
    (hafter : IsBlank after) (r : Text) :
    Starts .standard (.member m.1 m.2) (newline d ++ (memberText d m ++ (after ++ r))) r := by
  have hvalue : Starts .standard (.element m.2)
      ([' '] ++ (printIndented d m.2 ++ (after ++ r))) r :=
    .element (List.forall_mem_singleton.mpr rfl) (hm d _) hafter
  have hmember := Starts.member (isBlank_newline d)
    (spelled_escapeChar m.1) isBlank_nil hvalue
  simpa [memberText, printString] using hmember

/-- Members on lines of their own, up to the line of the closing brace. -/
theorem starts_printIndentedMembers {members : Members} (hne : members ≠ [])
    (hmembers : ∀ m ∈ members, WritesIndented m.2) (d e : Nat) (r : Text) :
    Starts .standard (.members members) (printIndentedMembers d members ++ (newline e ++ r)) r := by
  induction members with
  | nil => exact absurd rfl hne
  | cons m members ih =>
    obtain ⟨hm, hfurther⟩ := List.forall_mem_cons.mp hmembers
    cases members with
    | nil =>
      rw [printIndentedMembers_singleton, List.append_assoc]
      exact .lastMember (starts_memberText hm d (isBlank_newline e) r)
    | cons m' members =>
      rw [printIndentedMembers_cons, List.append_assoc, List.append_assoc, List.cons_append]
      exact .members (starts_memberText hm d isBlank_nil _)
        (ih (List.cons_ne_nil m' members) hfurther)

theorem writesIndented {v : Json} (hv : Integral v) : WritesIndented v := by
  induction v using parts_induction with
  | null => exact fun d r => .null r
  | bool b => cases b <;> exact fun d r => .bool _ r
  | number n =>
    cases hv with
    | integer n exact => exact fun d r => .integer n exact r
  | string s =>
    intro d r
    have hstring := Starts.string (spelled_escapeChar s) r
    simpa [printIndented, print, printString] using hstring
  | array items ih =>
    intro d r
    cases hv with | array hv =>
    cases items with
    | nil => exact .emptyArray isBlank_nil r
    | cons v items =>
      rw [printIndented, List.cons_append, List.append_assoc, List.append_assoc]
      exact .array (starts_printIndentedItems (List.cons_ne_nil v items)
        (fun v hv' => ih v hv' (hv v hv')) (d + 1) d _)
  | object members ih =>
    intro d r
    cases hv with | object hv =>
    cases members with
    | nil => exact .emptyObject isBlank_nil r
    | cons m members =>
      rw [printIndented, List.cons_append, List.append_assoc, List.append_assoc]
      exact .object (starts_printIndentedMembers (List.cons_ne_nil m members)
        (fun m hm => ih m hm (hv m hm)) (d + 1) d _)

/-- The text of a value, with blanks after it, is read by a reader that allows its nesting. -/
theorem parseWithin?_printIndented {v : Json} (hintegral : Integral v) (hnames : WellNamed v)
    {depth : Nat} (hdepth : NestedWithin depth v) :
    parseWithin? depth (printIndented 0 v ++ ['\n']) = some v := by
  have hblank : IsBlank ['\n'] := List.forall_mem_singleton.mpr rfl
  have hwrites : Writes .standard v ([] ++ (printIndented 0 v ++ ['\n'])) :=
    .element isBlank_nil (writesIndented hintegral 0 (['\n'] ++ [])) hblank
  rw [List.nil_append] at hwrites
  rw [hwrites.parseWithin? hdepth, settled_of_wellNamed hnames]

/-! ## Nesting of what is read -/

/-- A reader with this fuel gives values within the nesting that it allows. -/
structure StaysWithin (fuel : Nat) : Prop where
  value {depth : Nat} {t rest : Text} {v : Json} (h : value? fuel depth t = some (v, rest)) :
    NestedWithin depth v
  items {depth : Nat} {t rest : Text} {items : List Json}
    (h : items? fuel depth t = some (items, rest)) : ∀ v ∈ items, NestedWithin depth v
  members {depth : Nat} {t rest : Text} {read members : Members}
    (hread : ∀ m ∈ read, NestedWithin depth m.2)
    (h : members? fuel depth read t = some (members, rest)) :
    ∀ m ∈ members, NestedWithin depth m.2

section

variable {fuel depth : Nat} {t rest : Text}

/-- Each bracket or brace takes one of the levels that are allowed. -/
theorem StaysWithin.value_succ (hfuel : StaysWithin fuel) {v : Json}
    (h : value? (fuel + 1) depth t = some (v, rest)) : NestedWithin depth v := by
  unfold value? at h
  split at h
  · cases h
    exact .null depth
  · cases h
    exact .bool depth true
  · cases h
    exact .bool depth false
  · obtain ⟨⟨s, rest⟩, -, h⟩ := Option.map_eq_some_iff.mp h
    cases h
    exact .string depth s
  · cases depth with
    | zero => cases h
    | succ depth =>
      rw [if_neg (Nat.succ_ne_zero depth)] at h
      split at h
      · cases h
        exact .array (List.forall_mem_nil _)
      · obtain ⟨⟨items, rest⟩, hread, h⟩ := Option.map_eq_some_iff.mp h
        cases h
        exact .array (hfuel.items hread)
  · cases depth with
    | zero => cases h
    | succ depth =>
      rw [if_neg (Nat.succ_ne_zero depth)] at h
      split at h
      · cases h
        exact .object (List.forall_mem_nil _)
      · obtain ⟨⟨members, rest⟩, hread, h⟩ := Option.map_eq_some_iff.mp h
        cases h
        exact .object (hfuel.members (List.forall_mem_nil _) hread)
  · obtain ⟨⟨n, rest⟩, -, h⟩ := Option.map_eq_some_iff.mp h
    cases h
    exact .number depth n

theorem StaysWithin.items_succ (hfuel : StaysWithin fuel) {items : List Json}
    (h : items? (fuel + 1) depth t = some (items, rest)) : ∀ v ∈ items, NestedWithin depth v := by
  rw [items?] at h
  obtain ⟨⟨item, after⟩, hitem, h⟩ := Option.bind_eq_some_iff.mp h
  have hfirst := hfuel.value hitem
  dsimp only at h
  split at h
  · cases h
    exact List.forall_mem_singleton.mpr hfirst
  · obtain ⟨⟨further, rest'⟩, hfurther, h⟩ := Option.bind_eq_some_iff.mp h
    cases h
    exact List.forall_mem_cons.mpr ⟨hfirst, hfuel.items hfurther⟩
  · cases h

theorem StaysWithin.members_succ (hfuel : StaysWithin fuel) {read members : Members}
    (hread : ∀ m ∈ read, NestedWithin depth m.2)
    (h : members? (fuel + 1) depth read t = some (members, rest)) :
    ∀ m ∈ members, NestedWithin depth m.2 := by
  rw [members?] at h
  obtain ⟨⟨name, after⟩, -, h⟩ := Option.bind_eq_some_iff.mp h
  dsimp only at h
  split at h
  · obtain ⟨⟨value, after⟩, hfirst, h⟩ := Option.bind_eq_some_iff.mp h
    have hset := Members.forall_set hread (hfuel.value hfirst) name
    dsimp only at h
    split at h
    · cases h
      exact hset
    · exact hfuel.members hset h
    · cases h
  · cases h

end

/-- A reader gives values within the nesting that it allows. -/
theorem staysWithin (fuel : Nat) : StaysWithin fuel := by
  induction fuel with
  | zero => exact ⟨by simp [value?], by simp [items?], by simp [members?]⟩
  | succ fuel ih => exact ⟨ih.value_succ, ih.items_succ, ih.members_succ⟩

theorem nestedWithin_of_parseWithin? {depth : Nat} {t : Text} {v : Json}
    (h : parseWithin? depth t = some v) : NestedWithin depth v := by
  obtain ⟨⟨value, rest⟩, hread, h⟩ := Option.bind_eq_some_iff.mp h
  dsimp only at h
  split at h
  · cases h
    exact (staysWithin _).value hread
  · cases h

/-- The text of a value is read exactly by the readers that allow its nesting. -/
theorem parseWithin?_printIndented_iff {v : Json} (hintegral : Integral v) (hnames : WellNamed v)
    (depth : Nat) :
    parseWithin? depth (printIndented 0 v ++ ['\n']) = some v ↔ NestedWithin depth v :=
  ⟨nestedWithin_of_parseWithin?, parseWithin?_printIndented hintegral hnames⟩

end Stencil.Json
