import Stencil.Json.Printer
import Stencil.Proofs.Calendar.NumberText
import Stencil.Proofs.Json.Shape
import Stencil.Proofs.Text.Occurrence

/-!
# Texts of values without opening marks

The opening mark of an expression is a pair of braces, and the text of a value has braces of its
own. Main statement: none of these stands beside another, and no escape makes one, so that the text
of a value has a mark only where one of its strings or names has.
-/

namespace Stencil

namespace Template

@[simp] theorem openMark_ne_nil : openMark ≠ [] := List.cons_ne_nil _ _

theorem openMark_infix_cons {c : Char} {t : Text} :
    openMark <:+: c :: t ↔ (c = '\x7b' ∧ t.head? = some '\x7b') ∨ openMark <:+: t := by
  have hprefix : openMark <+: c :: t ↔ c = '\x7b' ∧ t.head? = some '\x7b' := by
    rw [openMark, List.cons_prefix_cons, eq_comm]
    cases t <;> simp [eq_comm]
  rw [List.infix_cons_iff, hprefix]

/-- A mark in two texts, one after the other, is in one of them or is where they meet. -/
theorem openMark_infix_append {t u : Text} :
    openMark <:+: t ++ u ↔ openMark <:+: t ∨ openMark <:+: u ∨
      t.getLast? = some '\x7b' ∧ u.head? = some '\x7b' := by
  induction t with
  | nil => simp
  | cons c t ih =>
    rw [List.cons_append, openMark_infix_cons, openMark_infix_cons, ih]
    cases t with
    | nil => simp [or_comm]
    | cons d t => simp [or_assoc]

/-- A character other than the brace keeps two texts apart. -/
theorem openMark_infix_between {c : Char} (hc : c ≠ '\x7b') {t u : Text} :
    openMark <:+: t ++ c :: u ↔ openMark <:+: t ∨ openMark <:+: u := by
  simp [openMark_infix_append, openMark_infix_cons, hc]

theorem not_openMark_infix_of_not_mem {t : Text} (h : '\x7b' ∉ t) : ¬openMark <:+: t :=
  fun hmark => h (hmark.subset List.mem_cons_self)

end Template

namespace Json
open Template

/-- No string and no name of a member in the value has an opening mark. -/
inductive Unmarked : Json → Prop
  | null : Unmarked .null
  | bool (b : Bool) : Unmarked (.bool b)
  | number (n : Number) : Unmarked (.number n)
  | string {s : Text} (h : ¬openMark <:+: s) : Unmarked (.string s)
  | array {items : List Json} (h : ∀ v ∈ items, Unmarked v) : Unmarked (.array items)
  | object {members : Members} (names : ∀ m ∈ members, ¬openMark <:+: m.1)
      (h : ∀ m ∈ members, Unmarked m.2) : Unmarked (.object members)

/-! ## Strings -/

/-- A character stands for itself or is written with a backslash, and then without a brace. -/
theorem escapeChar_cases (c : Char) :
    escapeChar c = [c] ∨ ∃ t, escapeChar c = '\\' :: t ∧ '\x7b' ∉ t := by
  have hdigits : ∀ n < 32, '\x7b' ∉
      ['u', '0', '0', Hexadecimal.digit (n / 16), Hexadecimal.digit (n % 16)] := by decide
  unfold escapeChar
  iterate 7
    split
    · exact .inr ⟨_, rfl, by decide⟩
  split
  · next hcontrol => exact .inr ⟨_, rfl, hdigits _ hcontrol⟩
  · exact .inl rfl

theorem head?_escaped {s : Text} (h : (s.flatMap escapeChar).head? = some '\x7b') :
    s.head? = some '\x7b' := by
  cases s with
  | nil => cases h
  | cons c s =>
    rw [List.flatMap_cons] at h
    rcases escapeChar_cases c with hself | ⟨t, ht, -⟩
    · rwa [hself] at h
    · rw [ht] at h
      cases h

theorem not_openMark_infix_escaped {s : Text} (h : ¬openMark <:+: s) :
    ¬openMark <:+: s.flatMap escapeChar := by
  induction s with
  | nil => exact h
  | cons c s ih =>
    rw [openMark_infix_cons, not_or] at h
    have hrest := ih h.2
    rw [List.flatMap_cons]
    rcases escapeChar_cases c with hself | ⟨t, ht, hbrace⟩
    · rw [hself, List.singleton_append, openMark_infix_cons, not_or]
      exact ⟨fun hmeet => h.1 ⟨hmeet.1, head?_escaped hmeet.2⟩, hrest⟩
    · have hcode : '\x7b' ∉ '\\' :: t := by simpa using hbrace
      rw [ht, openMark_infix_append]
      rintro (hmark | hmark | ⟨hlast, -⟩)
      · exact not_openMark_infix_of_not_mem hcode hmark
      · exact hrest hmark
      · exact hcode (List.mem_of_getLast? hlast)

theorem not_openMark_infix_printString {s : Text} (h : ¬openMark <:+: s) :
    ¬openMark <:+: printString s := by
  have hescaped := not_openMark_infix_escaped h
  simpa [printString, openMark_infix_cons, openMark_infix_append] using hescaped

/-! ## Values -/

theorem not_openMark_infix_printNumber (n : Number) : ¬openMark <:+: printNumber n :=
  not_openMark_infix_of_not_mem fun hmem => Numeral.forall_numeral_char
    (P := fun c => c ≠ '\x7b') (by decide) (forall_mem_printNumber hmem) rfl

theorem not_openMark_infix_printItems {items : List Json}
    (h : ∀ v ∈ items, ¬openMark <:+: print v) : ¬openMark <:+: printItems items := by
  induction items with
  | nil => simp [printItems]
  | cons v items ih =>
    obtain ⟨hv, hitems⟩ := List.forall_mem_cons.mp h
    cases items with
    | nil => rwa [printItems]
    | cons w items =>
      rw [printItems, openMark_infix_between (by decide), not_or]
      · exact ⟨hv, ih hitems⟩
      · simp

theorem not_openMark_infix_printMembers {members : Members}
    (names : ∀ m ∈ members, ¬openMark <:+: m.1)
    (h : ∀ m ∈ members, ¬openMark <:+: print m.2) : ¬openMark <:+: printMembers members := by
  induction members with
  | nil => simp [printMembers]
  | cons m members ih =>
    obtain ⟨name, value⟩ := m
    obtain ⟨hname, hnames⟩ := List.forall_mem_cons.mp names
    obtain ⟨hvalue, hmembers⟩ := List.forall_mem_cons.mp h
    have hstring := not_openMark_infix_printString hname
    cases members with
    | nil =>
      rw [printMembers, openMark_infix_between (by decide), not_or]
      exact ⟨hstring, hvalue⟩
    | cons m members =>
      rw [printMembers, openMark_infix_between (by decide), openMark_infix_between (by decide),
        not_or, not_or]
      · exact ⟨hstring, hvalue, ih hnames hmembers⟩
      · simp

/-- Members begin with the quote of a name. -/
theorem head?_printMembers_ne (members : Members) :
    (printMembers members ++ ['\x7d']).head? ≠ some '\x7b' := by
  match members with
  | [] => simp [printMembers]
  | [(name, value)] => simp [printMembers, printString]
  | (name, value) :: m :: rest => simp [printMembers, printString]

theorem Unmarked.not_openMark_infix_print {v : Json} (h : v.Unmarked) :
    ¬openMark <:+: print v := by
  induction v using parts_induction with
  | null => exact not_openMark_infix_of_not_mem (by decide)
  | bool b => cases b <;> exact not_openMark_infix_of_not_mem (by decide)
  | number n => exact not_openMark_infix_printNumber n
  | string s =>
    cases h with | string h =>
    exact not_openMark_infix_printString h
  | array items ih =>
    cases h with | array h =>
    have hitems := not_openMark_infix_printItems fun v hv => ih v hv (h v hv)
    simpa [print, openMark_infix_cons, openMark_infix_append] using hitems
  | object members ih =>
    cases h with | object names h =>
    have hmembers := not_openMark_infix_printMembers names fun m hm => ih m hm (h m hm)
    rw [print, openMark_infix_cons, openMark_infix_append]
    rintro (⟨-, hhead⟩ | hmark | hmark | ⟨-, hhead⟩)
    · exact head?_printMembers_ne members hhead
    · exact hmembers hmark
    · exact not_openMark_infix_of_not_mem (by decide) hmark
    · cases hhead

/-- The text of a value without marks has none, whatever its shape is. -/
theorem Unmarked.not_openMark_infix_text {v : Json} (h : v.Unmarked) :
    ¬openMark <:+: v.text := by
  have hprint := h.not_openMark_infix_print
  cases h with
  | null => simp [text]
  | string h => exact h
  | bool b => exact hprint
  | number n => exact hprint
  | array h => exact hprint
  | object names h => exact hprint

end Json
end Stencil
