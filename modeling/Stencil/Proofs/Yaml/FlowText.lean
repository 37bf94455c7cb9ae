import Stencil.Proofs.Json.Grammar
import Stencil.Proofs.Yaml.PlainNumeral

/-!
# Blanks and words between brackets

Between brackets a text can be broken into lines anywhere, with any indentation, so that the blanks
of JSON are blanks here too. The words of JSON, which are its numbers, truth values and null, are
plain texts that end before a blank or a mark of the brackets.
-/

namespace Stencil.Yaml

/-! ## Blanks -/

theorem space_or_break_of_blank {d : Char} (h : Json.isSpace d = true) :
    (isSpace d = true ∧ isBreak d = false) ∨ d = '\n' ∨ d = '\r' := by
  simp only [Json.isSpace, Bool.or_eq_true, decide_eq_true_eq] at h
  rcases h with ((rfl | rfl) | rfl) | rfl
  · exact .inl ⟨rfl, rfl⟩
  · exact .inr (.inl rfl)
  · exact .inl ⟨rfl, rfl⟩
  · exact .inr (.inr rfl)

/-- A break takes one character of the blanks, or the two that end a line together. -/
theorem Cursor.lineBreak?_blank {c : Cursor} {b : Char} {t r : Text} (hb : b = '\n' ∨ b = '\r')
    (hr : EndsGap r) (hrest : c.rest = b :: (t ++ r)) :
    ∃ d after t', c.lineBreak? = some (d, after) ∧ after.rest = t' ++ r ∧ t' <:+ t := by
  have hone (h : c.lineBreak? = some ('\n', ⟨t ++ r, c.index + 1, c.line + 1, 0⟩)) :
      ∃ d after t', c.lineBreak? = some (d, after) ∧ after.rest = t' ++ r ∧ t' <:+ t :=
    ⟨'\n', ⟨t ++ r, c.index + 1, c.line + 1, 0⟩, t, h, rfl, List.suffix_refl t⟩
  rcases hb with rfl | rfl
  · refine hone ?_
    rw [lineBreak?, hrest]
    rfl
  · cases t with
    | nil =>
      refine hone ?_
      rw [lineBreak?, hrest]
      cases r with
      | nil => rfl
      | cons e r =>
        have he : e ≠ '\n' := by
          rintro rfl
          exact absurd (hr '\n' rfl).2 (by decide)
        simp [he, isBreak]
    | cons e t =>
      by_cases he : e = '\n'
      · subst he
        refine ⟨'\n', ⟨t ++ r, c.index + 2, c.line + 1, 0⟩, t, ?_, rfl, List.suffix_cons '\n' t⟩
        rw [lineBreak?, hrest]
        rfl
      · refine hone ?_
        rw [lineBreak?, hrest]
        simp [he, isBreak]

/-- A gap goes over all blanks of JSON, when tabs may stand in each column. -/
theorem Gap.extend?_blank {t r : Text} (ht : Json.IsBlank t) (hr : EndsGap r) {fuel : Nat}
    (hfuel : t.length < fuel) (gap : Gap) {c : Cursor} (hrest : c.rest = t ++ r) :
    ∃ next after, extend? 0 fuel gap c = some (next, after) ∧ after.rest = r := by
  induction hlength : t.length using Nat.strongRecOn generalizing t fuel gap c with
  | ind length ih =>
    obtain ⟨fuel, rfl⟩ := Nat.exists_eq_succ_of_ne_zero (n := fuel) (by omega)
    cases t with
    | nil => exact ⟨gap, c, extend?_end (by rwa [hrest]) 0 fuel gap, hrest⟩
    | cons d t =>
      obtain ⟨hd, ht⟩ := List.forall_mem_cons.mp ht
      rw [List.length_cons] at hlength hfuel
      rcases space_or_break_of_blank hd with ⟨hspace, hbreak⟩ | hbreak
      · have hnone : c.lineBreak? = none := by
          refine Cursor.lineBreak?_eq_none fun e he => ?_
          rw [hrest] at he
          obtain rfl : d = e := Option.some.inj he
          exact hbreak
        have hnext : c.next.rest = t ++ r := by
          rw [Cursor.next, hrest]
          rfl
        obtain ⟨next, after, hread, hafter⟩ :=
          ih t.length (by omega) ht (show t.length < fuel by omega) (gap.addSpace d) hnext rfl
        refine ⟨next, after, ?_, hafter⟩
        rw [extend?, hnone]
        dsimp only
        rw [hrest]
        simpa [hspace] using hread
      · obtain ⟨e, middle, t', hbreak, hmiddle, hsuffix⟩ := Cursor.lineBreak?_blank hbreak hr hrest
        have hle := hsuffix.length_le
        obtain ⟨next, after, hread, hafter⟩ := ih t'.length (by omega)
          (fun d hd => ht d (hsuffix.mem hd)) (show t'.length < fuel by omega)
          (gap.addBreak e) hmiddle
          rfl
        refine ⟨next, after, ?_, hafter⟩
        rw [extend?, hbreak]
        exact hread

/-! ## Words -/

/-- The characters of numbers, truth values and null. -/
def wordChars : Text := "-0123456789aeflnrstu".toList

/-- What holds of these characters holds of each of them. -/
theorem forall_wordChars {P : Char → Prop} [DecidablePred P]
    (h : wordChars.all (fun d => P d) = true) {d : Char} (hd : d ∈ wordChars) : P d :=
  of_decide_eq_true (List.all_eq_true.mp h d hd)

/-- A text without quotes that stands for a value other than a text. -/
structure IsWord (t : Text) : Prop where
  plain : Scalar.canBePlain t = true
  chars : ∀ d ∈ t, d ∈ wordChars

theorem isWord_ofInt (n : Int) : IsWord (Numeral.ofInt n) where
  plain := canBePlain_ofInt n
  chars d hd :=
    of_decide_eq_true (forall_ofInt_char (p := fun d => d ∈ wordChars) (by decide) n d hd)

theorem isWord_of_all {t : Text} (hplain : Scalar.canBePlain t = true)
    (hall : t.all (fun d => d ∈ wordChars) = true) : IsWord t :=
  ⟨hplain, fun d hd => of_decide_eq_true (List.all_eq_true.mp hall d hd)⟩

theorem isWord_null : IsWord "null".toList := isWord_of_all (by decide) (by decide)

theorem isWord_bool (b : Bool) : IsWord (if b then "true".toList else "false".toList) := by
  cases b <;> exact isWord_of_all (by decide) (by decide)

/-- Whether a word between brackets ends before the text. -/
def EndsWord (r : Text) : Prop :=
  ∀ d ∈ r.head?, isSpace d = true ∨ isBreak d = true ∨ isFlowMark d = true

theorem endsWord_of_flowMark {r : Text} (hr : ∀ d ∈ r.head?, isFlowMark d = true) : EndsWord r :=
  fun d hd => .inr (.inr (hr d hd))

theorem endsWord_blank {t r : Text} (ht : Json.IsBlank t)
    (hr : ∀ d ∈ r.head?, isFlowMark d = true) : EndsWord (t ++ r) := by
  cases t with
  | nil => exact endsWord_of_flowMark hr
  | cons d t =>
    rintro e ⟨⟩
    rcases space_or_break_of_blank (ht d List.mem_cons_self) with h | rfl | rfl
    · exact .inl h.1
    · exact .inr (.inl rfl)
    · exact .inr (.inl rfl)

theorem endsGap_of_flowMark {r : Text} (hr : ∀ d ∈ r.head?, isFlowMark d = true) : EndsGap r := by
  intro d hd
  have hmark := hr d hd
  simp only [isFlowMark, Bool.or_eq_true, decide_eq_true_eq] at hmark
  rcases hmark with (((rfl | rfl) | rfl) | rfl) | rfl <;> exact ⟨rfl, rfl⟩

namespace Plain

theorem word?_end_flow {c : Cursor} (h : EndsWord c.rest) (fuel : Nat) :
    word? true (fuel + 1) c = some ([], c) := by
  rw [word?]
  cases hrest : c.rest with
  | nil => rfl
  | cons d r =>
    rw [hrest] at h
    rcases h d rfl with h | h | h
    · simp [h]
    · simp [h]
    · have hcolon : d ≠ ':' := by
        rintro rfl
        cases h
      simp [h, hcolon]

theorem word?_flow {w r : Text} (hw : ∀ d ∈ w, d ∈ wordChars) (hr : EndsWord r) {fuel : Nat}
    (hfuel : w.length < fuel) {c : Cursor} (hrest : c.rest = w ++ r) :
    ∃ after, word? true fuel c = some (w, after) ∧ after.rest = r := by
  induction w generalizing fuel c with
  | nil =>
    obtain ⟨fuel, rfl⟩ := Nat.exists_eq_succ_of_ne_zero (Nat.ne_of_gt hfuel)
    exact ⟨c, word?_end_flow (by rwa [hrest]) fuel, hrest⟩
  | cons d w ih =>
    rw [List.length_cons] at hfuel
    obtain ⟨fuel, rfl⟩ := Nat.exists_eq_succ_of_ne_zero (n := fuel) (by omega)
    obtain ⟨hd, hw⟩ := List.forall_mem_cons.mp hw
    obtain ⟨hspace, hbreak, hcolon, hmark⟩ := forall_wordChars
      (P := fun d => isSpace d = false ∧ isBreak d = false ∧ d ≠ ':' ∧ isFlowMark d = false)
      (by decide) hd
    have hnext : c.next.rest = w ++ r := by
      rw [Cursor.next, hrest]
      rfl
    obtain ⟨after, hread, hafter⟩ := ih hw (show w.length < fuel by omega) hnext
    refine ⟨after, ?_, hafter⟩
    rw [word?, hrest]
    simp [hspace, hbreak, hcolon, hmark, hread]

/-- No further word starts where the brackets go on. -/
theorem words?_end_flow {c : Cursor} (h : EndsWord c.rest) (fuel : Nat) (gap : Gap) :
    words? true 0 (fuel + 1) gap c = some ⟨[], gap.isBroken, c⟩ := by
  rw [words?]
  split
  · rfl
  · rw [word?_end_flow h]
    rfl

/-- A word is read with the blanks after it, up to a mark of the brackets. -/
theorem read?_flow {w t r : Text} (hw : IsWord w) (ht : Json.IsBlank t)
    (hr : ∀ d ∈ r.head?, isFlowMark d = true) {c : Cursor} (hmark : c.atDocumentMark = false)
    (hrest : c.rest = w ++ (t ++ r)) :
    ∃ broken after, read? true 0 c = some ⟨w, broken, after⟩ ∧ after.rest = r := by
  have hne := (Wordlike.of_canBePlain hw.plain).ne_nil
  have hcomment : ¬(c.atDocumentMark || decide (c.rest.head? = some '#')) = true := by
    rw [hmark, hrest]
    simpa [hne] using (Wordlike.of_canBePlain hw.plain).head_ne.2
  obtain ⟨middle, hword, hmiddle⟩ := word?_flow hw.chars (endsWord_blank ht hr)
    (show w.length < c.rest.length + 1 by rw [hrest, List.length_append]; omega) hrest
  obtain ⟨next, after, hgap, hafter⟩ := Gap.extend?_blank ht (endsGap_of_flowMark hr)
    (show t.length < middle.rest.length + 1 by rw [hmiddle, List.length_append]; omega)
    .empty hmiddle
  have hgap' : Gap.read? 0 .empty middle = some (next, after) := hgap
  have hlast : EndsWord after.rest := by
    rw [hafter]
    exact endsWord_of_flowMark hr
  obtain ⟨fuel, hfuel⟩ : ∃ fuel, c.rest.length = fuel + 1 := by
    refine Nat.exists_eq_succ_of_ne_zero (Nat.ne_of_gt ?_)
    rw [hrest, List.length_append]
    exact Nat.add_pos_left (List.length_pos_iff.mpr hne) _
  have hsome : w.isEmpty = false := List.isEmpty_eq_false_iff.mpr hne
  rw [read?, words?, if_neg hcomment, hword]
  simp only [Option.bind_eq_bind, Option.bind_some, hsome, Bool.false_eq_true, if_false, hgap',
    Bool.not_true, Bool.false_and, hfuel, words?_end_flow hlast, Option.map_some, List.append_nil]
  split
  · exact ⟨false, after, rfl, hafter⟩
  · exact ⟨next.isBroken, after, rfl, hafter⟩

end Plain
end Stencil.Yaml
