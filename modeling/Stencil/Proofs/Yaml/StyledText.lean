import Stencil.Proofs.Yaml.BlockText
import Stencil.Proofs.Yaml.PlainText

/-!
# Texts in their styles

What the choice of a style promises about a text, and what is known of a name that can stand before
its colon: it is written on one line, which is short.
-/

namespace Stencil.Yaml

open Quoted (SingleQuotable any_isBreak_singleQuotedChar singleQuotedChar)

/-- What a text is that is written in a style. -/
inductive Styled (t : Text) : ScalarStyle → Prop
  | plain (h : Scalar.canBePlain t = true) : Styled t .plain
  | singleQuoted (h : SingleQuotable t) : Styled t .singleQuoted
  | doubleQuoted : Styled t .doubleQuoted
  | literal (ne_nil : t ≠ []) (printable : ∀ d ∈ t, Scalar.isPrintable d = true) : Styled t .literal

theorem Quoted.SingleQuotable.of_canBeSingleQuoted {t : Text}
    (h : Scalar.canBeSingleQuoted t = true)
    (hline : '\n' ∉ t) : SingleQuotable t := by
  simp only [Scalar.canBeSingleQuoted, Bool.and_eq_true, Bool.not_eq_true', List.all_eq_true] at h
  exact ⟨h.1.1, hline, h.1.2, h.2⟩

theorem styled_style (t : Text) : Styled t (Scalar.style t) := by
  rw [Scalar.style]
  by_cases hline : t.contains '\n' = true
  · rw [if_pos hline]
    split
    · next h =>
      simp only [Scalar.canBeLiteral, Bool.and_eq_true, List.all_eq_true] at h
      refine .literal ?_ h.1.1
      rintro rfl
      cases hline
    · exact .doubleQuoted
  · rw [if_neg hline]
    split
    · next h => exact .plain (Bool.and_eq_true_iff.mp h).2
    · split
      · next h => exact .singleQuoted (.of_canBeSingleQuoted h (by simpa using hline))
      · exact .doubleQuoted

/-- A text without line breaks is not written on lines of its own. -/
theorem style_ne_literal {t : Text} (h : t.any isBreak = false) : Scalar.style t ≠ .literal := by
  have hline : t.contains '\n' = false := by
    rw [← Bool.not_eq_true, List.any_eq_true] at h
    rw [← Bool.not_eq_true, List.contains_iff_mem]
    exact fun hmem => h ⟨'\n', hmem, rfl⟩
  rw [Scalar.style, hline, if_neg Bool.false_ne_true]
  split
  · exact nofun
  · split <;> exact nofun

/-! ## Between quotes -/

namespace Quoted

theorem read?_double (t : Text) {r : Text} {column : Nat} {c : Cursor}
    (hrest : c.rest = Scalar.print column t .doubleQuoted ++ r) :
    read? .double c = some (t, c.past (Scalar.print column t .doubleQuoted)) := by
  refine read?_spelled (r := r) (.flatMap doubleCode_doubleQuotedChar t) ?_
  rw [hrest]
  simp [Scalar.print]

theorem read?_single {t r : Text} (ht : SingleQuotable t) (hr : r.head? ≠ some '\'') {column : Nat}
    (hpos : column ≠ 0) {c : Cursor} (hrest : c.rest = Scalar.print column t .singleQuoted ++ r) :
    read? .single c = some (t, c.past (Scalar.print column t .singleQuoted)) := by
  have hprint : Scalar.print column t .singleQuoted =
      '\'' :: (Scalar.lines column true singleQuotedChar false t ++ ['\'']) := rfl
  rw [hprint] at hrest ⊢
  have hnext : c.next.rest = Scalar.lines column true singleQuotedChar false t ++ '\'' :: r := by
    rw [Cursor.next, hrest]
    simp
  have hlength :
      (Scalar.lines column true singleQuotedChar false t).length < c.rest.length + 1 := by
    rw [hrest]
    simp only [List.length_append, List.length_cons]
    omega
  rw [read?, tail?_single ht hr hpos hnext (Nat.succ_ne_zero _) hlength,
    Cursor.past_cons (by decide)]

end Quoted

/-! ## Names on one line -/

theorem lines_of_no_break {t : Text} (h : t.any isBreak = false) (column : Nat)
    (write : Char → Text) : Scalar.lines column true write false t = t.flatMap write := by
  induction t with
  | nil => rfl
  | cons d t ih =>
    obtain ⟨hd, ht⟩ := Bool.or_eq_false_iff.mp h
    rw [Scalar.lines_char hd, ih ht, List.flatMap_cons]

/-- A text without line breaks is written without any, unless it is given lines of its own. -/
theorem any_isBreak_print {t : Text} (h : t.any isBreak = false) (column : Nat) {s : ScalarStyle}
    (hs : s ≠ .literal) : (Scalar.print column t s).any isBreak = false := by
  cases s with
  | plain => exact h
  | literal => exact absurd rfl hs
  | doubleQuoted =>
    simp only [Scalar.print, List.any_cons, List.any_append, Quoted.any_isBreak_flatMap]
    rfl
  | singleQuoted =>
    have hinner : (t.flatMap singleQuotedChar).any isBreak = false := by
      rw [List.any_flatMap, ← Bool.not_eq_true, List.any_eq_true]
      rintro ⟨d, hd, hbreak⟩
      have hd' : isBreak d = false := by
        rw [← Bool.not_eq_true]
        exact fun hd' => Bool.false_ne_true (h.symm.trans (List.any_eq_true.mpr ⟨d, hd, hd'⟩))
      rw [any_isBreak_singleQuotedChar hd'] at hbreak
      cases hbreak
    have hprint : Scalar.print column t .singleQuoted =
        '\'' :: (Scalar.lines column true singleQuotedChar false t ++ ['\'']) := rfl
    rw [hprint, lines_of_no_break h, List.any_cons, List.any_append, hinner]
    rfl

theorem length_doubleQuotedChar_le (d : Char) : (Scalar.doubleQuotedChar d).length ≤ 6 := by
  rw [Scalar.doubleQuotedChar]
  split
  · simp
  · next hplain =>
    split
    · simp
    · split
      · simp [Hexadecimal.length_upperDigits]
      · split
        · simp [Hexadecimal.length_upperDigits]
        · next hwide =>
          -- A character beyond sixteen bits is printable.
          refine absurd ?_ hplain
          have hne {e : Char} (he : e.toNat ≤ 0xFFFF) : d ≠ e := by
            rintro rfl
            exact hwide he
          have hprintable : Scalar.isPrintable d = true := by
            simp only [Scalar.isPrintable, Bool.or_eq_true, decide_eq_true_eq]
            omega
          have hbreak : isBreak d = false := by
            simp only [isBreak, Bool.or_eq_false_iff, decide_eq_false_iff_not]
            refine ⟨⟨⟨⟨hne (by decide), hne (by decide)⟩, ?_⟩, ?_⟩, ?_⟩ <;> omega
          rw [hprintable, hbreak, bne_iff_ne.mpr (hne (by decide)),
            bne_iff_ne.mpr (hne (by decide))]
          rfl

theorem length_flatMap_le {f : Char → Text} {n : Nat} (h : ∀ d, (f d).length ≤ n) (t : Text) :
    (t.flatMap f).length ≤ n * t.length := by
  induction t with
  | nil => exact Nat.zero_le _
  | cons d t ih =>
    have hd := h d
    rw [List.flatMap_cons, List.length_append, List.length_cons, Nat.mul_succ]
    omega

theorem length_le_encode (t : Text) : t.length ≤ (Utf8.encode t).length := by
  induction t with
  | nil => exact Nat.zero_le _
  | cons d t ih =>
    have hd : 0 < (String.utf8EncodeChar d).length := by
      rw [String.length_utf8EncodeChar]
      exact Char.utf8Size_pos d
    rw [Utf8.encode, List.flatMap_cons, List.length_append, List.length_cons, ← Utf8.encode]
    omega

/-- A name that can stand before its colon is written on one line. -/
theorem any_isBreak_printText {name : Text} (h : isSimpleName name = true) (column : Nat) :
    (printText column name).any isBreak = false := by
  have hline : name.any isBreak = false := by
    simpa using (Bool.and_eq_true_iff.mp h).1
  exact any_isBreak_print hline column (style_ne_literal hline)

/-- A name that can stand before its colon takes no more characters than a key may have. -/
theorem length_printText_le {name : Text} (h : isSimpleName name = true) (column : Nat) :
    (printText column name).length ≤ 1024 := by
  obtain ⟨hline, hshort⟩ := Bool.and_eq_true_iff.mp h
  have hline : name.any isBreak = false := by simpa using hline
  have hlength : name.length ≤ 128 :=
    Nat.le_trans (length_le_encode name) (of_decide_eq_true hshort)
  rw [printText]
  have hs := style_ne_literal hline
  cases hstyle : Scalar.style name with
  | literal => exact absurd hstyle hs
  | plain =>
    rw [Scalar.print]
    omega
  | doubleQuoted =>
    have hquoted := length_flatMap_le length_doubleQuotedChar_le name
    rw [Scalar.print, List.length_cons, List.length_append, List.length_singleton]
    omega
  | singleQuoted =>
    have hprint : Scalar.print column name .singleQuoted =
        '\'' :: (Scalar.lines column true singleQuotedChar false name ++ ['\'']) := rfl
    have hchar (d : Char) : (singleQuotedChar d).length ≤ 2 := by
      rw [singleQuotedChar]
      split <;> simp
    have hquoted := length_flatMap_le hchar name
    rw [hprint, lines_of_no_break hline, List.length_cons, List.length_append,
      List.length_singleton]
    omega

end Stencil.Yaml
