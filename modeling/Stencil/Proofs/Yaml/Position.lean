import Mathlib.Tactic.Common
import Stencil.Yaml.Gap
import Stencil.Yaml.Scalar

/-!
# Positions after a text

The position that a reader comes to when it passes over a text, line by line. A gap passes over its
blanks and breaks, and keeps what they mean.
-/

namespace Stencil.Yaml

namespace Cursor

/-- The position after a text that stands here. Each break ends a line by itself. -/
def past : Text → Cursor → Cursor
  | [], c => c
  | d :: t, c =>
    past t (if isBreak d then ⟨c.rest.tail, c.index + 1, c.line + 1, 0⟩ else c.next)

@[simp] theorem past_nil (c : Cursor) : past [] c = c := rfl

theorem past_cons_break {d : Char} (h : isBreak d = true) (t : Text) (c : Cursor) :
    past (d :: t) c = past t ⟨c.rest.tail, c.index + 1, c.line + 1, 0⟩ := by
  rw [past, if_pos h]

theorem past_cons {d : Char} (h : isBreak d = false) (t : Text) (c : Cursor) :
    past (d :: t) c = past t c.next := by
  rw [past, if_neg (by simp [h])]

theorem past_append (s t : Text) (c : Cursor) : past (s ++ t) c = past t (past s c) := by
  induction s generalizing c with
  | nil => rfl
  | cons d s ih => rw [List.cons_append, past, ih, past]

theorem rest_past (t : Text) (c : Cursor) : (past t c).rest = c.rest.drop t.length := by
  induction t generalizing c with
  | nil => rfl
  | cons d t ih =>
    rw [past, ih]
    split <;> simp [next]

theorem rest_past_of_eq {t r : Text} {c : Cursor} (h : c.rest = t ++ r) : (past t c).rest = r := by
  rw [rest_past, h, List.drop_left]

@[simp] theorem index_past (t : Text) (c : Cursor) : (past t c).index = c.index + t.length := by
  induction t generalizing c with
  | nil => rfl
  | cons d t ih =>
    rw [past, ih, List.length_cons]
    split <;> simp only [next] <;> omega

theorem line_le_past (t : Text) (c : Cursor) : c.line ≤ (past t c).line := by
  induction t generalizing c with
  | nil => exact Nat.le_refl _
  | cons d t ih =>
    rw [past]
    refine Nat.le_trans ?_ (ih _)
    split <;> simp [next]

/-- A text with a break ends on a later line. -/
theorem line_lt_past {t : Text} (h : t.any isBreak = true) (c : Cursor) :
    c.line < (past t c).line := by
  induction t generalizing c with
  | nil => simp at h
  | cons d t ih =>
    cases hd : isBreak d with
    | true =>
      rw [past_cons_break hd]
      exact line_le_past t ⟨c.rest.tail, c.index + 1, c.line + 1, 0⟩
    | false =>
      rw [past_cons hd]
      exact ih (by simpa [hd] using h) c.next

theorem skip_zero (c : Cursor) : c.skip 0 = c := rfl

theorem skip_one (c : Cursor) : c.skip 1 = c.next := by rw [skip, next, List.drop_one]

theorem past_of_no_break {t : Text} (h : t.any isBreak = false) (c : Cursor) :
    past t c = c.skip t.length := by
  induction t generalizing c with
  | nil => rfl
  | cons d t ih =>
    simp only [List.any_cons, Bool.or_eq_false_iff] at h
    rw [past_cons h.1, ih h.2]
    simp only [skip, next, List.length_cons, List.drop_tail, Cursor.mk.injEq, true_and]
    omega

theorem line_past {t : Text} (h : t.any isBreak = false) (c : Cursor) :
    (past t c).line = c.line := by
  rw [past_of_no_break h]
  rfl

theorem column_past {t : Text} (h : t.any isBreak = false) (c : Cursor) :
    (past t c).column = c.column + t.length := by
  rw [past_of_no_break h]
  rfl

/-- A line starts after a break. -/
theorem column_past_line {s t : Text} {b : Char} (hb : isBreak b = true)
    (ht : t.any isBreak = false) (c : Cursor) : (past (s ++ b :: t) c).column = t.length := by
  rw [past_append, past_cons_break hb, column_past ht]
  exact Nat.zero_add _

/-- A line starts after the last of several breaks. -/
theorem column_past_breaks {s bs t : Text} {b : Char} (hbs : ∀ d ∈ b :: bs, isBreak d = true)
    (ht : t.any isBreak = false) (c : Cursor) :
    (past (s ++ b :: (bs ++ t)) c).column = t.length := by
  obtain ⟨front, last, hlast⟩ : ∃ front last, b :: bs = front ++ [last] :=
    ⟨_, _, (List.dropLast_concat_getLast (List.cons_ne_nil b bs)).symm⟩
  have hsplit : s ++ b :: (bs ++ t) = (s ++ front) ++ last :: t := by
    rw [← List.cons_append, hlast]
    simp
  rw [hsplit]
  exact column_past_line (hbs last (by simp [hlast])) ht c

theorem column_ne_zero_past {t : Text} (h : t.any isBreak = false) {c : Cursor}
    (hc : c.column ≠ 0) : (past t c).column ≠ 0 := by
  rw [column_past h]
  omega

/-- A run goes up to a break or to a character that does not satisfy the property. -/
theorem run_eq {p : Char → Bool} {s r : Text} {c : Cursor} (hrest : c.rest = s ++ r)
    (hs : ∀ d ∈ s, p d = true ∧ isBreak d = false)
    (hr : ∀ d ∈ r.head?, p d = false ∨ isBreak d = true) : c.run p = s := by
  have hall : ∀ d ∈ s, (p d && !isBreak d) = true := fun d hd => by simp [hs d hd]
  rw [run, hrest, List.takeWhile_append_of_pos hall]
  cases r with
  | nil => simp
  | cons d r =>
    have hd : (p d && !isBreak d) = false := by rcases hr d rfl with h | h <;> simp [h]
    rw [List.takeWhile_cons, hd, if_neg Bool.false_ne_true, List.append_nil]

/-! ## Breaks -/

theorem eq_of_toNat {c : Char} {n : Nat} (h : c.toNat = n) : c = Char.ofNat n := by
  rw [← h, Char.ofNat_toNat]

/-- A break that is written without an escape is a line feed or means itself. -/
theorem eq_lineFeed_or_of_printable {d : Char} (hp : Scalar.isPrintable d = true)
    (hb : isBreak d = true) : d = '\n' ∨ d.toNat = 0x2028 ∨ d.toNat = 0x2029 := by
  simp only [isBreak, Bool.or_eq_true, decide_eq_true_eq] at hb
  rcases hb with (((rfl | rfl) | h) | h) | h
  · exact .inl rfl
  · exact absurd hp (by decide)
  · rw [eq_of_toNat h] at hp
    exact absurd hp (by decide)
  · exact .inr (.inl h)
  · exact .inr (.inr h)

theorem lineBreak?_of_printable {c : Cursor} {d : Char} {r : Text} (h : c.rest = d :: r)
    (hp : Scalar.isPrintable d = true) (hb : isBreak d = true) :
    c.lineBreak? = some (d, c.past [d]) := by
  have hd : d ≠ '\r' := by
    rintro rfl
    exact absurd hp (by decide)
  have hmeaning : (if d.toNat < 0x2028 then '\n' else d) = d := by
    rcases eq_lineFeed_or_of_printable hp hb with rfl | h | h
    · rfl
    · rw [if_neg (by omega)]
    · rw [if_neg (by omega)]
  rw [past_cons_break hb, past_nil, lineBreak?, h]
  split
  · next heq => exact absurd (List.cons.inj heq).1 hd
  · next heq =>
    obtain ⟨rfl, rfl⟩ := List.cons.inj heq
    rw [if_pos hb, hmeaning]
    rfl
  · next heq => cases heq

theorem lineBreak?_eq_none {c : Cursor} (h : ∀ d ∈ c.rest.head?, isBreak d = false) :
    c.lineBreak? = none := by
  rw [lineBreak?]
  split
  · next heq =>
    rw [heq] at h
    exact absurd (h _ rfl) (by decide)
  · next heq =>
    rw [heq] at h
    rw [if_neg (by simpa using h _ rfl)]
  · rfl

/-- No document starts or ends within a line. -/
theorem atDocumentMark_of_column {c : Cursor} (h : c.column ≠ 0) : c.atDocumentMark = false := by
  simp [atDocumentMark, atMark, h]

end Cursor

/-! ## Lines -/

namespace Scalar
section
variable {column : Nat} {closed fresh : Bool} {write : Char → Text} {d : Char} {t : Text}

theorem lines_char (hd : isBreak d = false) :
    lines column closed write false (d :: t) = write d ++ lines column closed write false t := by
  rw [lines, if_neg (by simp [hd])]
  simp

theorem lines_breaks {bs : Text} (hbs : ∀ b ∈ bs, isBreak b = true) (hne : bs ≠ []) :
    lines column closed write fresh (bs ++ t) = bs ++ lines column closed write true t := by
  induction bs generalizing fresh with
  | nil => exact absurd rfl hne
  | cons b bs ih =>
    obtain ⟨hb, hbs⟩ := List.forall_mem_cons.mp hbs
    rw [List.cons_append, lines, if_pos hb]
    cases bs with
    | nil => rfl
    | cons b' bs => rw [ih hbs (by simp), ← List.cons_append]

/-- The start of a line is its indentation. -/
theorem lines_fresh (ht : t ≠ []) (hbreak : ∀ d ∈ t.head?, isBreak d = false) :
    lines column closed write true t = indent column ++ lines column closed write false t := by
  cases t with
  | nil => exact absurd rfl ht
  | cons d t =>
    have hd := hbreak d rfl
    rw [lines_char hd, lines, if_neg (by simp [hd]), if_pos rfl, List.append_assoc]

/-- Between quotes the closing one is indented like a line. -/
theorem lines_fresh_closed (hbreak : ∀ d ∈ t.head?, isBreak d = false) :
    lines column true write true t = indent column ++ lines column true write false t := by
  cases t with
  | nil => simp [lines]
  | cons d t => exact lines_fresh (by simp) hbreak

end
end Scalar

/-! ## Gaps -/

/-- Whether a word or a text ends before the blanks and breaks, if there are any. -/
def EndsGap (r : Text) : Prop := ∀ d ∈ r.head?, isSpace d = false ∧ isBreak d = false

/-- Whether neither a blank nor a break nor a comment starts the text. -/
def StartsToken (r : Text) : Prop := EndsGap r ∧ r.head? ≠ some '#'

/-- A text of spaces and of breaks that mean themselves. -/
def IsGap (s : Text) : Prop :=
  ∀ d ∈ s, d = ' ' ∨ (Scalar.isPrintable d = true ∧ isBreak d = true)

namespace Gap

/-- The gap continued over a text. -/
def addAll (s : Text) (gap : Gap) : Gap :=
  s.foldl (fun gap d => if isBreak d then gap.addBreak d else gap.addSpace d) gap

/-- A gap ends where neither a blank nor a break follows. -/
theorem extend?_end {c : Cursor} (h : EndsGap c.rest) (least fuel : Nat) (gap : Gap) :
    extend? least (fuel + 1) gap c = some (gap, c) := by
  rw [extend?, Cursor.lineBreak?_eq_none fun d hd => (h d hd).2]
  dsimp only
  split
  · next d r hrest =>
    rw [hrest] at h
    rw [(h d rfl).1]
    rfl
  · rfl

theorem extend?_append {s r : Text} (hs : IsGap s) (hr : EndsGap r) (least : Nat) {fuel : Nat}
    (hfuel : s.length < fuel) (gap : Gap) {c : Cursor} (hc : c.rest = s ++ r) :
    extend? least fuel gap c = some (gap.addAll s, c.past s) := by
  induction s generalizing fuel gap c with
  | nil =>
    obtain ⟨fuel, rfl⟩ := Nat.exists_eq_succ_of_ne_zero (Nat.ne_of_gt hfuel)
    exact extend?_end (by rwa [hc]) least fuel gap
  | cons d s ih =>
    rw [List.length_cons] at hfuel
    obtain ⟨fuel, rfl⟩ := Nat.exists_eq_succ_of_ne_zero (n := fuel) (by omega)
    obtain ⟨hd, hs⟩ := List.forall_mem_cons.mp hs
    have hrest : (c.past [d]).rest = s ++ r := Cursor.rest_past_of_eq hc
    have hread := ih hs (show s.length < fuel by omega)
      (if isBreak d then gap.addBreak d else gap.addSpace d) hrest
    rw [← Cursor.past_append, List.singleton_append] at hread
    rw [addAll, List.foldl_cons, ← addAll, ← hread, extend?]
    rcases hd with rfl | ⟨hp, hb⟩
    · have hnone : c.lineBreak? = none := by
        refine Cursor.lineBreak?_eq_none fun d hd => ?_
        rw [hc] at hd
        obtain rfl : ' ' = d := Option.some.inj hd
        rfl
      rw [hnone, Cursor.past_cons (by decide), Cursor.past_nil]
      dsimp only
      rw [hc]
      simp [isSpace, show isBreak ' ' = false from rfl]
    · rw [Cursor.lineBreak?_of_printable hc hp hb, if_pos hb]

theorem read?_append {s r : Text} (hs : IsGap s) (hr : EndsGap r) (least : Nat) (gap : Gap)
    {c : Cursor} (hc : c.rest = s ++ r) : read? least gap c = some (gap.addAll s, c.past s) := by
  refine extend?_append hs hr least ?_ gap hc
  rw [hc, List.length_append]
  omega

theorem addAll_append (s t : Text) (gap : Gap) : gap.addAll (s ++ t) = (gap.addAll s).addAll t := by
  simp [addAll, List.foldl_append]

/-- Within a line the blanks count as they are. -/
theorem addAll_spaces (n : Nat) (spaces : Text) :
    (⟨spaces, none, []⟩ : Gap).addAll (Text.fill n ' ') =
      ⟨spaces ++ Text.fill n ' ', none, []⟩ := by
  induction n generalizing spaces with
  | zero => simp [addAll, Text.fill]
  | succ n ih =>
    have hstep : addAll (Text.fill (n + 1) ' ') ⟨spaces, none, []⟩ =
        addAll (Text.fill n ' ') ⟨spaces ++ [' '], none, []⟩ := rfl
    rw [hstep, ih, List.append_assoc]
    rfl

/-- After a break no blank counts. -/
theorem addAll_indent (n : Nat) {gap : Gap} (h : gap.isBroken = true) :
    gap.addAll (Text.fill n ' ') = gap := by
  induction n with
  | zero => rfl
  | succ n ih =>
    have hstep : gap.addAll (Text.fill (n + 1) ' ') = (gap.addSpace ' ').addAll (Text.fill n ' ') :=
      rfl
    rw [hstep, addSpace, if_pos h, ih]

theorem addAll_breaks {bs : Text} (hbs : ∀ b ∈ bs, isBreak b = true) (spaces first breaks : Text) :
    (⟨spaces, some first, breaks⟩ : Gap).addAll bs = ⟨spaces, some first, breaks ++ bs⟩ := by
  induction bs generalizing breaks with
  | nil => simp [addAll]
  | cons b bs ih =>
    obtain ⟨hb, hbs⟩ := List.forall_mem_cons.mp hbs
    rw [addAll, List.foldl_cons, if_pos hb, ← addAll]
    have hstep : (⟨spaces, some first, breaks⟩ : Gap).addBreak b =
        ⟨spaces, some first, breaks ++ [b]⟩ := rfl
    rw [hstep, ih hbs, List.append_assoc]
    rfl

/-- Breaks followed by an indentation. -/
theorem addAll_lines {b : Char} {bs : Text} (hbs : ∀ d ∈ b :: bs, isBreak d = true) (n : Nat) :
    Gap.empty.addAll (b :: bs ++ Text.fill n ' ') = ⟨[], some [b], bs⟩ := by
  obtain ⟨hb, hbs⟩ := List.forall_mem_cons.mp hbs
  have hfirst : Gap.empty.addAll (b :: bs) = ⟨[], some [b], bs⟩ := by
    rw [addAll, List.foldl_cons, if_pos hb, ← addAll]
    exact addAll_breaks hbs [] [b] []
  rw [addAll_append, hfirst]
  exact addAll_indent n rfl

end Gap
end Stencil.Yaml
