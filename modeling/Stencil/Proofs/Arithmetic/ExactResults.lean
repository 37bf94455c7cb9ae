import Stencil.Arithmetic
import Stencil.Proofs.Decimal.Reading
import Stencil.Proofs.Decimal.Value
import Stencil.Proofs.Fallible

/-!
# Exact results

Main statement: a sum, a difference or a product of operands without a point is the integer part of
the exact result, in the one canonical numeral. That numeral is an operand again, so an expression
of any depth over integers gives its exact value, when it is computed one operation at a time with
each result passed on as text.
-/

namespace Stencil.Arithmetic
open Fallible

/-- The operations without rounding. -/
inductive RingOperator
  | plus
  | minus
  | times
deriving DecidableEq, Repr

namespace RingOperator

def text : RingOperator → Text
  | .plus => ['+']
  | .minus => ['-']
  | .times => ['*']

def toOperator : RingOperator → Operator
  | .plus => .plus
  | .minus => .minus
  | .times => .times

/-- The operation in a ring. -/
def apply {R : Type} [Ring R] : RingOperator → R → R → R
  | .plus, a, b => a + b
  | .minus, a, b => a - b
  | .times, a, b => a * b

theorem ofText?_text (op : RingOperator) : Operator.ofText? op.text = some op.toOperator := by
  cases op <;> rfl

theorem apply_intCast (op : RingOperator) (m n : ℤ) :
    ((op.apply m n : ℤ) : ℚ) = op.apply (m : ℚ) n := by
  cases op
  · exact Int.cast_add m n
  · exact Int.cast_sub m n
  · exact Int.cast_mul m n

theorem apply_eq_ok (op : RingOperator) (a b : Decimal) :
    ∃ d, op.toOperator.apply a b = .ok d ∧ d.value = op.apply a.value b.value := by
  cases op with
  | plus => exact ⟨a.add b, rfl, a.value_add b⟩
  | minus => exact ⟨a.sub b, rfl, a.value_sub b⟩
  | times => exact ⟨a.mul b, rfl, a.value_mul b⟩

end RingOperator

section
variable {left right : Text} {a b : Decimal}

theorem operand_of_read {t : Text} {d : Decimal} (hblank : ∀ c ∈ t, Text.isBlank c = false)
    (h : Decimal.read t = .ok d) : operand t = .ok d := by
  rw [operand, Text.trim_eq_self hblank, mapError_eq_ok_iff]
  exact h

/-- The text of an integer is an operand, whatever its length. -/
theorem operand_of_toInt? {t : Text} {n : ℤ} (h : Numeral.toInt? t = some n) :
    operand t = .ok ⟨n, 0⟩ ∧ '.' ∉ t := by
  have hsigned := Numeral.signedDigits_of_toInt? h
  have hchars : ∀ c ∈ t, Text.isBlank c = false ∧ c ≠ '.' := by
    intro c hc
    rcases hsigned.forall_mem hc with rfl | rfl | hdigit
    · decide
    · decide
    · exact Numeral.forall_isDigit (P := fun c => Text.isBlank c = false ∧ c ≠ '.') (by decide)
        hdigit
  constructor
  · exact operand_of_read (fun c hc => (hchars c hc).1) (Decimal.read_signedDigits hsigned)
  · exact fun hc => (hchars '.' hc).2 rfl

theorem integerText_eq (d : Decimal) : integerText d = Numeral.ofInt (towardZero d.value) := by
  rw [integerText, Numeral.ofLongInt_eq, d.truncate_eq]

/-- Once the operands are read only the operator can fail, apart from the writing. -/
theorem evaluate_operands {operator : Text} {sign : Operator}
    (hsign : Operator.ofText? operator = some sign) (ha : operand left = .ok a)
    (hb : operand right = .ok b) :
    evaluate left operator right = (do
      let d ← sign.apply a b
      if isFloating left right sign d then floatText d else .ok (integerText d)) := by
  simp only [evaluate, ha, hb, hsign, bind, Except.bind]

/-- Unless numbers are divided, a point in an operand decides how the result is written. -/
theorem evaluate_of_apply {operator : Text} {sign : Operator} {d : Decimal}
    (hsign : Operator.ofText? operator = some sign) (hover : sign ≠ .over)
    (ha : operand left = .ok a) (hb : operand right = .ok b) (hd : sign.apply a b = .ok d) :
    evaluate left operator right =
      if '.' ∈ left ∨ '.' ∈ right then floatText d else .ok (integerText d) := by
  have hover' : (sign == Operator.over) = false := beq_eq_false_iff_ne.mpr hover
  have hfloating : isFloating left right sign d = decide ('.' ∈ left ∨ '.' ∈ right) := by
    rw [isFloating, hover', Bool.false_and, Bool.or_false, Bool.decide_or]
  rw [evaluate_operands hsign ha hb, hd]
  simp only [bind, Except.bind, hfloating, decide_eq_true_eq]

/-- The result is exact, and a point in an operand decides how it is written. -/
theorem evaluate_ring (op : RingOperator) (ha : operand left = .ok a) (hb : operand right = .ok b) :
    ∃ d, d.value = op.apply a.value b.value ∧
      evaluate left op.text right =
        if '.' ∈ left ∨ '.' ∈ right then floatText d else .ok (integerText d) := by
  obtain ⟨d, hd, hvalue⟩ := op.apply_eq_ok a b
  have hover : op.toOperator ≠ .over := by cases op <;> exact Operator.noConfusion
  exact ⟨d, hvalue, evaluate_of_apply op.ofText?_text hover ha hb hd⟩

theorem evaluate_of_no_point (op : RingOperator) (ha : operand left = .ok a)
    (hb : operand right = .ok b) (hleft : '.' ∉ left) (hright : '.' ∉ right) :
    evaluate left op.text right =
      .ok (Numeral.ofInt (towardZero (op.apply a.value b.value))) := by
  obtain ⟨d, hvalue, h⟩ := evaluate_ring op ha hb
  rw [h, if_neg (not_or.mpr ⟨hleft, hright⟩), integerText_eq, hvalue]

theorem value_integer (n : ℤ) : Decimal.value ⟨n, 0⟩ = n := by
  simp [Decimal.value]

theorem evaluate_integers (op : RingOperator) {m n : ℤ} (hleft : Numeral.toInt? left = some m)
    (hright : Numeral.toInt? right = some n) :
    evaluate left op.text right = .ok (Numeral.ofInt (op.apply m n)) := by
  obtain ⟨ha, hleft⟩ := operand_of_toInt? hleft
  obtain ⟨hb, hright⟩ := operand_of_toInt? hright
  rw [evaluate_of_no_point op ha hb hleft hright, value_integer, value_integer, ← op.apply_intCast,
    towardZero_intCast]

end

/-! ## Expressions -/

/-- An expression over numerals. -/
inductive Expression
  | literal (t : Text)
  | operation (op : RingOperator) (left right : Expression)
deriving Repr

namespace Expression

/-- The text of an expression, computed one operation at a time: the text of each part is an operand
of the operation around it. -/
def text : Expression → Except HelperError Text
  | .literal t => .ok t
  | .operation op left right => do evaluate (← left.text) op.text (← right.text)

/-- The integer that an expression over integers is. -/
def value? : Expression → Option ℤ
  | .literal t => Numeral.toInt? t
  | .operation op left right => do return op.apply (← left.value?) (← right.value?)

theorem value?_operation_eq_some {op : RingOperator} {left right : Expression} {n : ℤ}
    (h : (operation op left right).value? = some n) :
    ∃ k l, left.value? = some k ∧ right.value? = some l ∧ op.apply k l = n := by
  obtain ⟨k, hk, h⟩ := Option.bind_eq_some_iff.mp h
  obtain ⟨l, hl, h⟩ := Option.bind_eq_some_iff.mp h
  exact ⟨k, l, hk, hl, Option.some.inj h⟩

theorem text_operation {op : RingOperator} {left right : Expression} {s t : Text}
    (hleft : left.text = .ok s) (hright : right.text = .ok t) :
    (operation op left right).text = evaluate s op.text t := by
  rw [text, hleft, hright]
  rfl

/-- Each part of an expression gives a text of its value. -/
theorem exists_text {e : Expression} {n : ℤ} (h : e.value? = some n) :
    ∃ s, e.text = .ok s ∧ Numeral.toInt? s = some n := by
  induction e generalizing n with
  | literal t => exact ⟨t, rfl, h⟩
  | operation op left right ihleft ihright =>
    obtain ⟨k, l, hk, hl, rfl⟩ := value?_operation_eq_some h
    obtain ⟨s, hs, hsk⟩ := ihleft hk
    obtain ⟨t, ht, htl⟩ := ihright hl
    refine ⟨_, (text_operation hs ht).trans (evaluate_integers op hsk htl), ?_⟩
    exact Numeral.toInt?_ofInt _

theorem text_of_value? {op : RingOperator} {left right : Expression} {n : ℤ}
    (h : (operation op left right).value? = some n) :
    (operation op left right).text = .ok (Numeral.ofInt n) := by
  obtain ⟨k, l, hk, hl, rfl⟩ := value?_operation_eq_some h
  obtain ⟨s, hs, hsk⟩ := exists_text hk
  obtain ⟨t, ht, htl⟩ := exists_text hl
  exact (text_operation hs ht).trans (evaluate_integers op hsk htl)

end Expression

/-- Results without a point are exact. The text is the only canonical numeral of the integer part
of the result, and through any number of operations nothing is lost. -/
theorem evaluate_exactly :
    (∀ (op : RingOperator) (left right : Text) (a b : Decimal), operand left = .ok a →
      operand right = .ok b → '.' ∉ left → '.' ∉ right →
        ∃ s, evaluate left op.text right = .ok s ∧ Numeral.Canonical s ∧
          Numeral.toInt? s = some (towardZero (op.apply a.value b.value))) ∧
    ∀ (op : RingOperator) (left right : Expression) (n : ℤ),
      (Expression.operation op left right).value? = some n →
        (Expression.operation op left right).text = .ok (Numeral.ofInt n) := by
  constructor
  · intro op left right a b ha hb hleft hright
    refine ⟨_, evaluate_of_no_point op ha hb hleft hright, ?_, ?_⟩
    · exact Numeral.canonical_ofInt _
    · exact Numeral.toInt?_ofInt _
  · intro op left right n h
    exact Expression.text_of_value? h

/-- A sum of two decimal fractions that is a fraction itself and negative, and an expression with a
numeral that is not canonical. -/
theorem evaluate_exactly_mixed :
    let left := " -1_2e-1\t".toList
    let right := "+3E-1".toList
    let product := Expression.operation .times (.literal "-12".toList) (.literal "0034".toList)
    operand left = .ok ⟨-12, 1⟩ ∧ operand right = .ok ⟨3, 1⟩ ∧ '.' ∉ left ∧ '.' ∉ right ∧
      (∃ s, evaluate left ['+'] right = .ok s ∧ Numeral.Canonical s ∧ Numeral.toInt? s = some 0) ∧
      (Expression.operation .minus product (.literal "+7".toList)).value? = some (-415) ∧
      (Expression.operation .minus product (.literal "+7".toList)).text = .ok "-415".toList := by
  intro left right product
  have ha : operand left = .ok ⟨-12, 1⟩ := by decide +kernel
  have hb : operand right = .ok ⟨3, 1⟩ := by decide +kernel
  have hsum : towardZero (RingOperator.plus.apply (Decimal.value ⟨-12, 1⟩) (Decimal.value ⟨3, 1⟩)) =
      0 := by decide +kernel
  have hvalue : (Expression.operation .minus product (.literal "+7".toList)).value? =
      some (-415) := by decide +kernel
  have hexact := evaluate_exactly.1 .plus left right _ _ ha hb (by decide) (by decide)
  rw [hsum] at hexact
  exact ⟨ha, hb, by decide, by decide, hexact, hvalue, evaluate_exactly.2 _ _ _ _ hvalue⟩

end Stencil.Arithmetic
