import Stencil.Proofs.Binary64.Shortest
import Stencil.Proofs.Decimal.Reading

/-!
# The text of a float as a decimal

Main statement: the text of a float is the numeral of the digits that were chosen for it, so that
reading it as a decimal gives back their value. A point or a power of ten is in each such text.
-/

namespace Stencil.Binary64
open Numeral Decimal

/-- A text of digits with a point or with a power of ten, and the number that it is. -/
inductive FloatBody (q : ℚ) : Text → Prop
  | positional {whole fraction : Text} (hwhole : isDigits whole = true)
      (hfraction : isDigits fraction = true)
      (hvalue : (Numeral.value (whole ++ fraction) : ℚ) * 10 ^ (-(fraction.length : ℤ)) = q)
      (hfits : FitsSigned fraction.length) : FloatBody q (whole ++ '.' :: fraction)
  | exponential {mantissa digits exponent : Text} {places : ℕ} {power : ℤ}
      (h : Mantissa mantissa digits places) (hexponent : SignedDigits exponent power)
      (hpower : PowerText ('e' :: exponent) power)
      (hvalue : (Numeral.value digits : ℚ) * 10 ^ (-(places - power)) = q)
      (hfits : FitsSigned (places - power)) : FloatBody q (mantissa ++ 'e' :: exponent)

namespace FloatBody
variable {q : ℚ} {t : Text}

/-- Reading the text gives its number. -/
theorem read (h : FloatBody q t) :
    ∃ (n : ℕ) (s : ℤ), (n : ℚ) * 10 ^ (-s) = q ∧
      ∀ negative, Decimal.read (signText negative ++ t) = .ok ⟨if negative then -n else n, s⟩ := by
  cases h with
  | positional hwhole hfraction hvalue hfits =>
    refine ⟨_, _, hvalue, fun negative => ?_⟩
    have hread := read_mantissa negative (.pointed hwhole hfraction) .absent
      (by rwa [Int.sub_zero])
    rwa [List.append_nil, Int.sub_zero] at hread
  | exponential h _ hpower hvalue hfits =>
    exact ⟨_, _, hvalue, fun negative => read_mantissa negative h hpower hfits⟩

theorem point_or_power (h : FloatBody q t) : '.' ∈ t ∨ 'e' ∈ t := by
  cases h with
  | positional => exact .inl (List.mem_append_right _ List.mem_cons_self)
  | exponential => exact .inr (List.mem_append_right _ List.mem_cons_self)

/-- What can stand in the text of a float. -/
theorem forall_mem (h : FloatBody q t) {c : Char} (hc : c ∈ t) :
    c = '.' ∨ c = 'e' ∨ c = '-' ∨ c = '+' ∨ c.isDigit = true := by
  have hmantissa {m digits : Text} {places : ℕ} (hm : Mantissa m digits places) (hc : c ∈ m) :
      c = '.' ∨ c = 'e' ∨ c = '-' ∨ c = '+' ∨ c.isDigit = true := by
    rcases hm.forall_mem hc with hpoint | hdigit
    · exact .inl hpoint
    · exact .inr (.inr (.inr (.inr hdigit)))
  cases h with
  | positional hwhole hfraction => exact hmantissa (.pointed hwhole hfraction) hc
  | exponential hm hexponent =>
    rcases List.mem_append.mp hc with hc | hc
    · exact hmantissa hm hc
    · rcases List.mem_cons.mp hc with rfl | hc
      · exact .inr (.inl rfl)
      · exact .inr (.inr (hexponent.forall_mem hc))

end FloatBody

/-! ## Layouts -/

theorem isDigits_append_fill (n k : ℕ) : isDigits (ofNat n ++ Text.fill k '0') = true := by
  rw [isDigits_iff]
  constructor
  · exact List.append_ne_nil_of_left_ne_nil (ofNat_ne_nil n) _
  · rw [List.all_append, all_isDigit_ofNat, Bool.true_and, List.all_eq_true]
    intro c hc
    rw [List.eq_of_mem_replicate hc]
    rfl

/-- One digit stands before the point, and there is no point after a single digit. -/
theorem exponential_eq (sign : Text) {digits : Text} (h : isDigits digits = true) (power : ℤ) :
    ∃ mantissa, exponential sign digits power =
        mantissa ++ 'e' :: ((if power < 0 then [] else sign) ++ ofInt power) ∧
      Mantissa mantissa digits (digits.length - 1) := by
  unfold exponential
  refine ⟨_, rfl, ?_⟩
  obtain ⟨hne, hall⟩ := isDigits_iff.mp h
  match digits, hne with
  | [c], _ => exact .plain h
  | c :: c' :: rest, _ =>
    obtain ⟨hfirst, hrest⟩ := Bool.and_eq_true_iff.mp hall
    have hwhole : isDigits [c] = true :=
      isDigits_iff.mpr ⟨List.cons_ne_nil c [], by rw [List.all_cons, hfirst]; rfl⟩
    exact .pointed hwhole (isDigits_iff.mpr ⟨List.cons_ne_nil c' rest, hrest⟩)

/-- An exponent that is not negative has a plus sign or none. -/
theorem signedDigits_exponent {sign : Text} (hsign : sign = [] ∨ sign = ['+']) (power : ℤ) :
    SignedDigits ((if power < 0 then [] else sign) ++ ofInt power) power := by
  split
  · exact signedDigits_ofInt power
  · next hnonneg =>
    obtain ⟨n, rfl⟩ := Int.eq_ofNat_of_zero_le (not_lt.mp hnonneg)
    rcases hsign with rfl | rfl
    · exact signedDigits_ofInt n
    · exact signedDigits_plus n

section
variable {d : Digits} (hleast : -1100 ≤ d.exponent)
include hleast

/-- The point stands as far from the end of the digits as the power of ten says. -/
theorem floatBody_of_places {whole fraction : Text} (hwhole : isDigits whole = true)
    (hfraction : isDigits fraction = true) (hvalue : Numeral.value (whole ++ fraction) = d.digits)
    (hplaces : (fraction.length : ℤ) = -d.exponent) :
    FloatBody d.value (whole ++ '.' :: fraction) := by
  apply FloatBody.positional hwhole hfraction
  · rw [hvalue, hplaces, neg_neg]
    rfl
  · unfold FitsSigned
    omega

theorem floatBody_before (h : (ofNat d.digits).length + d.exponent ≤ 0) :
    FloatBody d.value ('0' :: '.' ::
      (Text.fill (-((ofNat d.digits).length + d.exponent)).toNat '0' ++ ofNat d.digits)) := by
  generalize hzeros : (-((ofNat d.digits).length + d.exponent)).toNat = zeros
  have hwhole : isDigits ['0'] = true := rfl
  apply floatBody_of_places hleast hwhole (isDigits_fill_append zeros d.digits)
  · have hvalue := value_zeros_append (zeros + 1) (ofNat d.digits)
    rw [value_ofNat] at hvalue
    exact hvalue
  · rw [List.length_append, Text.fill, List.length_replicate]
    omega

theorem floatBody_inside (hfirst : 0 < (ofNat d.digits).length + d.exponent)
    (hlast : d.exponent < 0) :
    let point := ((ofNat d.digits).length + d.exponent).toNat
    FloatBody d.value ((ofNat d.digits).take point ++ '.' :: (ofNat d.digits).drop point) := by
  intro point
  have hall := List.all_eq_true.mp (all_isDigit_ofNat d.digits)
  apply floatBody_of_places hleast
  · rw [isDigits_iff, List.all_eq_true]
    refine ⟨fun hnil => ?_, fun c hc => hall c (List.mem_of_mem_take hc)⟩
    have hlength := congrArg List.length hnil
    rw [List.length_take, List.length_nil] at hlength
    omega
  · rw [isDigits_iff, List.all_eq_true]
    refine ⟨fun hnil => ?_, fun c hc => hall c (List.mem_of_mem_drop hc)⟩
    have hlength := congrArg List.length hnil
    rw [List.length_drop, List.length_nil] at hlength
    omega
  · rw [List.take_append_drop, value_ofNat]
  · rw [List.length_drop]
    omega

omit hleast in
theorem floatBody_whole (h : 0 ≤ d.exponent) :
    FloatBody d.value (ofNat d.digits ++ Text.fill d.exponent.toNat '0' ++ ['.', '0']) := by
  obtain ⟨k, hk⟩ := Int.eq_ofNat_of_zero_le h
  have hfraction : isDigits ['0'] = true := rfl
  rw [hk, Int.toNat_natCast]
  apply FloatBody.positional (isDigits_append_fill d.digits k) hfraction
  · have hvalue := value_append_zeros (ofNat d.digits) (k + 1)
    rw [value_ofNat, Text.fill, List.replicate_succ', ← List.append_assoc] at hvalue
    rw [Text.fill, hvalue, Digits.value, hk]
    push_cast
    rw [pow_succ, zpow_natCast, List.length_singleton, Nat.cast_one, zpow_neg_one]
    ring
  · decide

theorem floatBody_positional :
    FloatBody d.value (positional (ofNat d.digits) ((ofNat d.digits).length + d.exponent)) := by
  unfold positional
  split
  · next h => exact floatBody_before hleast h
  · next hfirst =>
    split
    · next hinside => exact floatBody_inside hleast (by omega) (by omega)
    · next houtside =>
      have hzeros : ((ofNat d.digits).length + d.exponent).toNat - (ofNat d.digits).length =
          d.exponent.toNat := by omega
      rw [hzeros]
      exact floatBody_whole (by omega)

theorem floatBody_exponential {sign : Text} (hsign : sign = [] ∨ sign = ['+'])
    (hmost : (ofNat d.digits).length + d.exponent ≤ 400)
    (hfar : -400 < (ofNat d.digits).length + d.exponent) :
    FloatBody d.value
      (exponential sign (ofNat d.digits) ((ofNat d.digits).length + d.exponent - 1)) := by
  have hlength := length_ofNat_pos d.digits
  have hscale : (((ofNat d.digits).length - 1 : ℕ) : ℤ) -
      ((ofNat d.digits).length + d.exponent - 1) = -d.exponent := by omega
  obtain ⟨mantissa, htext, hmantissa⟩ :=
    exponential_eq sign (isDigits_ofNat d.digits) ((ofNat d.digits).length + d.exponent - 1)
  have hexponent := signedDigits_exponent hsign ((ofNat d.digits).length + d.exponent - 1)
  rw [htext]
  apply FloatBody.exponential hmantissa hexponent
  · exact powerText_signedDigits hexponent (by omega) (by omega)
  · rw [hscale, neg_neg, value_ofNat]
    rfl
  · rw [hscale]
    unfold FitsSigned
    omega

end

/-! ## Printing -/

theorem digits_ne_zero {x : Binary64} (hx : x.significand ≠ 0) : x.shortest.digits ≠ 0 := by
  intro hzero
  have hread := readsBack_iff.mp (readsBack_shortest x)
  rw [hzero] at hread
  exact hx (congrArg significand (Option.some.inj hread)).symm

/-- The text of a float is its digits with their power of ten, behind a minus sign when the float is
negative. -/
theorem print_eq {layout : Layout}
    (hlayout : layout.exponentSign = [] ∨ layout.exponentSign = ['+']) (x : Binary64) :
    ∃ body, FloatBody x.shortest.value body ∧
      x.print layout = signText x.negative ++ body := by
  have hsign (body : Text) :
      (if x.negative then '-' :: body else body) = signText x.negative ++ body := by
    unfold signText
    split <;> rfl
  unfold print
  simp only [hsign]
  refine ⟨_, ?_, rfl⟩
  have hleast := shortest_exponent_ge x
  by_cases hx : x.significand = 0
  · have hshortest : x.shortest = ⟨0, 0⟩ := if_pos (isZero_iff.mpr hx)
    have hzero : isDigits ['0'] = true := rfl
    rw [hshortest]
    apply FloatBody.positional hzero hzero
    · rw [Digits.value, Nat.cast_zero, zero_mul, mul_eq_zero, Nat.cast_eq_zero]
      exact .inl rfl
    · decide
  · have hdigits := digits_ne_zero hx
    obtain ⟨hfar, hmost⟩ := place_bounds hx hdigits (readsBack_shortest x)
    rw [if_neg hdigits]
    split
    · exact floatBody_positional hleast
    · exact floatBody_exponential hleast hlayout hmost hfar

section
variable {layout : Layout} (hlayout : layout.exponentSign = [] ∨ layout.exponentSign = ['+'])
include hlayout

/-- What can stand in the text of a float. -/
theorem forall_mem_print {x : Binary64} {c : Char} (hc : c ∈ x.print layout) :
    c = '.' ∨ c = 'e' ∨ c = '-' ∨ c = '+' ∨ c.isDigit = true := by
  obtain ⟨body, hbody, hprint⟩ := print_eq hlayout x
  rw [hprint] at hc
  rcases List.mem_append.mp hc with hc | hc
  · unfold signText at hc
    split at hc
    · exact .inr (.inr (.inl (List.mem_singleton.mp hc)))
    · cases hc
  · exact hbody.forall_mem hc

/-- A point or a power of ten stands in the text of a float. -/
theorem point_or_power (x : Binary64) : '.' ∈ x.print layout ∨ 'e' ∈ x.print layout := by
  obtain ⟨body, hbody, hprint⟩ := print_eq hlayout x
  rw [hprint]
  rcases hbody.point_or_power with hpoint | hpower
  · exact .inl (List.mem_append_right _ hpoint)
  · exact .inr (List.mem_append_right _ hpower)

end

end Stencil.Binary64
