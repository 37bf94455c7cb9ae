import Stencil.Proofs.Binary64.Scientific

/-!
# Texts that denote floats

Main statement: a text is read as a floating point number exactly when it is a decimal numeral, with
digits before or after its point, or a word for infinity or not-a-number, with an optional sign.
-/

namespace Stencil
open Numeral

namespace Scientific
variable {t : Text} {negative : Bool}

/-! ## Grammar -/

/-- At most one sign. -/
inductive SignText : Text → Prop
  | absent : SignText []
  | plus : SignText ['+']
  | minus : SignText ['-']

/-- At least one digit, and at most one point among or around the digits. -/
inductive PointText : Text → Prop
  | plain {digits : Text} (h : isDigits digits = true) : PointText digits
  | pointed {whole fraction : Text} (hwhole : whole.all Char.isDigit = true)
      (hfraction : fraction.all Char.isDigit = true) (hne : whole ++ fraction ≠ []) :
      PointText (whole ++ '.' :: fraction)

/-- An optional power of ten. -/
inductive PowerText : Text → Prop
  | absent : PowerText []
  | written {mark : Char} {sign digits : Text} (hmark : mark = 'e' ∨ mark = 'E')
      (hsign : SignText sign) (hdigits : isDigits digits = true) :
      PowerText (mark :: (sign ++ digits))

/-- A decimal numeral without its sign. -/
inductive UnsignedText : Text → Prop
  | mk {digits power : Text} (hdigits : PointText digits) (hpower : PowerText power) :
      UnsignedText (digits ++ power)

/-- A decimal numeral. -/
inductive NumeralText : Text → Prop
  | mk {sign body : Text} (hsign : SignText sign) (h : UnsignedText body) :
      NumeralText (sign ++ body)

/-- The words for infinity and not-a-number. -/
def words : List Text := ["inf".toList, "infinity".toList, "nan".toList]

/-- Such a word in any letter case, with an optional sign. -/
inductive WordText : Text → Prop
  | mk {sign word : Text} (hsign : SignText sign) (hword : word.map Char.toLower ∈ words) :
      WordText (sign ++ word)

/-! ## Pieces -/

theorem signedDigits_iff :
    (∃ n, SignedDigits t n) ↔
      ∃ sign digits, SignText sign ∧ isDigits digits = true ∧ t = sign ++ digits := by
  constructor
  · rintro ⟨n, h⟩
    cases h with
    | bare h => exact ⟨[], t, .absent, h, rfl⟩
    | plus h => exact ⟨['+'], _, .plus, h, rfl⟩
    | minus h => exact ⟨['-'], _, .minus, h, rfl⟩
  · rintro ⟨sign, digits, hsign, hdigits, rfl⟩
    cases hsign with
    | absent => exact ⟨_, .bare hdigits⟩
    | plus => exact ⟨_, .plus hdigits⟩
    | minus => exact ⟨_, .minus hdigits⟩

theorem toInt?_isSome_iff :
    (∃ n, toInt? t = some n) ↔
      ∃ sign digits, SignText sign ∧ isDigits digits = true ∧ t = sign ++ digits := by
  rw [← signedDigits_iff]
  exact exists_congr fun n => ⟨signedDigits_of_toInt?, SignedDigits.toInt?_eq⟩

theorem tenPower?_isSome_iff : (∃ power, tenPower? t = some power) ↔ PowerText t := by
  cases t with
  | nil => exact iff_of_true ⟨0, rfl⟩ .absent
  | cons mark t =>
    rw [tenPower?]
    split
    · next hmark =>
      rw [toInt?_isSome_iff]
      constructor
      · rintro ⟨sign, digits, hsign, hdigits, rfl⟩
        exact .written hmark hsign hdigits
      · intro h
        cases h with
        | written _ hsign hdigits => exact ⟨_, _, hsign, hdigits, rfl⟩
    · next hmark =>
      constructor
      · rintro ⟨power, hread⟩
        cases hread
      · intro h
        cases h with
        | written h _ _ => exact absurd h hmark

/-- What is taken for digits are digits, and nothing is lost but the point. -/
theorem of_splitDigits {whole fraction rest : Text} (h : splitDigits t = (whole, fraction, rest)) :
    whole.all Char.isDigit = true ∧ fraction.all Char.isDigit = true ∧
      (t = whole ++ rest ∧ fraction = [] ∨ t = whole ++ '.' :: fraction ++ rest) := by
  have htake (u : Text) : (u.takeWhile Char.isDigit).all Char.isDigit = true :=
    List.all_eq_true.mpr fun c hc => List.mem_takeWhile_imp hc
  have hsplit (u : Text) : u.takeWhile Char.isDigit ++ u.dropWhile Char.isDigit = u :=
    List.takeWhile_append_dropWhile
  unfold splitDigits at h
  dsimp only at h
  split at h
  · next after hafter =>
    cases h
    refine ⟨htake t, htake after, .inr ?_⟩
    rw [List.append_assoc, List.cons_append, hsplit after, ← hafter, hsplit]
  · cases h
    exact ⟨htake t, rfl, .inl ⟨(hsplit t).symm, rfl⟩⟩

theorem ofUnsigned?_isSome_iff : (∃ s, ofUnsigned? negative t = some s) ↔ UnsignedText t := by
  constructor
  · rintro ⟨s, h⟩
    unfold ofUnsigned? at h
    cases hsplit : splitDigits t with
    | mk whole pieces =>
    obtain ⟨fraction, rest⟩ := pieces
    obtain ⟨hwhole, hfraction, hparts⟩ := of_splitDigits hsplit
    rw [hsplit] at h
    dsimp only at h
    split at h
    · cases h
    · next hne =>
      obtain ⟨power, hpower, -⟩ := Option.map_eq_some_iff.mp h
      have hrest := tenPower?_isSome_iff.mp ⟨power, hpower⟩
      rw [Bool.and_eq_true, List.isEmpty_iff, List.isEmpty_iff] at hne
      rcases hparts with ⟨rfl, rfl⟩ | rfl
      · have hwhole' : whole ≠ [] := fun heq => hne ⟨heq, rfl⟩
        exact .mk (.plain (isDigits_iff.mpr ⟨hwhole', hwhole⟩)) hrest
      · exact .mk (.pointed hwhole hfraction fun heq => hne (List.append_eq_nil_iff.mp heq)) hrest
  · rintro ⟨hdigits, hpower⟩
    obtain ⟨power, hread⟩ := tenPower?_isSome_iff.mpr hpower
    have hhead := head?_of_tenPower? hread
    unfold ofUnsigned?
    cases hdigits with
    | plain h =>
      obtain ⟨hne, hall⟩ := isDigits_iff.mp h
      rw [splitDigits_plain hall hhead]
      simp [hne, hread]
    | pointed hwhole hfraction hne =>
      rw [List.append_assoc, List.cons_append,
        splitDigits_pointed hwhole hfraction fun c hc => (hhead c hc).1]
      have hempty : ¬ (_ ∧ _) := fun h => hne (List.append_eq_nil_iff.mpr h)
      simp [hempty, hread]

/-! ## Signs -/

theorem splitSign_spec (t : Text) : ∃ sign, SignText sign ∧ t = sign ++ (splitSign t).2 := by
  unfold splitSign
  split
  · exact ⟨['-'], .minus, rfl⟩
  · exact ⟨['+'], .plus, rfl⟩
  · exact ⟨[], .absent, rfl⟩

/-- A sign is told from a text that does not begin with one. -/
theorem splitSign_append {sign : Text} (hsign : SignText sign)
    (h : ∀ c ∈ t.head?, c ≠ '-' ∧ c ≠ '+') : (splitSign (sign ++ t)).2 = t := by
  cases hsign with
  | plus | minus => rfl
  | absent => rw [List.nil_append, splitSign_of_head? h]

theorem head?_of_unsignedText (h : UnsignedText t) : ∀ c ∈ t.head?, c ≠ '-' ∧ c ≠ '+' := by
  have hdigit {digits rest : Text} (hne : digits ≠ []) (hall : digits.all Char.isDigit = true) :
      ∀ c ∈ (digits ++ rest).head?, c ≠ '-' ∧ c ≠ '+' := by
    obtain ⟨d, digits, rfl⟩ := List.exists_cons_of_ne_nil hne
    rintro c ⟨⟩
    exact not_sign_of_isDigit (List.all_eq_true.mp hall d List.mem_cons_self)
  obtain ⟨hdigits, -⟩ := h
  cases hdigits with
  | plain h => exact hdigit (isDigits_iff.mp h).1 (isDigits_iff.mp h).2
  | @pointed whole fraction hwhole _ _ =>
    by_cases hnil : whole = []
    · rw [hnil]
      rintro c ⟨⟩
      decide
    · rw [List.append_assoc]
      exact hdigit hnil hwhole

theorem head?_of_word (h : t.map Char.toLower ∈ words) : ∀ c ∈ t.head?, c ≠ '-' ∧ c ≠ '+' := by
  have hall : ∀ word ∈ words, word.head? ≠ some '-' ∧ word.head? ≠ some '+' := by decide
  obtain ⟨hminus, hplus⟩ := hall _ h
  intro c hc
  rw [List.head?_map, hc, Option.map_some] at hminus hplus
  constructor
  · rintro rfl
    exact hminus rfl
  · rintro rfl
    exact hplus rfl

theorem numeralText_iff : NumeralText t ↔ UnsignedText (splitSign t).2 := by
  constructor
  · rintro ⟨hsign, h⟩
    rwa [splitSign_append hsign (head?_of_unsignedText h)]
  · intro h
    obtain ⟨sign, hsign, heq⟩ := splitSign_spec t
    rw [heq]
    exact .mk hsign h

theorem wordText_iff : WordText t ↔ (splitSign t).2.map Char.toLower ∈ words := by
  constructor
  · rintro ⟨hsign, h⟩
    rwa [splitSign_append hsign (head?_of_word h)]
  · intro h
    obtain ⟨sign, hsign, heq⟩ := splitSign_spec t
    rw [heq]
    exact .mk hsign h

theorem ofText?_isSome_iff : (∃ s, ofText? t = some s) ↔ NumeralText t := by
  rw [numeralText_iff]
  exact ofUnsigned?_isSome_iff

end Scientific

namespace FloatReading
open Scientific
variable {t : Text} {negative : Bool}

/-! ## Readings -/

theorem ofWord?_isSome_iff :
    (∃ reading, ofWord? negative t = some reading) ↔ t.map Char.toLower ∈ words := by
  simp only [words, List.mem_cons, List.not_mem_nil, or_false]
  unfold ofWord?
  dsimp only
  split
  · next h => exact iff_of_true ⟨_, rfl⟩ (h.imp_right .inl)
  · next h =>
    split
    · next h' => exact iff_of_true ⟨_, rfl⟩ (.inr (.inr h'))
    · next h' =>
      constructor
      · rintro ⟨reading, hread⟩
        exact absurd hread.symm (Option.some_ne_none reading)
      · rintro (heq | heq | heq)
        · exact absurd (.inl heq) h
        · exact absurd (.inr heq) h
        · exact absurd heq h'

/-- The texts that denote floats are the numerals and the words. -/
theorem ofText?_isSome_iff :
    (∃ reading, ofText? t = some reading) ↔ NumeralText t ∨ WordText t := by
  rw [numeralText_iff, wordText_iff]
  unfold ofText?
  generalize splitSign t = pieces
  obtain ⟨negative, rest⟩ := pieces
  dsimp only
  split
  · next s hs =>
    refine iff_of_true ?_ (.inl (ofUnsigned?_isSome_iff.mp ⟨s, hs⟩))
    cases s.toBinary64? with
    | some x => exact ⟨.finite x, rfl⟩
    | none => exact ⟨.infinite negative, rfl⟩
  · next hnone =>
    have hnumeral : ¬ UnsignedText rest := by
      intro h
      obtain ⟨s, hs⟩ := ofUnsigned?_isSome_iff.mpr h
      rw [hnone] at hs
      cases hs
    rw [ofWord?_isSome_iff, or_iff_right hnumeral]

end FloatReading
end Stencil
