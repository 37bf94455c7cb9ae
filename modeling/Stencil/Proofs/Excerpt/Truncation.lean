import Stencil.Excerpt

/-!
# Texts cut after a number of characters

A text is cut at a byte, which is found by walking along its characters. Main statement: the cut
always falls between two characters, so that as many of them are kept as the limit allows, and two
cuts, one after the other, are the one at the lower limit.
-/

namespace Stencil

namespace Utf8

/-! ## Bytes and characters -/

@[simp] theorem length_encode_cons (c : Char) (t : Text) :
    (encode (c :: t)).length = c.utf8Size + (encode t).length := by
  simp [encode]

/-- Each character stands behind the bytes of the characters before it. -/
theorem getElem?_offsets (bytes : Nat) (t : Text) (i : Nat) :
    (offsets bytes t)[i]? = t[i]?.map fun c => (bytes + (encode (t.take i)).length, c) := by
  induction t generalizing bytes i with
  | nil => rfl
  | cons c t ih =>
    cases i with
    | zero => rfl
    | succ i =>
      rw [offsets, List.getElem?_cons_succ, ih, List.getElem?_cons_succ, List.take_succ_cons,
        length_encode_cons, Nat.add_assoc]

/-- A character takes up all of its bytes. -/
theorem within_cons (c : Char) (bytes : Nat) (t : Text) :
    within (c.utf8Size + bytes) (c :: t) = c :: within bytes t := by
  obtain ⟨size, hsize⟩ := Nat.exists_eq_add_one.mpr c.utf8Size_pos
  rw [show c.utf8Size + bytes = size + bytes + 1 by omega, within]
  congr 2
  omega

/-- A cut behind the bytes of the first characters keeps these characters. -/
theorem within_take (t : Text) (i : Nat) : within (encode (t.take i)).length t = t.take i := by
  induction t generalizing i with
  | nil =>
    rw [List.take_nil]
    rfl
  | cons c t ih =>
    cases i with
    | zero => rfl
    | succ i => rw [List.take_succ_cons, length_encode_cons, within_cons, ih]

/-- The bytes of the first characters are the first bytes. -/
theorem encode_take (t : Text) (i : Nat) :
    encode (t.take i) = (encode t).take (encode (t.take i)).length := by
  have hsplit : encode t = encode (t.take i) ++ encode (t.drop i) := by
    rw [← encode_append, List.take_append_drop]
  rw [hsplit, List.take_left]

end Utf8

namespace Excerpt
variable {m n limit : Int} {t : Text}

/-! ## Cuts -/

/-- The byte at which a text is cut is the one where a character begins. -/
theorem start_eq_take (count : Nat) (t : Text) : start count t = t.take count := by
  rw [start, Utf8.getElem?_offsets]
  cases hc : t[count]? with
  | none => exact (List.take_of_length_le (List.getElem?_eq_none_iff.mp hc)).symm
  | some c =>
    rw [Option.map_some]
    dsimp only
    rw [Nat.zero_add, Utf8.within_take]

theorem truncate_of_unlimited (h : limit = -1 ∨ t = []) : truncate limit t = .ok t :=
  if_pos h.symm

theorem truncate_of_nonneg (h : 0 ≤ limit) (t : Text) :
    truncate limit t = .ok (t.take limit.toNat) := by
  by_cases ht : t = []
  · rw [truncate_of_unlimited (.inr ht), ht, List.take_nil]
  · have hcut : ¬(t = [] ∨ limit = -1) := not_or.mpr ⟨ht, by omega⟩
    rw [truncate, if_neg hcut, if_neg (Int.not_lt.mpr h), start_eq_take]

theorem truncate_of_negative (h : limit < -1) (ht : t ≠ []) :
    truncate limit t = .error (.invalidArgument (.invalidLength limit)) := by
  have hcut : ¬(t = [] ∨ limit = -1) := not_or.mpr ⟨ht, by omega⟩
  rw [truncate, if_neg hcut, if_pos (by omega)]

/-- A text is refused exactly when it is not empty and the limit is below the one that stands for
none. -/
theorem truncate_error_iff :
    (∃ e, truncate limit t = .error e) ↔ limit < -1 ∧ t ≠ [] := by
  constructor
  · rintro ⟨e, he⟩
    refine ⟨Int.not_le.mp fun hlimit => ?_, fun ht => ?_⟩
    · by_cases hnone : limit = -1
      · rw [truncate_of_unlimited (.inl hnone)] at he
        cases he
      · rw [truncate_of_nonneg (by omega)] at he
        cases he
    · rw [truncate_of_unlimited (.inr ht)] at he
      cases he
  · rintro ⟨h, ht⟩
    exact ⟨_, truncate_of_negative h ht⟩

theorem truncate_truncate (hm : 0 ≤ m) (hn : 0 ≤ n) (t : Text) :
    (truncate n t >>= truncate m) = truncate (min m n) t := by
  have hmin : min m.toNat n.toNat = (min m n).toNat := by omega
  rw [truncate_of_nonneg hn, truncate_of_nonneg (Int.le_min.mpr ⟨hm, hn⟩), ← hmin, ← List.take_take]
  exact truncate_of_nonneg hm _

/-- Cuts by characters. A text is refused exactly when it is not empty and its limit is below -1;
with the limit -1 it is kept whole, and so is an empty one with any limit. Any other limit keeps the
first characters, as many as it says or all of them. When some are left out, the cut is made at the
byte where the first of these begins, and what is kept has exactly the bytes before it. Of two
limits, one after the other, the lower one counts. -/
theorem truncate_by_characters :
    (∀ (limit : Int) (t : Text),
      (∃ e, truncate limit t = .error e) ↔ limit < -1 ∧ t ≠ []) ∧
    (∀ (limit : Int) (t : Text), limit = -1 ∨ t = [] → truncate limit t = .ok t) ∧
    (∀ (limit : Int) (t : Text), 0 ≤ limit → ∃ kept, truncate limit t = .ok kept ∧ kept <+: t ∧
      kept.length = min limit.toNat t.length ∧
      ∀ (h : limit.toNat < t.length), ∃ bytes,
        (Utf8.offsets 0 t)[limit.toNat]? = some (bytes, t[limit.toNat]) ∧
          Utf8.encode kept = (Utf8.encode t).take bytes) ∧
    ∀ (m n : Int) (t : Text), 0 ≤ m → 0 ≤ n → (truncate n t >>= truncate m) = truncate (min m n) t := by
  refine ⟨fun _ _ => truncate_error_iff, fun _ _ => truncate_of_unlimited, ?_,
    fun _ _ t hm hn => truncate_truncate hm hn t⟩
  intro limit t hlimit
  refine ⟨t.take limit.toNat, truncate_of_nonneg hlimit t, List.take_prefix _ _,
    List.length_take, fun h => ?_⟩
  refine ⟨(Utf8.encode (t.take limit.toNat)).length, ?_, Utf8.encode_take t _⟩
  rw [Utf8.getElem?_offsets, List.getElem?_eq_getElem h, Option.map_some, Nat.zero_add]

/-- Characters of one, two and four bytes: a cut before the last one, and a lower limit after it. -/
theorem truncate_by_characters_wide :
    let t : Text := "aé😀z".toList
    (∃ e, truncate (-2) t = .error e) ∧ truncate (-1) t = .ok t ∧
      (∃ kept, truncate 3 t = .ok kept ∧ kept.length = 3 ∧
        Utf8.encode kept = (Utf8.encode t).take 7) ∧
      (truncate 3 t >>= truncate 2) = truncate 2 t := by
  intro t
  obtain ⟨hrefused, hwhole, hcut, htwice⟩ := truncate_by_characters
  obtain ⟨kept, hkept, -, hlength, hbytes⟩ := hcut 3 t (by decide)
  obtain ⟨bytes, hoffset, hencode⟩ := hbytes (by decide)
  have hseven : bytes = 7 := congrArg Prod.fst (Option.some.inj hoffset).symm
  exact ⟨(hrefused (-2) t).mpr (by decide), hwhole (-1) t (.inl rfl),
    ⟨kept, hkept, hlength, hseven ▸ hencode⟩, htwice 2 3 t (by decide) (by decide)⟩

end Excerpt
end Stencil
