import Stencil.Proofs.Binary64.NumeralText
import Stencil.Proofs.Calendar.PeriodList

/-!
# Texts that name timestamps

Main statement: a text names a timestamp when it is empty, a decimal numeral, or `now` with a list
of periods, none of which leads out of range; the words for infinity and not-a-number name one as
well, and no other text does.
-/

namespace Stencil.Calendar
open Scientific Fallible
variable {t periods : Text} {tokens : List Text} {now : ℤ}

/-- `now` and the periods that move it, with any number of commas behind them. -/
inductive NowText : Text → Prop
  | mk {tokens : List Text} (h : ∀ token ∈ tokens, ∃ p : Period, p.Spells token) (n : ℕ) :
      NowText (nowText tokens ++ Text.fill n ',')

theorem NowText.exists_periods (h : NowText t) : ∃ periods, t = ['n', 'o', 'w'] ++ periods := by
  obtain ⟨-, n⟩ := h
  exact ⟨_, List.append_assoc _ _ _⟩

/-! ## The present and its periods -/

theorem eq_join_periodTokens (periods : Text) :
    ∃ n, periods = Text.join [','] (periodTokens periods) ++ Text.fill n ',' := by
  obtain ⟨dropped, heq, hcommas⟩ := Text.exists_dropped (· == ',') periods
  have hfill : dropped = Text.fill dropped.length ',' :=
    List.eq_replicate_of_mem fun c hc => beq_iff_eq.mp (hcommas c hc)
  have hjoin : Text.join [','] (periodTokens periods) =
      Text.dropEndWhile (· == ',') periods := by
    unfold periodTokens
    dsimp only
    split
    · next hnil =>
      rw [List.isEmpty_iff.mp hnil]
      rfl
    · exact Text.join_fields ',' _
  refine ⟨dropped.length, ?_⟩
  rw [hjoin, ← hfill]
  exact heq

/-- A list leads to a moment only when each of its tokens writes a period. -/
theorem spells_of_applyPeriods {m m' : Moment} (h : applyPeriods m tokens = .ok m') :
    ∀ token ∈ tokens, ∃ p : Period, p.Spells token := by
  induction tokens generalizing m with
  | nil => exact List.forall_mem_nil _
  | cons token tokens ih =>
    rw [applyPeriods_cons] at h
    obtain ⟨next, htoken, hrest⟩ := bind_eq_ok_iff.mp h
    obtain ⟨p, hspells, -⟩ := applyToken_eq_ok_iff.mp htoken
    exact List.forall_mem_cons.mpr ⟨⟨p, hspells⟩, ih hrest⟩

/-- A list of periods leads to a moment or out of range. -/
theorem applyPeriods_of_spells (m : Moment) (h : ∀ token ∈ tokens, ∃ p : Period, p.Spells token) :
    (∃ m', applyPeriods m tokens = .ok m') ∨
      ∃ millis, applyPeriods m tokens = .error (.timestampOutOfRange millis) := by
  cases hresult : applyPeriods m tokens with
  | ok m' => exact .inl ⟨m', rfl⟩
  | error e =>
    obtain ⟨before, token, after, m', rfl, -, hrefuses⟩ := applyPeriods_eq_error_iff.mp hresult
    cases hrefuses with
    | malformed hmalformed =>
      obtain ⟨p, hp⟩ := h token (List.mem_append_right before List.mem_cons_self)
      exact absurd hp (hmalformed p)
    | outOfRange => exact .inr ⟨_, rfl⟩

theorem periodTokens_of_spells (h : ∀ token ∈ tokens, ∃ p : Period, p.Spells token) (n : ℕ) :
    periodTokens (Text.join [','] tokens ++ Text.fill n ',') = tokens := by
  apply periodTokens_join
  · intro token htoken hcomma
    obtain ⟨p, hp⟩ := h token htoken
    exact absurd (hp.forall_mem hcomma) (by decide)
  · cases hlast : tokens.getLast? with
    | none => exact .inl (List.getLast?_eq_none_iff.mp hlast)
    | some token =>
      obtain ⟨p, hp⟩ := h token (List.mem_of_getLast? hlast)
      exact .inr ⟨token, rfl, hp.ne_nil⟩

theorem nowText_of_resolveText {millis : ℤ}
    (h : resolveText (['n', 'o', 'w'] ++ periods) now = .ok millis) :
    NowText (['n', 'o', 'w'] ++ periods) := by
  rw [resolveText_now] at h
  unfold afterPeriods at h
  split at h
  · next m hm =>
    obtain ⟨m', happlied, -⟩ := map_eq_ok_iff.mp h
    obtain ⟨n, heq⟩ := eq_join_periodTokens periods
    have htext := NowText.mk (spells_of_applyPeriods happlied) n
    rwa [nowText, List.append_assoc, ← heq] at htext
  · cases h

theorem resolveText_of_nowText (h : NowText t) (now : ℤ) :
    (∃ millis, resolveText t now = .ok millis) ∨
      ∃ millis, resolveText t now = .error (.timestampOutOfRange millis) := by
  obtain ⟨h, n⟩ := h
  rw [nowText, List.append_assoc, resolveText_now, periodTokens_of_spells h]
  unfold afterPeriods
  split
  · next m hm =>
    rcases applyPeriods_of_spells m h with ⟨m', happlied⟩ | ⟨millis, happlied⟩
    · rw [happlied]
      exact .inl ⟨_, rfl⟩
    · rw [happlied]
      exact .inr ⟨_, rfl⟩
  · exact .inr ⟨_, rfl⟩

/-! ## Numerals and words -/

/-- No float is written with `now` in front. -/
theorem ofText?_now (periods : Text) :
    FloatReading.ofText? (['n', 'o', 'w'] ++ periods) = none := by
  have hnumeral : Scientific.ofUnsigned? false (['n', 'o', 'w'] ++ periods) = none := rfl
  have hword : FloatReading.ofWord? false (['n', 'o', 'w'] ++ periods) = none := by
    simp [FloatReading.ofWord?]
  rw [FloatReading.ofText?, splitSign_of_head? (by rintro c ⟨⟩; decide)]
  dsimp only
  rw [hnumeral]
  exact hword

theorem ofText?_of_toSigned? {millis : ℤ} (h : Numeral.toSigned? t = some millis) :
    ∃ reading, FloatReading.ofText? t = some reading := by
  obtain ⟨hread, -⟩ := Option.filter_eq_some_iff.mp h
  obtain ⟨sign, digits, hsign, hdigits, rfl⟩ := toInt?_isSome_iff.mp ⟨_, hread⟩
  have hbody : UnsignedText (digits ++ []) := .mk (.plain hdigits) .absent
  rw [List.append_nil] at hbody
  exact FloatReading.ofText?_isSome_iff.mpr (.inl (.mk hsign hbody))

/-- Without `now` in front, the texts of floats name timestamps, and the empty text does. -/
theorem resolveText_other (h : ∀ periods, t ≠ ['n', 'o', 'w'] ++ periods) (now : ℤ) :
    (∃ millis, resolveText t now = .ok millis) ∧
        (t = [] ∨ ∃ reading, FloatReading.ofText? t = some reading) ∨
      resolveText t now = .error (notATimestamp t) ∧
        ¬ (t = [] ∨ ∃ reading, FloatReading.ofText? t = some reading) := by
  have hprefix : Text.afterPrefix? ['n', 'o', 'w'] t = none :=
    Option.eq_none_iff_forall_not_mem.mpr fun periods hperiods =>
      h periods (Text.eq_append_of_afterPrefix? hperiods)
  rw [resolveText, hprefix]
  split
  · next hmarker =>
    refine .inl ⟨⟨now, rfl⟩, hmarker.imp_right ?_⟩
    rintro rfl
    exact ⟨_, FloatReading.ofText?_ofNat 0⟩
  · next hmarker =>
    dsimp only
    split
    · next millis hsigned => exact .inl ⟨⟨millis, rfl⟩, .inr (ofText?_of_toSigned? hsigned)⟩
    · split
      · next reading hread => exact .inl ⟨⟨_, rfl⟩, .inr ⟨reading, hread⟩⟩
      · next hread =>
        refine .inr ⟨rfl, ?_⟩
        rintro (hempty | ⟨reading, hread'⟩)
        · exact hmarker (.inl hempty)
        · rw [hread] at hread'
          cases hread'

/-- A text that names a timestamp is empty but for blanks, `now` with periods, a numeral or a word
for infinity or not-a-number. All of these name one, except for periods that lead out of range, and
a text that begins in another way than with `now` is otherwise refused with its own text. -/
theorem resolve_text_accepts (s : Text) (now : ℤ) :
    ((∃ millis, resolve (some (.string s)) now = .ok millis) →
      Text.trim s = [] ∨ NowText (Text.trim s) ∨ NumeralText (Text.trim s) ∨
        WordText (Text.trim s)) ∧
    (Text.trim s = [] ∨ NumeralText (Text.trim s) ∨ WordText (Text.trim s) →
      ∃ millis, resolve (some (.string s)) now = .ok millis) ∧
    (NowText (Text.trim s) → (∃ millis, resolve (some (.string s)) now = .ok millis) ∨
      ∃ millis, resolve (some (.string s)) now = .error (.timestampOutOfRange millis)) ∧
    ((∀ periods, Text.trim s ≠ ['n', 'o', 'w'] ++ periods) →
      ¬ (Text.trim s = [] ∨ NumeralText (Text.trim s) ∨ WordText (Text.trim s)) →
      resolve (some (.string s)) now = .error (notATimestamp (Text.trim s))) := by
  have hresolve : resolve (some (.string s)) now = resolveText (Text.trim s) now := rfl
  rw [hresolve, ← FloatReading.ofText?_isSome_iff]
  generalize Text.trim s = t
  -- Whether `now` stands in front decides between the list of periods and the other readers.
  refine ⟨?_, ?_, fun h => resolveText_of_nowText h now, ?_⟩
  · rintro ⟨millis, h⟩
    by_cases hnow : ∃ periods, t = ['n', 'o', 'w'] ++ periods
    · obtain ⟨periods, rfl⟩ := hnow
      exact .inr (.inl (nowText_of_resolveText h))
    · rcases resolveText_other (not_exists.mp hnow) now with ⟨-, haccepted⟩ | ⟨herror, -⟩
      · exact haccepted.imp_right .inr
      · rw [h] at herror
        cases herror
  · intro h
    have hnow : ∀ periods, t ≠ ['n', 'o', 'w'] ++ periods := by
      rintro periods rfl
      rw [ofText?_now] at h
      rcases h with h | ⟨_, h⟩
      · cases h
      · cases h
    rcases resolveText_other hnow now with ⟨hok, -⟩ | ⟨-, hrefused⟩
    · exact hok
    · exact absurd h hrefused
  · intro hnow hrefused
    rcases resolveText_other hnow now with ⟨-, haccepted⟩ | ⟨herror, -⟩
    · exact absurd haccepted hrefused
    · exact herror

/-- The word for not-a-number names the start of 1970, although it is no numeral. -/
theorem resolve_word_accepted :
    Text.trim "nan".toList = "nan".toList ∧ "nan".toList ≠ [] ∧ ¬ NowText "nan".toList ∧
      ¬ NumeralText "nan".toList ∧
      resolve (some (.string "nan".toList)) 1706702400000 = .ok 0 := by
  refine ⟨by decide, by decide, ?_, ?_, by decide⟩
  · intro h
    obtain ⟨periods, heq⟩ := h.exists_periods
    cases heq
  · intro h
    obtain ⟨s, hs⟩ := Scientific.ofText?_isSome_iff.mpr h
    cases hs

end Stencil.Calendar
