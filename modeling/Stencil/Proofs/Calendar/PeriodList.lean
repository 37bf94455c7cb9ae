import Stencil.Calendar.Timestamp
import Stencil.Proofs.Calendar.PeriodShift
import Stencil.Proofs.Calendar.PeriodText
import Stencil.Proofs.Fallible

/-!
# Lists of periods

Main statement: a list of periods in two parts leads where its second part leads from where the
first one leads, and fails as the first token does that writes no period or leads out of range.
Between the parts the moment is a number of milliseconds, which loses nothing when the first moment
is one.
-/

namespace Stencil.Calendar
open Fallible
variable {m m' now : Moment} {token : Text} {tokens ps qs : List Text} {e : HelperError}

/-! ## Moments and milliseconds -/

/-- The moment is a whole number of milliseconds. -/
def Moment.OnMillis (m : Moment) : Prop := m.nanos % milliNanos = 0

instance (m : Moment) : Decidable m.OnMillis := inferInstanceAs (Decidable (_ = _))

/-- A moment is found again by its milliseconds. -/
theorem Moment.ofMillis?_millis (h : m.OnMillis) : Moment.ofMillis? m.millis = some m := by
  have hlt := m.nanos_lt
  unfold OnMillis milliNanos at h
  unfold dayNanos at hlt
  have hday : dayOf m.millis = m.day := by
    unfold dayOf millis dayMillis milliNanos
    omega
  have hnanos : (m.millis % dayMillis).toNat * milliNanos = m.nanos := by
    unfold millis dayMillis milliNanos
    omega
  have hrepresentable : (Date.ofDayNumber (dayOf m.millis)).Representable := by
    rw [hday]
    exact m.representable
  rw [ofMillis?, dif_pos hrepresentable, Option.some_inj]
  exact Moment.ext hday hnanos

/-! ## Tokens in turn -/

/-- What a token is refused for when its turn comes at a moment. -/
inductive Refuses (m : Moment) (token : Text) : HelperError → Prop
  | malformed (h : ∀ p : Period, ¬ p.Spells token) : Refuses m token (.invalidPeriod token)
  | outOfRange {p : Period} (hspells : p.Spells token)
      (h : ¬ (p.target m.date).Representable) : Refuses m token (.timestampOutOfRange m.millis)

theorem applyToken_eq_ok_iff :
    applyToken m token = .ok m' ↔ ∃ p : Period, p.Spells token ∧ p.apply m = .ok m' := by
  simp only [applyToken, bind_eq_ok_iff, Period.parse_eq_ok_iff]

theorem applyToken_eq_error_iff : applyToken m token = .error e ↔ Refuses m token e := by
  simp only [applyToken, bind_eq_error_iff, Period.parse_eq_ok_iff]
  constructor
  · rintro (h | ⟨p, hspells, h⟩)
    · have hmalformed : ∀ p : Period, ¬ p.Spells token := by
        intro p hp
        rw [Period.parse_eq_ok_iff.mpr hp] at h
        cases h
      rw [Period.parse_of_not_spells hmalformed] at h
      obtain rfl := Except.error.inj h
      exact .malformed hmalformed
    · obtain ⟨hlast, rfl⟩ := Period.apply_eq_error_iff.mp h
      exact .outOfRange hspells hlast
  · intro h
    cases h with
    | malformed h => exact .inl (Period.parse_of_not_spells h)
    | outOfRange hspells h => exact .inr ⟨_, hspells, Period.apply_eq_error_iff.mpr ⟨h, rfl⟩⟩

theorem applyPeriods_nil (m : Moment) : applyPeriods m [] = .ok m := rfl

theorem applyPeriods_cons (m : Moment) (token : Text) (tokens : List Text) :
    applyPeriods m (token :: tokens) = applyToken m token >>= fun m' => applyPeriods m' tokens :=
  List.foldlM_cons

theorem applyPeriods_append (m : Moment) (ps qs : List Text) :
    applyPeriods m (ps ++ qs) = applyPeriods m ps >>= fun m' => applyPeriods m' qs :=
  List.foldlM_append

/-- Periods leave the time of day. -/
theorem nanos_of_applyPeriods (h : applyPeriods m tokens = .ok m') : m'.nanos = m.nanos := by
  induction tokens generalizing m with
  | nil =>
    obtain rfl := Except.ok.inj h
    rfl
  | cons token tokens ih =>
    rw [applyPeriods_cons] at h
    obtain ⟨next, htoken, hrest⟩ := bind_eq_ok_iff.mp h
    obtain ⟨p, -, hstep⟩ := applyToken_eq_ok_iff.mp htoken
    exact (ih hrest).trans (Period.apply_eq_ok_iff.mp hstep).2

/-- A list fails as the first token does that is refused at the moment to which those before it
lead. -/
theorem applyPeriods_eq_error_iff :
    applyPeriods m tokens = .error e ↔
      ∃ before token after m', tokens = before ++ token :: after ∧
        applyPeriods m before = .ok m' ∧ Refuses m' token e := by
  constructor
  · intro h
    induction tokens generalizing m with
    | nil => cases h
    | cons token tokens ih =>
      rw [applyPeriods_cons] at h
      rcases bind_eq_error_iff.mp h with h | ⟨next, htoken, hrest⟩
      · exact ⟨[], token, tokens, m, rfl, applyPeriods_nil m, applyToken_eq_error_iff.mp h⟩
      · obtain ⟨before, token', after, m', rfl, hbefore, hrefuses⟩ := ih hrest
        refine ⟨token :: before, token', after, m', rfl, ?_, hrefuses⟩
        rw [applyPeriods_cons]
        exact bind_eq_ok_iff.mpr ⟨next, htoken, hbefore⟩
  · rintro ⟨before, token, after, m', rfl, hbefore, hrefuses⟩
    rw [applyPeriods_append]
    refine bind_eq_error_iff.mpr (.inr ⟨m', hbefore, ?_⟩)
    rw [applyPeriods_cons]
    exact bind_eq_error_iff.mpr (.inl (applyToken_eq_error_iff.mpr hrefuses))

theorem afterPeriods_millis (h : m.OnMillis) (tokens : List Text) :
    afterPeriods m.millis tokens = (applyPeriods m tokens).map Moment.millis := by
  unfold afterPeriods
  rw [Moment.ofMillis?_millis h]

/-- Passing on from one part of a list to the next by milliseconds loses nothing. -/
theorem afterPeriods_append (h : m.OnMillis) (ps qs : List Text) :
    afterPeriods m.millis (ps ++ qs) =
      afterPeriods m.millis ps >>= fun millis => afterPeriods millis qs := by
  rw [afterPeriods_millis h, afterPeriods_millis h, applyPeriods_append]
  cases hfirst : applyPeriods m ps with
  | error e => rfl
  | ok m' =>
    -- Periods keep the time of day, so the moment between the parts is found by its milliseconds.
    have hmillis : m'.OnMillis := by
      rw [Moment.OnMillis, nanos_of_applyPeriods hfirst]
      exact h
    exact (afterPeriods_millis hmillis qs).symm

/-! ## Lists in writing -/

/-- Texts that can stand between commas, without blanks around them; the last one is not empty. -/
structure Listed (tokens : List Text) : Prop where
  no_comma : ∀ t ∈ tokens, ',' ∉ t
  trimmed : ∀ t ∈ tokens, Text.trim t = t
  last_ne_nil : ∃ t, tokens.getLast? = some t ∧ t ≠ []

/-- The present, moved by the periods of a list. -/
def nowText (tokens : List Text) : Text := ['n', 'o', 'w'] ++ Text.join [','] tokens

theorem Listed.append (hps : Listed ps) (hqs : Listed qs) : Listed (ps ++ qs) := by
  obtain ⟨last, hlast, hne⟩ := hqs.last_ne_nil
  refine ⟨?_, ?_, last, ?_, hne⟩
  · exact List.forall_mem_append.mpr ⟨hps.no_comma, hqs.no_comma⟩
  · exact List.forall_mem_append.mpr ⟨hps.trimmed, hqs.trimmed⟩
  · rw [List.getLast?_append, hlast]
    rfl

/-- Commas at the end of a list count for nothing. -/
theorem periodTokens_join (hcomma : ∀ t ∈ tokens, ',' ∉ t)
    (hlast : tokens = [] ∨ ∃ t, tokens.getLast? = some t ∧ t ≠ []) (n : ℕ) :
    periodTokens (Text.join [','] tokens ++ Text.fill n ',') = tokens := by
  have hdrop : Text.dropEndWhile (· == ',') (Text.join [','] tokens ++ Text.fill n ',') =
      Text.join [','] tokens := by
    apply Text.dropEndWhile_append
    · rcases hlast with rfl | ⟨t, ht, hne⟩
      · simp [Text.join]
      · intro c hc
        rw [Text.getLast?_join ht hne] at hc
        have hmem := hcomma t (List.mem_of_getLast? ht)
        exact beq_eq_false_iff_ne.mpr fun heq => hmem (heq ▸ List.mem_of_getLast? hc)
    · intro c hc
      rw [List.eq_of_mem_replicate hc]
      rfl
  unfold periodTokens
  rw [hdrop]
  rcases hlast with rfl | ⟨t, ht, hne⟩
  · rfl
  · have hjoin : Text.join [','] tokens ≠ [] := by
      intro hnil
      have hend := Text.getLast?_join ht hne [',']
      rw [hnil, List.getLast?_eq_some_getLast hne] at hend
      cases hend
    have htokens : tokens ≠ [] := by
      rintro rfl
      cases ht
    dsimp only
    rw [if_neg (by simpa using hjoin), Text.fields_join htokens hcomma]

theorem resolveText_now (periods : Text) (now : ℤ) :
    resolveText (['n', 'o', 'w'] ++ periods) now = afterPeriods now (periodTokens periods) := by
  rw [resolveText, if_neg (by simp), Text.afterPrefix?_append]

theorem Listed.trim_nowText (h : Listed tokens) (n : ℕ) :
    Text.trim (nowText tokens ++ Text.fill n ',') = nowText tokens ++ Text.fill n ',' := by
  obtain ⟨t, ht, hne⟩ := h.last_ne_nil
  apply Text.trim_of_ends
  · rintro c ⟨⟩
    rfl
  · intro c hc
    cases n with
    | zero =>
      rw [Text.fill, List.replicate_zero, List.append_nil, nowText, List.getLast?_append,
        Text.getLast?_join ht hne, List.getLast?_eq_some_getLast hne] at hc
      refine Text.getLast?_of_trim (h.trimmed t (List.mem_of_getLast? ht)) c ?_
      rwa [List.getLast?_eq_some_getLast hne]
    | succ n =>
      rw [Text.fill, List.replicate_succ', ← List.append_assoc, List.getLast?_concat] at hc
      obtain rfl := Option.some.inj hc
      rfl

theorem resolve_nowText_fill (h : Listed tokens) (n : ℕ) (now : ℤ) :
    resolve (some (.string (nowText tokens ++ Text.fill n ','))) now = afterPeriods now tokens := by
  rw [resolve, h.trim_nowText, nowText, List.append_assoc, resolveText_now,
    periodTokens_join h.no_comma (.inr h.last_ne_nil)]

theorem resolve_nowText (h : Listed tokens) (now : ℤ) :
    resolve (some (.string (nowText tokens))) now = afterPeriods now tokens := by
  have hfill := resolve_nowText_fill h 0 now
  rwa [Text.fill, List.replicate_zero, List.append_nil] at hfill

theorem not_spells_nil (p : Period) : ¬ p.Spells [] := fun h => h.ne_nil rfl

/-- A list in two parts leads where the second part leads from where the first one leads, a list
fails as its first token does that is refused in its turn, commas at the end of it change nothing,
and an empty token before others is refused as one that writes no period. -/
theorem resolve_lists_compose (hnow : now.OnMillis) (hps : Listed ps) (hqs : Listed qs) :
    resolve (some (.string (nowText (ps ++ qs)))) now.millis =
        (resolve (some (.string (nowText ps))) now.millis >>= fun millis =>
          resolve (some (.string (nowText qs))) millis) ∧
      (∀ e, resolve (some (.string (nowText ps))) now.millis = .error e ↔
        ∃ before token after m, ps = before ++ token :: after ∧
          applyPeriods now before = .ok m ∧ Refuses m token e) ∧
      (∀ n, resolve (some (.string (nowText ps ++ Text.fill n ','))) now.millis =
        resolve (some (.string (nowText ps))) now.millis) ∧
      ∀ before after m, ps = before ++ [] :: after → applyPeriods now before = .ok m →
        resolve (some (.string (nowText ps))) now.millis = .error (.invalidPeriod []) := by
  have herror (e : HelperError) : resolve (some (.string (nowText ps))) now.millis = .error e ↔
      ∃ before token after m, ps = before ++ token :: after ∧
        applyPeriods now before = .ok m ∧ Refuses m token e := by
    rw [resolve_nowText hps, afterPeriods_millis hnow, map_eq_error_iff, applyPeriods_eq_error_iff]
  refine ⟨?_, herror, ?_, ?_⟩
  · simp only [resolve_nowText (hps.append hqs), resolve_nowText hps, resolve_nowText hqs]
    exact afterPeriods_append hnow ps qs
  · intro n
    rw [resolve_nowText_fill hps, resolve_nowText hps]
  · intro before after m heq hbefore
    exact (herror _).mpr ⟨before, [], after, m, heq, hbefore, .malformed not_spells_nil⟩

/-- From noon of the last day of January 2024: a month clips the day to the leap day, from which a
second month and ten days back lead to the nineteenth of March. An empty token is refused when the
list goes on behind it. -/
theorem resolve_lists_compose_leap_day :
    let now : Moment := ⟨19753, 43200000000000, by decide, by decide⟩
    let ps := ["1m0d".toList]
    let qs := ["1m0d".toList, "-0m10d".toList]
    now.OnMillis ∧ Listed ps ∧ Listed qs ∧ now.millis = 1706702400000 ∧
      resolve (some (.string (nowText ps))) 1706702400000 = .ok 1709208000000 ∧
      resolve (some (.string (nowText qs))) 1709208000000 = .ok 1710849600000 ∧
      resolve (some (.string (nowText (ps ++ qs)))) 1706702400000 = .ok 1710849600000 := by
  intro now ps qs
  have hnow : now.OnMillis := by decide
  have hps : Listed ps := ⟨by decide, by decide, "1m0d".toList, by decide⟩
  have hqs : Listed qs := ⟨by decide, by decide, "-0m10d".toList, by decide⟩
  have hmillis : now.millis = 1706702400000 := by decide
  have hfirst : resolve (some (.string (nowText ps))) 1706702400000 = .ok 1709208000000 := by
    decide
  have hsecond : resolve (some (.string (nowText qs))) 1709208000000 = .ok 1710849600000 := by
    decide
  refine ⟨hnow, hps, hqs, hmillis, hfirst, hsecond, ?_⟩
  have hcompose := (resolve_lists_compose hnow hps hqs).1
  simp only [hmillis, hfirst] at hcompose
  exact hcompose.trans hsecond

end Stencil.Calendar
