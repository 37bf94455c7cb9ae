import Stencil.Proofs.Yaml.QuotedText
import Stencil.Yaml.Plain

/-!
# Reading plain text

A text that can be written without quotes is read back word by word, up to a colon that ends it or
to the end of its line.
-/

namespace Stencil.Yaml

/-- What a plain text has to be from some word on. -/
structure Wordlike (t : Text) : Prop where
  ne_nil : t ≠ []
  chars : ∀ d ∈ t, Scalar.isPrintable d = true ∧ isBreak d = false
  head_ne : t.head? ≠ some ' ' ∧ t.head? ≠ some '#'
  last_ne : t.getLast? ≠ some ' ' ∧ t.getLast? ≠ some ':'
  noComment : Scalar.hasPair (fun c => isSpace c || isBreak c) (· = '#') t = false
  noColon : Scalar.hasPair (· = ':') (fun c => isSpace c || isBreak c) t = false

theorem Wordlike.of_canBePlain {t : Text} (h : Scalar.canBePlain t = true) : Wordlike t := by
  simp only [Scalar.canBePlain, Scalar.hasOuterSpace, Scalar.startsWithMark, Scalar.hasWordMark,
    Bool.and_eq_true, Bool.not_eq_true', Bool.or_eq_false_iff, decide_eq_false_iff_not,
    List.isEmpty_eq_false_iff, List.all_eq_true] at h
  obtain ⟨⟨⟨⟨hne, hchars⟩, hspace⟩, -, hmark⟩, ⟨hcomment, hcolon⟩, hlast⟩ := h
  refine ⟨hne, fun d hd => by simpa using hchars d hd, ⟨hspace.1, fun hhead => ?_⟩,
    ⟨hspace.2, hlast⟩, hcomment, hcolon⟩
  rw [hhead] at hmark
  exact absurd hmark (by decide)

theorem isSpace_eq_false {d : Char} (hp : Scalar.isPrintable d = true) (hd : d ≠ ' ') :
    isSpace d = false := by
  have htab : d ≠ '\t' := by
    rintro rfl
    exact absurd hp (by decide)
  simp [isSpace, hd, htab]

theorem Wordlike.no_blank {w t : Text} (h : Wordlike (w ++ t)) (hspace : ' ' ∉ w) :
    ∀ d ∈ w, isSpace d = false ∧ isBreak d = false := by
  intro d hd
  obtain ⟨hp, hbreak⟩ := h.chars d (List.mem_append_left t hd)
  exact ⟨isSpace_eq_false hp (ne_of_mem_of_not_mem hd hspace), hbreak⟩

theorem Wordlike.no_comment {t : Text} (h : Wordlike t) (r : Text) : (t ++ r).head? ≠ some '#' := by
  obtain ⟨d, t, rfl⟩ := List.exists_cons_of_ne_nil h.ne_nil
  exact h.head_ne.2

theorem Wordlike.endsGap {t : Text} (h : Wordlike t) (r : Text) : EndsGap (t ++ r) := by
  obtain ⟨d, t, rfl⟩ := List.exists_cons_of_ne_nil h.ne_nil
  intro e he
  obtain rfl : d = e := Option.some.inj he
  obtain ⟨hp, hbreak⟩ := h.chars d List.mem_cons_self
  exact ⟨isSpace_eq_false hp (by simpa using h.head_ne.1), hbreak⟩

/-- Whether a plain text ends before what follows. -/
def EndsPlain : Text → Prop
  | [] => True
  | d :: r => isSpace d = true ∨ isBreak d = true ∨ (d = ':' ∧ endsWord r = true)

/-- What follows spaces within a plain text is again one. -/
theorem Wordlike.after_spaces {w t : Text} {n : Nat}
    (h : Wordlike (w ++ (Text.fill (n + 1) ' ' ++ t))) (ht : t.head? ≠ some ' ') :
    Wordlike t ∧ w.getLast? ≠ some ':' := by
  have hlast : w ++ (Text.fill (n + 1) ' ' ++ t) = w ++ Text.fill n ' ' ++ ' ' :: t := by
    simp [Text.fill, List.replicate_succ']
  have hne : t ≠ [] := by
    rintro rfl
    refine h.last_ne.1 ?_
    rw [hlast]
    simp
  obtain ⟨d, t, rfl⟩ := List.exists_cons_of_ne_nil hne
  have hcomment := h.noComment
  have hcolon := h.noColon
  have hend := h.last_ne
  rw [hlast] at hcomment hcolon hend
  refine ⟨⟨hne, fun e he => h.chars e (by simp [he]), ⟨ht, ?_⟩, ?_, ?_, ?_⟩, ?_⟩
  · have hd := Scalar.not_pair_seam hcomment (by decide)
    simpa using hd
  · simpa using hend
  · exact Scalar.hasPair_suffix (s := w ++ Text.fill n ' ' ++ [' ']) (by simpa using hcomment)
  · exact Scalar.hasPair_suffix (s := w ++ Text.fill n ' ' ++ [' ']) (by simpa using hcolon)
  · intro hw
    obtain ⟨front, rfl⟩ := List.getLast?_eq_some_iff.mp hw
    have hcolon := h.noColon
    rw [List.append_assoc] at hcolon
    exact absurd (Scalar.not_pair_seam (y := ' ') hcolon (by decide)) (by decide)

/-- A text as words with spaces between them. -/
inductive Words : Text → Prop
  | last {w : Text} (ne_nil : w ≠ []) (noSpace : ' ' ∉ w) : Words w
  | further {w t : Text} {n : Nat} (ne_nil : w ≠ []) (noSpace : ' ' ∉ w) (next : t.head? ≠ some ' ')
      (h : Words t) : Words (w ++ (Text.fill (n + 1) ' ' ++ t))

theorem Wordlike.words {t : Text} (h : Wordlike t) : Words t := by
  induction hlength : t.length using Nat.strongRecOn generalizing t with
  | ind length ih =>
    obtain ⟨w, t', rfl, hw, ht'⟩ := exists_span (· ≠ ' ') t
    have hspace : ' ' ∉ w := fun hmem => by simpa using hw ' ' hmem
    have hne : w ≠ [] := by
      rintro rfl
      obtain ⟨d, t', rfl⟩ := List.exists_cons_of_ne_nil h.ne_nil
      exact h.head_ne.1 (by simpa using ht' d rfl)
    obtain ⟨n, t, rfl, ht⟩ := exists_spaces t'
    cases n with
    | zero =>
      -- No space follows the word, and so nothing does.
      cases t with
      | nil => exact (List.append_nil w).symm ▸ .last hne hspace
      | cons d t =>
        have hd : d = ' ' := by simpa using ht' d rfl
        exact absurd (congrArg some hd) ht
    | succ n =>
      have hpos := List.length_pos_iff.mpr hne
      rw [List.length_append, List.length_append] at hlength
      exact .further hne hspace ht (ih t.length (by omega) (h.after_spaces ht).1 rfl)

namespace Plain

theorem word?_end {r : Text} (hr : EndsPlain r) {c : Cursor} (hrest : c.rest = r) (fuel : Nat) :
    word? false (fuel + 1) c = some ([], c) := by
  subst hrest
  rw [word?]
  cases hr' : c.rest with
  | nil => rfl
  | cons d r =>
    rw [hr'] at hr
    rcases hr with h | h | ⟨rfl, h⟩ <;> simp [h]

/-- A word without a colon at its end is read up to what ends it. -/
theorem word?_append {w r : Text} (hblank : ∀ d ∈ w, isSpace d = false ∧ isBreak d = false)
    (hlast : w.getLast? ≠ some ':') (hr : EndsPlain r) {fuel : Nat} (hfuel : w.length < fuel)
    {c : Cursor} (hrest : c.rest = w ++ r) : word? false fuel c = some (w, c.past w) := by
  induction w generalizing fuel c with
  | nil =>
    obtain ⟨fuel, rfl⟩ := Nat.exists_eq_succ_of_ne_zero (n := fuel) (by omega)
    exact word?_end hr hrest fuel
  | cons d w ih =>
    rw [List.length_cons] at hfuel
    obtain ⟨fuel, rfl⟩ := Nat.exists_eq_succ_of_ne_zero (n := fuel) (by omega)
    obtain ⟨⟨hspace, hbreak⟩, hfurther⟩ := List.forall_mem_cons.mp hblank
    have hcolon : ¬(d = ':' ∧ endsWord (w ++ r) = true) := by
      rintro ⟨rfl, hends⟩
      cases w with
      | nil => exact hlast rfl
      | cons e w =>
        obtain ⟨hspace, hbreak⟩ := hfurther e List.mem_cons_self
        simp [endsWord, hspace, hbreak] at hends
    have hlast' : w.getLast? ≠ some ':' := by
      cases w with
      | nil => simp
      | cons e w => simpa using hlast
    have hnext : c.next.rest = w ++ r := by
      rw [Cursor.next, hrest]
      rfl
    have hread := ih hfurther hlast' (show w.length < fuel by omega) hnext
    rw [word?, hrest, List.cons_append]
    dsimp only
    rw [hspace, hbreak, hread]
    simp only [Bool.or_self, Bool.false_eq_true, if_false, Bool.false_and, Bool.or_false,
      Bool.and_eq_true, decide_eq_true_eq, if_neg hcolon, Cursor.past_cons hbreak]
    rfl

theorem column_past_word {w : Text} (hblank : ∀ d ∈ w, isSpace d = false ∧ isBreak d = false)
    (c : Cursor) (n : Nat) :
    (c.past (w ++ Text.fill n ' ')).column = c.column + (w.length + n) := by
  have hline : (w ++ Text.fill n ' ').any isBreak = false := by
    rw [List.any_append, any_isBreak_fill, Bool.or_false, ← Bool.not_eq_true, List.any_eq_true]
    rintro ⟨d, hd, h⟩
    rw [(hblank d hd).2] at h
    cases h
  rw [Cursor.column_past hline, List.length_append, Text.fill, List.length_replicate]

theorem words?_of_word {w : Text} (hne : w ≠ []) {least fuel : Nat} (gap : Gap) {c after : Cursor}
    (hmark : c.atDocumentMark = false) (hhash : c.rest.head? ≠ some '#')
    (hword : word? false (c.rest.length + 1) c = some (w, after)) :
    words? false least (fuel + 1) gap c =
      (Gap.read? least .empty after).bind fun (next, c) =>
        if next = .empty then some ⟨gap.text ++ w, false, c⟩
        else if c.column < least then some ⟨gap.text ++ w, next.isBroken, c⟩
        else (words? false least fuel next c).map
          fun p => { p with text := gap.text ++ w ++ p.text } := by
  have hcomment : ¬(c.atDocumentMark || decide (c.rest.head? = some '#')) = true := by
    simp [hmark, hhash]
  have hempty : w.isEmpty = false := List.isEmpty_eq_false_iff.mpr hne
  rw [words?, if_neg hcomment, hword]
  simp only [Option.bind_eq_bind, Option.bind_some, hempty, Bool.false_eq_true, if_false,
    Bool.not_false, Bool.true_and, decide_eq_true_eq]

/-- The spaces after a word and the words after them. -/
theorem words?_further {w t r : Text} {n : Nat} (ht : Wordlike (w ++ (Text.fill (n + 1) ' ' ++ t)))
    (hne : w ≠ []) (hspace : ' ' ∉ w) (hnext : t.head? ≠ some ' ') {least : Nat} (fuel : Nat)
    (gap : Gap) {c : Cursor} (hrest : c.rest = w ++ (Text.fill (n + 1) ' ' ++ (t ++ r)))
    (hcolumn : least ≤ c.column + 1) (hmark : c.atDocumentMark = false) :
    words? false least (fuel + 1) gap c =
      (words? false least fuel ⟨Text.fill (n + 1) ' ', none, []⟩
        (c.past (w ++ Text.fill (n + 1) ' '))).map
          fun p => { p with text := gap.text ++ w ++ p.text } := by
  obtain ⟨hfurther, hlast⟩ := ht.after_spaces hnext
  have hblank := ht.no_blank hspace
  have hhash : c.rest.head? ≠ some '#' := by
    have h := ht.no_comment r
    rwa [List.append_assoc, List.append_assoc, ← hrest] at h
  have hrest' : (c.past w).rest = Text.fill (n + 1) ' ' ++ (t ++ r) := Cursor.rest_past_of_eq hrest
  have hends : EndsPlain (Text.fill (n + 1) ' ' ++ (t ++ r)) := .inl rfl
  have hword : word? false (c.rest.length + 1) c = some (w, c.past w) :=
    word?_append hblank hlast hends (by rw [hrest, List.length_append]; omega) hrest
  have hgap : Gap.read? least .empty (c.past w) =
      some (⟨Text.fill (n + 1) ' ', none, []⟩, c.past (w ++ Text.fill (n + 1) ' ')) := by
    rw [Gap.read?_append (isGap_fill (n + 1)) (hfurther.endsGap r) least .empty hrest', Gap.empty,
      Gap.addAll_spaces, Cursor.past_append]
    rfl
  have hspaces : (⟨Text.fill (n + 1) ' ', none, []⟩ : Gap) ≠ .empty := by
    simp [Gap.empty, Text.fill]
  have hleast : ¬(c.past (w ++ Text.fill (n + 1) ' ')).column < least := by
    rw [column_past_word hblank]
    omega
  rw [words?_of_word hne gap hmark hhash hword, hgap]
  simp only [Option.bind_some, if_neg hspaces, if_neg hleast]

/-- A plain text is read word by word. Where it ends, a gap is read that is empty or goes over to a
line that is not indented enough. -/
theorem words?_append {t r : Text} (ht : Wordlike t) (hr : EndsPlain r) {least fuel : Nat}
    (gap : Gap) {c : Cursor} (hrest : c.rest = t ++ r) (hfuel : t.length < fuel)
    (hcolumn : least ≤ c.column + 1) (hmark : c.atDocumentMark = false) {next : Gap}
    {after : Cursor} (hgap : Gap.read? least .empty (c.past t) = some (next, after))
    (hend : next = .empty ∨ after.column < least) :
    words? false least fuel gap c = some ⟨gap.text ++ t, next.isBroken, after⟩ := by
  have hwords := ht.words
  induction hwords generalizing fuel gap c with
  | @last w hne hspace =>
    obtain ⟨fuel, rfl⟩ := Nat.exists_eq_succ_of_ne_zero (n := fuel) (by omega)
    have hhash : c.rest.head? ≠ some '#' := hrest ▸ ht.no_comment r
    have hword : word? false (c.rest.length + 1) c = some (w, c.past w) := by
      refine word?_append ?_ ht.last_ne.2 hr (by rw [hrest, List.length_append]; omega) hrest
      exact Wordlike.no_blank (t := []) (by rwa [List.append_nil]) hspace
    rw [words?_of_word hne gap hmark hhash hword, hgap]
    by_cases hempty : next = .empty
    · subst hempty
      simp [Gap.isBroken, Gap.empty]
    · have hleast := hend.resolve_left hempty
      simp [if_neg hempty, hleast]
  | @further w t n hne hspace hnext _ ih =>
    rw [List.append_assoc, List.append_assoc] at hrest
    rw [List.length_append, List.length_append, Text.fill, List.length_replicate] at hfuel
    obtain ⟨fuel, rfl⟩ := Nat.exists_eq_succ_of_ne_zero (n := fuel) (by omega)
    have hfurther := (ht.after_spaces hnext).1
    -- The further words start later on the same line.
    let c' := c.past (w ++ Text.fill (n + 1) ' ')
    have hcolumn' : c'.column = c.column + (w.length + (n + 1)) :=
      column_past_word (ht.no_blank hspace) c (n + 1)
    have hrest' : c'.rest = t ++ r :=
      Cursor.rest_past_of_eq (by rw [hrest, List.append_assoc])
    have hpast : c'.past t = c.past (w ++ (Text.fill (n + 1) ' ' ++ t)) := by
      rw [← Cursor.past_append, List.append_assoc]
    have hread := ih hfurther ⟨Text.fill (n + 1) ' ', none, []⟩ hrest'
      (show t.length < fuel by omega) (by omega) (Cursor.atDocumentMark_of_column (by omega))
      (by rw [hpast, hgap])
    rw [words?_further ht hne hspace hnext fuel gap hrest hcolumn hmark, hread]
    simp [Gap.text]

/-- A plain text is read from its start. -/
theorem read?_append {t r : Text} (ht : Wordlike t) (hr : EndsPlain r) {least : Nat} {c : Cursor}
    (hrest : c.rest = t ++ r) (hcolumn : least ≤ c.column + 1) (hmark : c.atDocumentMark = false)
    {next : Gap} {after : Cursor} (hgap : Gap.read? least .empty (c.past t) = some (next, after))
    (hend : next = .empty ∨ after.column < least) :
    read? false least c = some ⟨t, next.isBroken, after⟩ := by
  refine words?_append ht hr .empty hrest ?_ hcolumn hmark hgap hend
  rw [hrest, List.length_append]
  omega

end Plain
end Stencil.Yaml
