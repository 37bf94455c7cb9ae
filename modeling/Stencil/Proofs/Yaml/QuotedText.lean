import Stencil.Proofs.Text.Hexadecimal
import Stencil.Proofs.Text.Spelling
import Stencil.Proofs.Yaml.Position
import Stencil.Yaml.Quoted

/-!
# Reading quoted text

A text that is written between quotes is read back as it is, whatever follows. Between double quotes
it stands on one line, as its breaks are escaped; between single quotes its breaks mean themselves,
and the blanks that indent its further lines do not count.
-/

namespace Stencil.Yaml

/-! ## Pairs of neighbours -/

theorem Scalar.hasPair_iff {p q : Char → Bool} {t : Text} :
    Scalar.hasPair p q t = true ↔
      ∃ before x y after, t = before ++ x :: y :: after ∧ p x = true ∧ q y = true := by
  induction t with
  | nil => simp [hasPair]
  | cons c t ih =>
    cases t with
    | nil =>
      constructor
      · intro h
        cases h
      · rintro ⟨before, x, y, after, h, -⟩
        cases before <;> simp at h
    | cons d t =>
      rw [hasPair, Bool.or_eq_true, Bool.and_eq_true, ih]
      constructor
      · rintro (⟨hp, hq⟩ | ⟨before, x, y, after, h, hp, hq⟩)
        · exact ⟨[], c, d, t, rfl, hp, hq⟩
        · exact ⟨c :: before, x, y, after, by rw [h]; rfl, hp, hq⟩
      · rintro ⟨before, x, y, after, h, hp, hq⟩
        cases before with
        | nil =>
          obtain ⟨rfl, rfl, -⟩ : c = x ∧ d = y ∧ t = after := by simpa using h
          exact .inl ⟨hp, hq⟩
        | cons c' before => exact .inr ⟨before, x, y, after, (List.cons.inj h).2, hp, hq⟩

theorem Scalar.hasPair_suffix {p q : Char → Bool} {s t : Text}
    (h : Scalar.hasPair p q (s ++ t) = false) : Scalar.hasPair p q t = false := by
  rw [← Bool.not_eq_true, hasPair_iff] at h ⊢
  rintro ⟨before, x, y, after, rfl, hp, hq⟩
  exact h ⟨s ++ before, x, y, after, by simp, hp, hq⟩

/-- No pair stands at the seam of two parts. -/
theorem Scalar.not_pair_seam {p q : Char → Bool} {s t : Text} {x y : Char}
    (h : Scalar.hasPair p q (s ++ x :: y :: t) = false) (hp : p x = true) : q y = false := by
  rw [← Bool.not_eq_true, hasPair_iff] at h
  rw [← Bool.not_eq_true]
  exact fun hq => h ⟨s, x, y, t, rfl, hp, hq⟩

/-- The longest run of characters with a property at the start of a text, and what follows it. -/
theorem exists_span (p : Char → Bool) (t : Text) :
    ∃ s t', t = s ++ t' ∧ (∀ d ∈ s, p d = true) ∧ ∀ d ∈ t'.head?, p d = false := by
  induction t with
  | nil => exact ⟨[], [], rfl, by simp, by simp⟩
  | cons c t ih =>
    cases hc : p c with
    | true =>
      obtain ⟨s, t', rfl, hs, ht'⟩ := ih
      exact ⟨c :: s, t', rfl, List.forall_mem_cons.mpr ⟨hc, hs⟩, ht'⟩
    | false => exact ⟨[], c :: t, rfl, by simp, by simpa using hc⟩

/-- The spaces at the start of a text, and what follows them. -/
theorem exists_spaces (t : Text) :
    ∃ n t', t = Text.fill n ' ' ++ t' ∧ t'.head? ≠ some ' ' := by
  obtain ⟨s, t', rfl, hs, ht'⟩ := exists_span (· = ' ') t
  have hfill : s = Text.fill s.length ' ' :=
    List.eq_replicate_of_mem fun d hd => by simpa using hs d hd
  exact ⟨s.length, t', by rw [← hfill], fun h => by simpa using ht' ' ' h⟩

theorem isGap_fill (n : Nat) : IsGap (Text.fill n ' ') :=
  fun _ hd => .inl (List.eq_of_mem_replicate hd)

theorem any_isBreak_fill (n : Nat) : (Text.fill n ' ').any isBreak = false := by
  rw [← Bool.not_eq_true, List.any_eq_true]
  rintro ⟨d, hd, hbreak⟩
  rw [List.eq_of_mem_replicate hd] at hbreak
  exact absurd hbreak (by decide)

namespace Quoted

/-! ## Steps -/

section
variable {quote : Quote} {fuel : Nat} {c : Cursor} {r : Text}

theorem tail?_close (hrest : c.rest = quote.mark :: r) (hcolumn : c.column ≠ 0)
    (hr : quote = .single → r.head? ≠ some quote.mark) :
    tail? quote (fuel + 1) c = some ([], c.next) := by
  have hclose : ¬(quote = .single ∧ r.head? = some quote.mark) := fun h => hr h.1 h.2
  rw [tail?, Cursor.atDocumentMark_of_column hcolumn, hrest]
  simp only [Bool.false_eq_true, if_false, if_true, if_neg hclose]

theorem tail?_char {d : Char} (hrest : c.rest = d :: r) (hcolumn : c.column ≠ 0)
    (hmark : d ≠ quote.mark) (hescape : ¬(quote = .double ∧ d = '\\'))
    (hspace : isSpace d = false) (hbreak : isBreak d = false) :
    tail? quote (fuel + 1) c = (tail? quote fuel c.next).map fun (t, c) => (d :: t, c) := by
  rw [tail?, Cursor.atDocumentMark_of_column hcolumn, hrest]
  simp only [Bool.false_eq_true, if_false, if_neg hmark, if_neg hescape, hspace, hbreak,
    Bool.or_false]

theorem tail?_gap {s : Text} (hs : IsGap s) (hne : s ≠ []) (hrest : c.rest = s ++ r)
    (hr : EndsGap r) (hcolumn : c.column ≠ 0) :
    tail? quote (fuel + 1) c =
      (tail? quote fuel (c.past s)).map fun (t, c) => ((Gap.empty.addAll s).text ++ t, c) := by
  obtain ⟨d, s', rfl⟩ := List.exists_cons_of_ne_nil hne
  have hd : isSpace d = true ∨ isBreak d = true := by
    rcases hs d List.mem_cons_self with rfl | h
    · exact .inl rfl
    · exact .inr h.2
  have hmark : d ≠ quote.mark := by
    rintro rfl
    cases quote <;> exact absurd hd (by decide)
  have hescape : ¬(quote = .double ∧ d = '\\') := by
    rintro ⟨-, rfl⟩
    exact absurd hd (by decide)
  rw [tail?, Cursor.atDocumentMark_of_column hcolumn, hrest, List.cons_append]
  simp only [Bool.false_eq_true, if_false, if_neg hmark, if_neg hescape, Bool.or_eq_true, if_pos hd,
    Gap.read?_append hs hr 0 .empty hrest, Option.bind_eq_bind, Option.bind_some]

theorem tail?_spaces {n : Nat} (hrest : c.rest = Text.fill (n + 1) ' ' ++ r) (hr : EndsGap r)
    (hcolumn : c.column ≠ 0) :
    tail? quote (fuel + 1) c = (tail? quote fuel (c.past (Text.fill (n + 1) ' '))).map
      fun (t, c) => (Text.fill (n + 1) ' ' ++ t, c) := by
  rw [tail?_gap (isGap_fill (n + 1)) (List.cons_ne_nil _ _) hrest hr hcolumn, Gap.empty,
    Gap.addAll_spaces]
  rfl

/-- Two single quotes stand for one. -/
theorem tail?_doubled (hrest : c.rest = '\'' :: '\'' :: r) (hcolumn : c.column ≠ 0) :
    tail? .single (fuel + 1) c =
      (tail? .single fuel (c.skip 2)).map fun (t, c) => ('\'' :: t, c) := by
  rw [tail?, Cursor.atDocumentMark_of_column hcolumn, hrest]
  rfl

theorem tail?_escape {d e : Char} (hrest : c.rest = '\\' :: d :: r) (hcolumn : c.column ≠ 0)
    (hd : isBreak d = false) {after : Cursor} (hescape : escape? c.next = some (e, after)) :
    tail? .double (fuel + 1) c =
      (tail? .double fuel after).map fun (t, c) => (e :: t, c) := by
  have hnone : c.next.lineBreak? = none := by
    refine Cursor.lineBreak?_eq_none fun d' hd' => ?_
    rw [Cursor.next, hrest] at hd'
    obtain rfl : d = d' := Option.some.inj hd'
    exact hd
  rw [tail?, Cursor.atDocumentMark_of_column hcolumn, hrest]
  have hmark : '\\' ≠ Quote.double.mark := by decide
  simp only [Bool.false_eq_true, if_false, if_neg hmark, and_self, if_true, hnone, hescape,
    Option.bind_eq_bind, Option.bind_some]

end

/-! ## Escapes -/

theorem isBreak_upperDigit : ∀ n < 16, isBreak (Hexadecimal.upperDigit n) = false := by decide

theorem any_isBreak_upperDigits (count n : Nat) :
    (Hexadecimal.upperDigits count n).any isBreak = false := by
  induction count generalizing n with
  | zero => rfl
  | succ count ih =>
    simp [Hexadecimal.upperDigits, ih, isBreak_upperDigit (n % 16) (Nat.mod_lt n (by decide))]

/-- A character that is written by its number is read from its digits. -/
theorem escape?_number {c : Cursor} {d : Char} {count : Nat} {e : Char} {r : Text}
    (hd : numberLength? d = some count) (he : e.toNat < Nat.pow 16 count)
    (hrest : c.rest = d :: (Hexadecimal.upperDigits count e.toNat ++ r)) :
    escape? c = some (e, c.skip (count + 1)) := by
  have hread := Hexadecimal.take?_prefix (Hexadecimal.take?_upperDigits count 0 e.toNat) r
  rw [Nat.zero_mul, Nat.zero_add, Nat.mod_eq_of_lt he] at hread
  rw [escape?, hrest]
  dsimp only
  rw [hd]
  dsimp only
  rw [hread]
  simp only [Option.bind_eq_bind, Option.bind_some, Char.ofNat_toNat]
  exact if_pos e.valid

theorem escape?_letter {c : Cursor} {d e : Char} {r : Text}
    (hd : Scalar.escapeLetter? e = some d) (hrest : c.rest = d :: r) :
    escape? c = some (e, c.next) ∧ isBreak d = false := by
  have hletter (n : Nat) (he : e.toNat = n) (hread : numberLength? d = none ∧
      shortEscape? d = some (Char.ofNat n) ∧ isBreak d = false) :
      escape? c = some (e, c.next) ∧ isBreak d = false := by
    obtain ⟨hnumber, hshort, hbreak⟩ := hread
    refine ⟨?_, hbreak⟩
    rw [escape?, hrest]
    dsimp only
    rw [hnumber]
    dsimp only
    rw [hshort, Option.map_some, ← Cursor.eq_of_toNat he]
  unfold Scalar.escapeLetter? at hd
  split at hd
  all_goals cases hd
  all_goals exact hletter _ ‹_› (by decide)

/-- A way to write a character after a backslash, on one line, that is read back. -/
structure Escapes (code : Text) (e : Char) : Prop where
  one_line : code.any isBreak = false
  read {c : Cursor} {r : Text} (h : c.rest = code ++ r) :
    escape? c = some (e, c.skip code.length)

/-- The codes of a character between double quotes on one line: a space, another character as it
is, and an escape. -/
inductive DoubleCode : Char → Text → Prop
  | space : DoubleCode ' ' [' ']
  | raw {e : Char} (noSpace : isSpace e = false) (noBreak : isBreak e = false)
      (noQuote : e ≠ '"') (noSlash : e ≠ '\\') : DoubleCode e [e]
  | escape {e d : Char} {code : Text} (escapes : Escapes (d :: code) e) :
      DoubleCode e ('\\' :: d :: code)

theorem doubleCode_doubleQuotedChar (e : Char) : DoubleCode e (Scalar.doubleQuotedChar e) := by
  have hnumber (d : Char) (count : Nat) (hd : numberLength? d = some count)
      (hbreak : isBreak d = false) (he : e.toNat < Nat.pow 16 count) :
      DoubleCode e ('\\' :: d :: Hexadecimal.upperDigits count e.toNat) := by
    refine .escape ⟨by simp [hbreak, any_isBreak_upperDigits], fun h => ?_⟩
    rw [escape?_number hd he h, List.length_cons, Hexadecimal.length_upperDigits]
  unfold Scalar.doubleQuotedChar
  split
  · next h =>
    simp only [Bool.and_eq_true, Bool.not_eq_true', bne_iff_ne, ne_eq] at h
    obtain ⟨⟨⟨hp, hbreak⟩, hquote⟩, hslash⟩ := h
    by_cases hspace : e = ' '
    · rw [hspace]
      exact .space
    · have htab : e ≠ '\t' := by
        rintro rfl
        exact absurd hp (by decide)
      exact .raw (by simp [isSpace, hspace, htab]) hbreak hquote hslash
  · split
    · next d hd =>
      refine .escape ⟨?_, fun {c r} h => (c.skip_one) ▸ (escape?_letter hd h).1⟩
      have hc : (⟨[d], 0, 0, 0⟩ : Cursor).rest = d :: [] := rfl
      simpa using (escape?_letter hd hc).2
    · have hmax : e.toNat < 4294967296 := by
        have hvalid : e.toNat < 0x110000 := by
          rcases e.valid with h | h
          · exact Nat.lt_trans h (by decide)
          · exact h.2
        omega
      split
      · exact hnumber 'x' 2 rfl rfl (show e.toNat < 256 by omega)
      · split
        · exact hnumber 'u' 4 rfl rfl (show e.toNat < 65536 by omega)
        · exact hnumber 'U' 8 rfl rfl hmax

theorem DoubleCode.any_isBreak {e : Char} {code : Text} (h : DoubleCode e code) :
    code.any isBreak = false := by
  cases h with
  | space => rfl
  | raw _ noBreak _ _ => simpa using noBreak
  | escape escapes =>
    rw [List.any_cons, escapes.one_line]
    rfl

theorem any_isBreak_spelled {t s : Text} (h : Spelled DoubleCode t s) : s.any isBreak = false := by
  rw [← Bool.not_eq_true, List.any_eq_true]
  rintro ⟨d, hd, hbreak⟩
  refine h.forall_mem (P := fun d => ¬isBreak d = true) (fun e code hcode d hd hbreak => ?_) d hd
    hbreak
  have hany := hcode.any_isBreak
  rw [← Bool.not_eq_true, List.any_eq_true] at hany
  exact hany ⟨d, hd, hbreak⟩

theorem any_isBreak_flatMap (t : Text) :
    (t.flatMap Scalar.doubleQuotedChar).any isBreak = false :=
  any_isBreak_spelled (.flatMap doubleCode_doubleQuotedChar t)

/-- The spaces at the start of what is written, which are read as one gap. -/
theorem exists_spaces_spelled {t s : Text} (h : Spelled DoubleCode t s) (r : Text) :
    ∃ n t' s', t = Text.fill n ' ' ++ t' ∧ s = Text.fill n ' ' ++ s' ∧ Spelled DoubleCode t' s' ∧
      EndsGap (s' ++ '"' :: r) := by
  induction h with
  | nil =>
    refine ⟨0, [], [], rfl, rfl, .nil, fun d hd => ?_⟩
    obtain rfl : '"' = d := Option.some.inj hd
    exact ⟨rfl, rfl⟩
  | @cons e t s code first further ih =>
    cases hfirst : first with
    | space =>
      obtain ⟨n, t', s', rfl, rfl, h', hends⟩ := ih
      exact ⟨n + 1, t', s', rfl, rfl, h', hends⟩
    | raw noSpace noBreak noQuote noSlash =>
      refine ⟨0, e :: t, [e] ++ s, rfl, rfl, .cons first further, fun d hd => ?_⟩
      obtain rfl : e = d := Option.some.inj hd
      exact ⟨noSpace, noBreak⟩
    | @escape _ d' code escapes =>
      refine ⟨0, e :: t, ('\\' :: d' :: code) ++ s, rfl, rfl, .cons first further, fun d hd => ?_⟩
      obtain rfl : '\\' = d := Option.some.inj hd
      exact ⟨rfl, rfl⟩

/-- The rest of a text between double quotes is read up to the closing one. -/
theorem tail?_double {t s r : Text} (hs : Spelled DoubleCode t s) {fuel : Nat} {c : Cursor}
    (hrest : c.rest = s ++ '"' :: r) (hcolumn : c.column ≠ 0) (hfuel : s.length < fuel) :
    tail? .double fuel c = some (t, c.past (s ++ ['"'])) := by
  induction hlength : s.length using Nat.strongRecOn generalizing t s fuel c with
  | ind length ih =>
    obtain ⟨fuel, rfl⟩ := Nat.exists_eq_succ_of_ne_zero (n := fuel) (by omega)
    -- What is written after the part that is read in one step.
    have hnext (front s' t' : Text) (hs' : Spelled DoubleCode t' s') (hsplit : s = front ++ s')
        (hfront : front ≠ []) (hline : front.any isBreak = false) :
        tail? .double fuel (c.past front) = some (t', c.past (s ++ ['"'])) := by
      have hpos := List.length_pos_iff.mpr hfront
      subst hsplit
      rw [List.append_assoc] at hrest ⊢
      rw [List.length_append] at hfuel hlength
      rw [ih s'.length (by omega) hs' (Cursor.rest_past_of_eq hrest)
        (Cursor.column_ne_zero_past hline hcolumn) (by omega) rfl, ← Cursor.past_append]
    cases hs with
    | nil =>
      rw [tail?_close (show c.rest = Quote.double.mark :: r from hrest) hcolumn (by simp)]
      rfl
    | @cons e t s code first further =>
      cases first with
      | space =>
        obtain ⟨n, t', s', rfl, rfl, hs', hends⟩ := exists_spaces_spelled further r
        have hread := hnext (Text.fill (n + 1) ' ') s' t' hs' rfl (by simp [Text.fill])
          (any_isBreak_fill _)
        rw [show [' '] ++ (Text.fill n ' ' ++ s') ++ '"' :: r =
          Text.fill (n + 1) ' ' ++ (s' ++ '"' :: r) from by simp [Text.fill, List.replicate_succ]]
          at hrest
        rw [tail?_spaces hrest hends hcolumn, hread]
        rfl
      | raw noSpace noBreak noQuote noSlash =>
        have hread := hnext [e] s t further rfl (by simp) (by simpa using noBreak)
        rw [Cursor.past_cons noBreak, Cursor.past_nil] at hread
        rw [tail?_char hrest hcolumn (show e ≠ Quote.double.mark from noQuote)
          (fun h => noSlash h.2) noSpace noBreak, hread]
        rfl
      | @escape _ d code escapes =>
        have hline : ('\\' :: d :: code).any isBreak = false := by
          rw [List.any_cons, escapes.one_line]
          rfl
        have hread := hnext ('\\' :: d :: code) s t further rfl (by simp) hline
        have hd : isBreak d = false := by
          have := escapes.one_line
          rw [List.any_cons, Bool.or_eq_false_iff] at this
          exact this.1
        rw [List.append_assoc, List.cons_append, List.cons_append] at hrest
        have hescape := escapes.read (c := c.next) (r := s ++ '"' :: r)
          (by rw [Cursor.next, hrest]; rfl)
        rw [Cursor.past_cons (d := '\\') rfl, Cursor.past_of_no_break escapes.one_line] at hread
        rw [tail?_escape hrest hcolumn hd hescape, hread]
        rfl

/-- A text between double quotes on one line is read with its quotes. -/
theorem read?_spelled {t s r : Text} (hs : Spelled DoubleCode t s) {c : Cursor}
    (hrest : c.rest = '"' :: (s ++ '"' :: r)) :
    read? .double c = some (t, c.past ('"' :: (s ++ ['"']))) := by
  have hnext : c.next.rest = s ++ '"' :: r := by
    rw [Cursor.next, hrest]
    rfl
  have hlength : s.length < c.rest.length + 1 := by
    rw [hrest, List.length_cons, List.length_append]
    omega
  rw [read?, tail?_double hs hnext (Nat.succ_ne_zero _) hlength, Cursor.past_cons (by decide)]

/-! ## Text between single quotes -/

/-- A character between single quotes. -/
def singleQuotedChar (c : Char) : Text := if c = '\'' then [c, c] else [c]

theorem any_isBreak_singleQuotedChar {d : Char} (h : isBreak d = false) :
    (singleQuotedChar d).any isBreak = false := by
  rw [singleQuotedChar]
  split <;> simp [h]

/-- A text that can stand between single quotes and be read back as it is. -/
structure SingleQuotable (t : Text) : Prop where
  printable : ∀ d ∈ t, Scalar.isPrintable d = true
  noLineFeed : '\n' ∉ t
  noSpaceBreak : Scalar.hasPair (· = ' ') isBreak t = false
  noBreakSpace : Scalar.hasPair isBreak (· = ' ') t = false

theorem SingleQuotable.suffix {s t : Text} (h : SingleQuotable (s ++ t)) : SingleQuotable t where
  printable d hd := h.printable d (List.mem_append_right s hd)
  noLineFeed hd := h.noLineFeed (List.mem_append_right s hd)
  noSpaceBreak := Scalar.hasPair_suffix h.noSpaceBreak
  noBreakSpace := Scalar.hasPair_suffix h.noBreakSpace

/-- After spaces no break follows, nor a space after breaks. -/
theorem SingleQuotable.head_after {x : Char} {t : Text} (h : SingleQuotable (x :: t)) :
    (x = ' ' → ∀ d ∈ t.head?, isBreak d = false) ∧
      (isBreak x = true → ∀ d ∈ t.head?, d ≠ ' ') := by
  cases t with
  | nil => simp
  | cons y t =>
    have hspace := Scalar.not_pair_seam (s := []) h.noSpaceBreak
    have hbreak := Scalar.not_pair_seam (s := []) h.noBreakSpace
    simpa using And.intro hspace hbreak

theorem SingleQuotable.after_spaces {n : Nat} {t : Text}
    (h : SingleQuotable (Text.fill (n + 1) ' ' ++ t)) : ∀ d ∈ t.head?, isBreak d = false := by
  have hlast : Text.fill (n + 1) ' ' ++ t = Text.fill n ' ' ++ ' ' :: t := by
    simp [Text.fill, List.replicate_succ']
  exact (hlast ▸ h).suffix.head_after.1 rfl

theorem SingleQuotable.after_breaks {b : Char} {bs t : Text} (h : SingleQuotable (b :: bs ++ t))
    (hbreaks : ∀ d ∈ b :: bs, isBreak d = true) : t.head? ≠ some ' ' := by
  obtain ⟨front, d, hfront⟩ : ∃ front d, b :: bs = front ++ [d] :=
    ⟨_, _, (List.dropLast_concat_getLast (List.cons_ne_nil b bs)).symm⟩
  rw [hfront, List.append_assoc, List.singleton_append] at h
  exact fun hspace => h.suffix.head_after.2 (hbreaks d (by simp [hfront])) ' ' hspace rfl

theorem lines_fill (column n : Nat) (t : Text) :
    Scalar.lines column true singleQuotedChar false (Text.fill n ' ' ++ t) =
      Text.fill n ' ' ++ Scalar.lines column true singleQuotedChar false t := by
  induction n with
  | zero => rfl
  | succ n ih =>
    have hstep : Text.fill (n + 1) ' ' ++ t = ' ' :: (Text.fill n ' ' ++ t) := rfl
    rw [hstep, Scalar.lines_char (by decide), ih]
    rfl

/-- What is written after a gap starts with no blank. -/
theorem endsGap_lines {t : Text} (hspace : t.head? ≠ some ' ')
    (hbreak : ∀ d ∈ t.head?, isBreak d = false) (hprintable : ∀ d ∈ t, Scalar.isPrintable d = true)
    (column : Nat) (r : Text) :
    EndsGap (Scalar.lines column true singleQuotedChar false t ++ '\'' :: r) := by
  cases t with
  | nil =>
    intro d hd
    obtain rfl : '\'' = d := Option.some.inj hd
    exact ⟨rfl, rfl⟩
  | cons e t =>
    have he : e ≠ ' ' := by simpa using hspace
    have htab : e ≠ '\t' := by
      rintro rfl
      exact absurd (hprintable _ List.mem_cons_self) (by decide)
    intro d hd
    have hde : d = e := by
      rw [Scalar.lines_char (hbreak e rfl), singleQuotedChar] at hd
      split at hd <;> exact (Option.some.inj hd).symm
    rw [hde]
    exact ⟨by simp [isSpace, he, htab], hbreak e rfl⟩

/-- Breaks between single quotes mean themselves, and the spaces that indent the next line do not
count. -/
theorem tail?_breaks {b : Char} {bs r : Text} {column fuel : Nat} {c : Cursor}
    (hbs : ∀ d ∈ b :: bs, Scalar.isPrintable d = true ∧ isBreak d = true) (hfeed : b ≠ '\n')
    (hrest : c.rest = (b :: bs ++ Text.fill column ' ') ++ r) (hr : EndsGap r)
    (hcolumn : c.column ≠ 0) :
    tail? .single (fuel + 1) c =
      (tail? .single fuel (c.past (b :: bs ++ Text.fill column ' '))).map
        fun (t, c) => (b :: bs ++ t, c) := by
  have hgap : IsGap (b :: bs ++ Text.fill column ' ') := by
    intro d hd
    rcases List.mem_append.mp hd with hd | hd
    · exact .inr (hbs d hd)
    · exact isGap_fill column d hd
  have hfeed' : ¬[b] = ['\n'] := by simpa using hfeed
  rw [tail?_gap hgap (by simp) hrest hr hcolumn, Gap.addAll_lines fun d hd => (hbs d hd).2,
    Gap.text]
  simp only [if_neg hfeed']
  rfl

/-- Between single quotes the next line is indented, even if nothing stands on it. -/
theorem lines_breaks_closed {b : Char} {bs t : Text} (hbreaks : ∀ d ∈ b :: bs, isBreak d = true)
    (next : ∀ d ∈ t.head?, isBreak d = false) (column : Nat) :
    Scalar.lines column true singleQuotedChar false (b :: bs ++ t) =
      (b :: bs ++ Text.fill column ' ') ++ Scalar.lines column true singleQuotedChar false t := by
  rw [Scalar.lines_breaks hbreaks (List.cons_ne_nil b bs), Scalar.lines_fresh_closed next,
    List.append_assoc]
  rfl

theorem column_past_indented {b : Char} {bs : Text} (hbreaks : ∀ d ∈ b :: bs, isBreak d = true)
    (column : Nat) (c : Cursor) : (c.past (b :: bs ++ Text.fill column ' ')).column = column := by
  have hline := Cursor.column_past_breaks (s := []) hbreaks (any_isBreak_fill column) c
  rwa [Text.fill, List.length_replicate] at hline

/-- Any other character between single quotes is read by itself, a quote as two. -/
theorem tail?_singleQuotedChar {e : Char} {r : Text} {fuel : Nat} {c : Cursor}
    (hspace : isSpace e = false) (hbreak : isBreak e = false)
    (hrest : c.rest = singleQuotedChar e ++ r) (hcolumn : c.column ≠ 0) :
    tail? .single (fuel + 1) c = (tail? .single fuel (c.past (singleQuotedChar e))).map
      fun (t, c) => (e :: t, c) := by
  by_cases hquote : e = '\''
  · subst hquote
    have hdoubled : singleQuotedChar '\'' = ['\'', '\''] := rfl
    rw [hdoubled, Cursor.past_of_no_break rfl]
    exact tail?_doubled hrest hcolumn
  · have he : singleQuotedChar e = [e] := if_neg hquote
    rw [he] at hrest ⊢
    rw [Cursor.past_cons hbreak, Cursor.past_nil]
    exact tail?_char hrest hcolumn hquote (by simp) hspace hbreak

/-- A text in the pieces that are read in one step between single quotes: runs of spaces, runs of
breaks, and other characters. -/
inductive Pieces : Text → Prop
  | nil : Pieces []
  | spaces {n : Nat} {t : Text} (next : t.head? ≠ some ' ') (h : Pieces t) :
      Pieces (Text.fill (n + 1) ' ' ++ t)
  | breaks {b : Char} {bs t : Text} (breaks : ∀ d ∈ b :: bs, isBreak d = true)
      (next : ∀ d ∈ t.head?, isBreak d = false) (h : Pieces t) : Pieces (b :: bs ++ t)
  | char {e : Char} {t : Text} (noSpace : e ≠ ' ') (noBreak : isBreak e = false) (h : Pieces t) :
      Pieces (e :: t)

theorem pieces (t : Text) : Pieces t := by
  induction hlength : t.length using Nat.strongRecOn generalizing t with
  | ind length ih =>
    cases t with
    | nil => exact .nil
    | cons e t =>
      rw [List.length_cons] at hlength
      by_cases hspace : e = ' '
      · obtain ⟨n, t', rfl, ht'⟩ := exists_spaces t
        rw [List.length_append] at hlength
        rw [hspace]
        exact .spaces (n := n) ht' (ih t'.length (by omega) t' rfl)
      · cases hbreak : isBreak e with
        | true =>
          obtain ⟨bs, t', rfl, hbs, ht'⟩ := exists_span isBreak t
          rw [List.length_append] at hlength
          exact .breaks (List.forall_mem_cons.mpr ⟨hbreak, hbs⟩) ht'
            (ih t'.length (by omega) t' rfl)
        | false => exact .char hspace hbreak (ih t.length (by omega) t rfl)

/-- The rest of a text between single quotes is read up to the closing one. -/
theorem tail?_single {t r : Text} (ht : SingleQuotable t) (hr : r.head? ≠ some '\'') {column : Nat}
    (hpos : column ≠ 0) {fuel : Nat} {c : Cursor}
    (hrest : c.rest = Scalar.lines column true singleQuotedChar false t ++ '\'' :: r)
    (hcolumn : c.column ≠ 0)
    (hfuel : (Scalar.lines column true singleQuotedChar false t).length < fuel) :
    tail? .single fuel c =
      some (t, c.past (Scalar.lines column true singleQuotedChar false t ++ ['\''])) := by
  have hpieces := pieces t
  induction hpieces generalizing fuel c with
  | nil =>
    obtain ⟨fuel, rfl⟩ := Nat.exists_eq_succ_of_ne_zero (n := fuel) (by omega)
    rw [tail?_close (show c.rest = Quote.single.mark :: r from hrest) hcolumn fun _ => hr]
    rfl
  | @spaces n t next _ ih =>
    have hsplit := lines_fill column (n + 1) t
    have hends : EndsGap (Scalar.lines column true singleQuotedChar false t ++ '\'' :: r) :=
      endsGap_lines next ht.after_spaces ht.suffix.printable column r
    rw [hsplit, List.append_assoc] at hrest
    rw [hsplit, List.length_append, Text.fill, List.length_replicate] at hfuel
    obtain ⟨fuel, rfl⟩ := Nat.exists_eq_succ_of_ne_zero (n := fuel) (by omega)
    have hread := ih ht.suffix (Cursor.rest_past_of_eq hrest)
      (Cursor.column_ne_zero_past (any_isBreak_fill (n + 1)) hcolumn) (show _ < fuel by omega)
    rw [tail?_spaces hrest hends hcolumn, hread, hsplit, List.append_assoc, ← Cursor.past_append]
    rfl
  | @breaks b bs t hbreaks next _ ih =>
    have hsplit := lines_breaks_closed hbreaks next column
    have hbs : ∀ d ∈ b :: bs, Scalar.isPrintable d = true ∧ isBreak d = true :=
      fun d hd => ⟨ht.printable d (List.mem_append_left t hd), hbreaks d hd⟩
    have hfeed : b ≠ '\n' := by
      rintro rfl
      exact ht.noLineFeed List.mem_cons_self
    have hends : EndsGap (Scalar.lines column true singleQuotedChar false t ++ '\'' :: r) :=
      endsGap_lines (ht.after_breaks hbreaks) next ht.suffix.printable column r
    rw [hsplit, List.append_assoc] at hrest
    rw [hsplit, List.length_append, List.length_append, List.length_cons] at hfuel
    obtain ⟨fuel, rfl⟩ := Nat.exists_eq_succ_of_ne_zero (n := fuel) (by omega)
    have hread := ih ht.suffix (Cursor.rest_past_of_eq hrest)
      (by rwa [column_past_indented hbreaks]) (show _ < fuel by omega)
    rw [tail?_breaks hbs hfeed hrest hends hcolumn, hread, hsplit, List.append_assoc _ _ ['\''],
      ← Cursor.past_append]
    rfl
  | @char e t noSpace noBreak _ ih =>
    have hsplit : Scalar.lines column true singleQuotedChar false (e :: t) =
        singleQuotedChar e ++ Scalar.lines column true singleQuotedChar false t :=
      Scalar.lines_char noBreak
    have htab : e ≠ '\t' := by
      rintro rfl
      exact absurd (ht.printable _ List.mem_cons_self) (by decide)
    have hpos : 0 < (singleQuotedChar e).length := by
      rw [singleQuotedChar]
      split <;> exact Nat.succ_pos _
    rw [hsplit, List.append_assoc] at hrest
    rw [hsplit, List.length_append] at hfuel
    obtain ⟨fuel, rfl⟩ := Nat.exists_eq_succ_of_ne_zero (n := fuel) (by omega)
    have hread := ih (SingleQuotable.suffix (s := [e]) ht) (Cursor.rest_past_of_eq hrest)
      (Cursor.column_ne_zero_past (any_isBreak_singleQuotedChar noBreak) hcolumn)
      (show _ < fuel by omega)
    rw [tail?_singleQuotedChar (by simp [isSpace, noSpace, htab]) noBreak hrest hcolumn, hread,
      hsplit, List.append_assoc, ← Cursor.past_append]
    rfl

end Quoted
end Stencil.Yaml
