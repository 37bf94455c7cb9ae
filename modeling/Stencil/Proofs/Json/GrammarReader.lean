import Stencil.Proofs.Json.Grammar
import Stencil.Proofs.Text.Hexadecimal

/-!
# Reading what the grammar writes

Main statement: a reader that allows the nesting of a value reads each text that the grammar gives
for it, whatever the blanks and the escapes.
-/

namespace Stencil.Json

/-! ## Strings -/

/-- A character is read from each of its codes. -/
theorem CharCode.stringTail? {c : Char} {code : Text} (h : CharCode c code) (fuel : Nat)
    (t : Text) :
    stringTail? (fuel + 1) (code ++ t) =
      (Json.stringTail? fuel t).map fun (s, rest) => (c :: s, rest) := by
  have hbind (x : Option (Text × Text)) :
      (x.bind fun (s, rest) => some (c :: s, rest)) = x.map fun (s, rest) => (c :: s, rest) := by
    cases x <;> rfl
  have hunicode {digits : Text} (hread : unicodeEscape? (digits ++ t) = some (c, t)) :
      Json.stringTail? (fuel + 1) ('\\' :: 'u' :: digits ++ t) =
        (Json.stringTail? fuel t).map fun (s, rest) => (c :: s, rest) := by
    rw [List.cons_append, List.cons_append, Json.stringTail?, hread]
    simp [hbind]
  cases h with
  | raw visible noQuote noSlash =>
    rw [List.singleton_append, Json.stringTail?]
    · rw [if_neg (Nat.not_lt.mpr visible)]
    all_goals simp_all
  | @letter d h =>
    have hd : d ≠ 'u' := by
      rintro rfl
      cases h
    rw [List.cons_append, List.singleton_append, Json.stringTail?]
    · simp [h, hbind]
    · simpa using hd
  | digits h =>
    have hvalid := c.valid
    have hlow : ¬(0xDC00 ≤ c.toNat ∧ c.toNat ≤ 0xDFFF) := by
      rcases hvalid with h | h <;> simp only [Char.toNat, UInt32.toNat] at * <;> omega
    have hhigh : ¬(0xD800 ≤ c.toNat ∧ c.toNat ≤ 0xDBFF) := by
      rcases hvalid with h | h <;> simp only [Char.toNat, UInt32.toNat] at * <;> omega
    refine hunicode ?_
    rw [unicodeEscape?, Hexadecimal.take?_prefix h t]
    simp only [Option.bind_eq_bind, Option.bind_some, if_neg hlow, if_neg hhigh, Char.ofNat_toNat]
  | @pair high low m n hhigh hlow rangeHigh rangeLow h =>
    have hnotLow : ¬(0xDC00 ≤ m ∧ m ≤ 0xDFFF) := by omega
    refine hunicode ?_
    rw [List.append_assoc, unicodeEscape?, Hexadecimal.take?_prefix hhigh]
    simp only [Option.bind_eq_bind, Option.bind_some, if_neg hnotLow, if_pos rangeHigh,
      List.cons_append, Hexadecimal.take?_prefix hlow t, if_pos rangeLow, ← h, Char.ofNat_toNat]

theorem CharCode.ne_nil {c : Char} {code : Text} (h : CharCode c code) : code ≠ [] := by
  cases h <;> simp

theorem stringTail?_spelled {s t : Text} (h : Spelled CharCode s t) {fuel : Nat}
    (hfuel : s.length < fuel) (rest : Text) :
    stringTail? fuel (t ++ '"' :: rest) = some (s, rest) := by
  induction h generalizing fuel with
  | nil =>
    obtain ⟨fuel, rfl⟩ := Nat.exists_eq_succ_of_ne_zero (Nat.ne_of_gt hfuel)
    rfl
  | cons first further ih =>
    rw [List.length_cons] at hfuel
    obtain ⟨fuel, rfl⟩ := Nat.exists_eq_succ_of_ne_zero (Nat.ne_of_gt (Nat.zero_lt_of_lt hfuel))
    rw [List.append_assoc, first.stringTail?, ih (by omega)]
    rfl

theorem string?_spelled {s t : Text} (h : Spelled CharCode s t) (rest : Text) :
    string? ('"' :: (t ++ '"' :: rest)) = some (s, rest) := by
  have hlength := h.length_le fun _ _ => CharCode.ne_nil
  refine stringTail?_spelled h ?_ rest
  rw [List.length_append]
  omega

/-! ## Numbers -/

/-- Whether a number ends before the text. -/
def EndsNumber (rest : Text) : Prop :=
  ∀ c ∈ rest.head?, c.isDigit = false ∧ c ≠ '.' ∧ c ≠ 'e' ∧ c ≠ 'E'

theorem EndsNumber.fraction? {rest : Text} (h : EndsNumber rest) :
    fraction? rest = some (none, rest) := by
  cases rest with
  | nil => rfl
  | cons c rest =>
    have hc := (h c rfl).2.1
    rw [Json.fraction?]
    simpa using hc

theorem EndsNumber.power? {rest : Text} (h : EndsNumber rest) :
    power? rest = some (none, rest) := by
  cases rest with
  | nil => rfl
  | cons c rest =>
    obtain ⟨-, -, he, hE⟩ := h c rfl
    unfold Json.power?
    exact if_neg (by simp [he, hE])

/-- A number whose sign has been read, and what follows it. -/
def numberAfterSign? (negative : Bool) (t : Text) : Option (Number × Text) := do
  let whole := t.takeWhile Char.isDigit
  let rest := t.dropWhile Char.isDigit
  if whole.isEmpty ∨ (whole.head? = some '0' ∧ whole.length ≠ 1) then none
  else
    let (fraction, rest) ← fraction? rest
    let (power, rest) ← power? rest
    let n ← numberOf? negative whole fraction power
    some (n, rest)

theorem number?_minus (t : Text) : number? ('-' :: t) = numberAfterSign? true t := rfl

theorem number?_of_head_ne {t : Text} (h : t.head? ≠ some '-') :
    number? t = numberAfterSign? false t := by
  cases t with
  | nil => rfl
  | cons c t =>
    have hc : c ≠ '-' := by simpa using h
    unfold number?
    split
    next hsign =>
    split at hsign
    · next heq => exact absurd (List.cons.inj heq).1 hc
    · cases hsign
      rfl

theorem numberAfterSign?_ofNat {rest : Text} (hrest : EndsNumber rest) (negative : Bool) (n : Nat) :
    numberAfterSign? negative (Numeral.ofNat n ++ rest) =
      (numberOf? negative (Numeral.ofNat n) none none).map fun number => (number, rest) := by
  obtain ⟨hdigits, hrest'⟩ := Numeral.takeWhile_digits_append (Numeral.all_isDigit_ofNat n)
    fun c hc => (hrest c hc).1
  have hempty : ¬(Numeral.ofNat n).isEmpty = true := by simp [Numeral.ofNat_ne_nil]
  have hzero : ¬((Numeral.ofNat n).head? = some '0' ∧ (Numeral.ofNat n).length ≠ 1) :=
    fun h => h.2 (Numeral.length_of_head?_ofNat h.1)
  unfold numberAfterSign?
  rw [hdigits, hrest', if_neg (not_or.mpr ⟨hempty, hzero⟩), hrest.fraction?]
  simp only [Option.bind_eq_bind, Option.bind_some, hrest.power?]
  cases numberOf? negative (Numeral.ofNat n) none none <;> rfl

theorem head?_ofNat_append_ne (n : Nat) (rest : Text) :
    (Numeral.ofNat n ++ rest).head? ≠ some '-' := by
  have hall := Numeral.all_isDigit_ofNat n
  cases hn : Numeral.ofNat n with
  | nil => exact absurd hn (Numeral.ofNat_ne_nil n)
  | cons d digits =>
    rw [hn, List.all_cons, Bool.and_eq_true] at hall
    rintro h
    rw [Option.some.inj h] at hall
    exact absurd hall.1 (by decide)

/-- The text of an integer is read as that integer. -/
theorem number?_ofInt {n : Int} (h : Number.Exact n) {rest : Text} (hrest : EndsNumber rest) :
    number? (Numeral.ofInt n ++ rest) = some (.integer n h, rest) := by
  cases n with
  | ofNat n =>
    have hexact : Number.Exact (n : Int) := h
    rw [Numeral.ofInt, number?_of_head_ne (head?_ofNat_append_ne n rest),
      numberAfterSign?_ofNat hrest false]
    simp [numberOf?, Number.ofInt?, hexact]
  | negSucc n =>
    have hexact : Number.Exact (-((n + 1 : Nat) : Int)) := h
    rw [Numeral.ofInt, List.cons_append, number?_minus, numberAfterSign?_ofNat hrest true]
    simp only [numberOf?, Option.getD_none, List.append_nil, Numeral.value_ofNat, if_true,
      Nat.succ_ne_zero, and_false, if_false, Number.ofInt?, dif_pos hexact, Option.map_some]
    rfl

/-! ## Steps of the reader -/

theorem value?_number {fuel depth : Nat} {t : Text} {c : Char}
    (hc : t.head? = some c) (hstart : c = '-' ∨ c.isDigit = true) :
    value? (fuel + 1) depth t = (number? t).map fun (n, rest) => (.number n, rest) := by
  unfold value?
  split
  all_goals first
    | rfl
    | (simp only [List.head?_cons, Option.some.injEq] at hc
       subst hc
       exact absurd hstart (by decide))

theorem value?_bracket (fuel depth : Nat) {t : Text} (h : (skipSpace t).head? ≠ some ']') :
    value? (fuel + 1) (depth + 1) ('[' :: t) =
      (items? fuel depth (skipSpace t)).map fun (items, rest) => (.array items, rest) := by
  rw [value?, if_neg (Nat.succ_ne_zero depth)]
  split
  · next hclose => simp [hclose] at h
  · rfl

theorem value?_brace (fuel depth : Nat) {t : Text} (h : (skipSpace t).head? ≠ some '\x7d') :
    value? (fuel + 1) (depth + 1) ('\x7b' :: t) =
      (members? fuel depth [] (skipSpace t)).map
        fun (members, rest) => (.object members, rest) := by
  rw [value?, if_neg (Nat.succ_ne_zero depth)]
  split
  · next hclose => simp [hclose] at h
  · rfl

theorem value?_emptyArray (fuel depth : Nat) {t : Text} (blank : IsBlank t) (r : Text) :
    value? (fuel + 1) (depth + 1) ('[' :: (t ++ ']' :: r)) = some (.array [], r) := by
  rw [value?, if_neg (Nat.succ_ne_zero depth), skipSpace_blank blank, skipSpace_cons (by decide)]
  rfl

theorem value?_emptyObject (fuel depth : Nat) {t : Text} (blank : IsBlank t) (r : Text) :
    value? (fuel + 1) (depth + 1) ('\x7b' :: (t ++ '\x7d' :: r)) = some (.object [], r) := by
  rw [value?, if_neg (Nat.succ_ne_zero depth), skipSpace_blank blank, skipSpace_cons (by decide)]
  rfl

/-- What is read after an item: the end of the array, or more items. -/
def afterItem? (fuel depth : Nat) (v : Json) : Text → Option (List Json × Text)
  | ']' :: rest => some ([v], rest)
  | ',' :: rest => do
    let (items, rest) ← items? fuel depth (skipSpace rest)
    some (v :: items, rest)
  | _ => none

theorem items?_of_value {fuel depth : Nat} {t t' : Text} {v : Json}
    (h : value? fuel depth t = some (v, t')) :
    items? (fuel + 1) depth t = afterItem? fuel depth v (skipSpace t') := by
  rw [items?, h]
  rfl

/-- What is read after a member: the end of the object, or more members. -/
def afterMember? (fuel depth : Nat) (read : Members) : Text → Option (Members × Text)
  | '\x7d' :: rest => some (read, rest)
  | ',' :: rest => members? fuel depth read (skipSpace rest)
  | _ => none

/-! ## Phrases -/

/-- Whether an element ends before the text. -/
def EndsElement (rest : Text) : Prop := ∀ c ∈ rest.head?, c = ',' ∨ c = ']' ∨ c = '\x7d'

theorem EndsElement.skipSpace {rest : Text} (h : EndsElement rest) : skipSpace rest = rest := by
  refine skipSpace_of_head fun c hc => ?_
  rcases h c hc with rfl | rfl | rfl <;> rfl

theorem endsElement_cons {c : Char} (h : c = ',' ∨ c = ']' ∨ c = '\x7d') (rest : Text) :
    EndsElement (c :: rest) := by
  rintro d ⟨⟩
  exact h

theorem EndsElement.endsNumber {t rest : Text} (ht : IsBlank t) (h : EndsElement rest) :
    EndsNumber (t ++ rest) := by
  cases t with
  | nil =>
    intro c hc
    rcases h c hc with rfl | rfl | rfl <;> decide
  | cons d t =>
    rintro c ⟨⟩
    have hblank := ht d List.mem_cons_self
    simp only [isSpace, Bool.or_eq_true, decide_eq_true_eq] at hblank
    rcases hblank with ((rfl | rfl) | rfl) | rfl <;> decide

/-- What the reader makes of a phrase at the start of a text, where the other text is left. It may
leave the blanks after an element. -/
def Phrase.ReadsTo : Phrase → Text → Text → Prop
  | .value v, t, r => ∀ fuel depth, t.length ≤ fuel + r.length → NestedWithin depth v →
      EndsNumber r → value? fuel depth t = some (settled v, r)
  | .element v, t, r => ∀ fuel depth, t.length ≤ fuel + r.length → NestedWithin depth v →
      EndsElement r →
      ∃ t', value? fuel depth (skipSpace t) = some (settled v, t') ∧ skipSpace t' = r
  | .elements items, t, r => ∀ fuel depth rest, t.length + 1 ≤ fuel + r.length →
      (∀ v ∈ items, NestedWithin depth v) → r = ']' :: rest →
      items? fuel depth (skipSpace t) = some (settledItems items, rest)
  | .member name v, t, r => ∀ fuel depth read, t.length ≤ fuel + r.length →
      NestedWithin depth v → EndsElement r →
      members? (fuel + 1) depth read (skipSpace t) =
        afterMember? fuel depth (read.set name (settled v)) r
  | .members changes, t, r => ∀ fuel depth read rest, t.length + 1 ≤ fuel + r.length →
      (∀ m ∈ changes, NestedWithin depth m.2) → r = '\x7d' :: rest →
      members? fuel depth read (skipSpace t) =
        some (Members.setAll read (settledMembers changes), rest)

/-! A phrase takes up some text, so there is fuel for one step of the reader, and what is left of it
suffices for the rest of the phrase. -/

section

variable {t r : Text}

theorem Phrase.readsTo_value {v : Json} (hlength : r.length < t.length)
    (h : ∀ fuel depth, t.length ≤ fuel + 1 + r.length → NestedWithin depth v → EndsNumber r →
      value? (fuel + 1) depth t = some (settled v, r)) : (Phrase.value v).ReadsTo t r := by
  intro fuel depth hfuel hdepth hr
  obtain ⟨fuel, rfl⟩ := Nat.exists_eq_succ_of_ne_zero (n := fuel) (by omega)
  exact h fuel depth hfuel hdepth hr

theorem Phrase.readsTo_elements {items : List Json} (hlength : r.length < t.length)
    (h : ∀ fuel depth rest, t.length ≤ fuel + r.length → (∀ v ∈ items, NestedWithin depth v) →
      r = ']' :: rest →
      items? (fuel + 1) depth (skipSpace t) = some (settledItems items, rest)) :
    (Phrase.elements items).ReadsTo t r := by
  intro fuel depth rest hfuel hdepth hr
  obtain ⟨fuel, rfl⟩ := Nat.exists_eq_succ_of_ne_zero (n := fuel) (by omega)
  exact h fuel depth rest (by omega) hdepth hr

theorem Phrase.readsTo_members {members : Members} (hlength : r.length < t.length)
    (h : ∀ fuel depth read rest, t.length ≤ fuel + r.length →
      (∀ m ∈ members, NestedWithin depth m.2) → r = '\x7d' :: rest →
      members? (fuel + 1) depth read (skipSpace t) =
        some (Members.setAll read (settledMembers members), rest)) :
    (Phrase.members members).ReadsTo t r := by
  intro fuel depth read rest hfuel hdepth hr
  obtain ⟨fuel, rfl⟩ := Nat.exists_eq_succ_of_ne_zero (n := fuel) (by omega)
  exact h fuel depth read rest (by omega) hdepth hr

end

/-- Each phrase of the grammar is read. -/
theorem Starts.readsTo {σ : Spelling} {p : Phrase} {t r : Text} (h : Starts σ p t r) :
    p.ReadsTo t r := by
  have hspelled {s t : Text} (h : Spelled σ.code s t) : Spelled CharCode s t :=
    h.mono fun _ _ => σ.legal
  have hlength := h.length_lt
  induction h with
  | null r => exact Phrase.readsTo_value hlength fun fuel depth _ _ _ => rfl
  | bool b r =>
    refine Phrase.readsTo_value hlength fun fuel depth _ _ _ => ?_
    cases b <;> rfl
  | integer n exact r =>
    refine Phrase.readsTo_value hlength fun fuel depth _ _ hr => ?_
    obtain ⟨c, u, hn, hc⟩ := head?_ofInt n
    have hhead : (Numeral.ofInt n ++ r).head? = some c := by rw [hn]; rfl
    rw [value?_number hhead hc, number?_ofInt exact hr]
    rfl
  | string spelled r =>
    refine Phrase.readsTo_value hlength fun fuel depth _ _ _ => ?_
    rw [value?, string?_spelled (hspelled spelled)]
    rfl
  | emptyArray blank r =>
    refine Phrase.readsTo_value hlength fun fuel depth _ hdepth _ => ?_
    cases hdepth with | array _ => exact value?_emptyArray fuel _ blank r
  | emptyObject blank r =>
    refine Phrase.readsTo_value hlength fun fuel depth _ hdepth _ => ?_
    cases hdepth with | object _ => exact value?_emptyObject fuel _ blank r
  | array h ih =>
    refine Phrase.readsTo_value hlength fun fuel depth hfuel hdepth _ => ?_
    cases hdepth with | @array depth _ hdepth =>
    simp only [List.length_cons] at hfuel
    rw [value?_bracket fuel depth h.skipSpace_ne.1,
      ih h.length_lt fuel depth _ (by rw [List.length_cons]; omega) hdepth rfl]
    rfl
  | object h ih =>
    refine Phrase.readsTo_value hlength fun fuel depth hfuel hdepth _ => ?_
    cases hdepth with | @object depth _ hdepth =>
    simp only [List.length_cons] at hfuel
    rw [value?_brace fuel depth h.skipSpace_ne.2,
      ih h.length_lt fuel depth [] _ (by rw [List.length_cons]; omega) hdepth rfl]
    rfl
  | @element v before after t r hbefore h hafter ih =>
    intro fuel depth hfuel hdepth hr
    obtain ⟨c, u, rfl, hspace, -⟩ := h.head?
    simp only [List.length_append] at hfuel
    refine ⟨after ++ r, ?_, by rw [skipSpace_blank hafter, hr.skipSpace]⟩
    rw [skipSpace_blank hbefore, skipSpace_cons hspace]
    exact ih h.length_lt fuel depth (by rw [List.length_append]; omega) hdepth
      (hr.endsNumber hafter)
  | lastElement h ih =>
    refine Phrase.readsTo_elements hlength ?_
    rintro fuel depth rest hfuel hdepth rfl
    obtain ⟨t', hread, hrest⟩ := ih hlength fuel depth hfuel (hdepth _ List.mem_cons_self)
      (endsElement_cons (.inr (.inl rfl)) rest)
    rw [items?_of_value hread, hrest]
    rfl
  | @elements v w items t u r first further ih ih' =>
    refine Phrase.readsTo_elements hlength ?_
    rintro fuel depth rest hfuel hdepth rfl
    have hfirst := first.length_lt
    have hfurther := further.length_lt
    rw [List.length_cons] at hfirst
    obtain ⟨hv, hitems⟩ := List.forall_mem_cons.mp hdepth
    obtain ⟨t', hread, hrest⟩ := ih first.length_lt fuel depth (by rw [List.length_cons]; omega) hv
      (endsElement_cons (.inl rfl) u)
    rw [items?_of_value hread, hrest, afterItem?,
      ih' further.length_lt fuel depth rest (by omega) hitems rfl]
    rfl
  | @member name before code gap t r v hbefore spelled hgap h ih =>
    intro fuel depth read hfuel hdepth hr
    simp only [List.length_append, List.length_cons] at hfuel
    obtain ⟨t', hread, hrest⟩ := ih h.length_lt fuel depth (by omega) hdepth hr
    rw [skipSpace_blank hbefore, skipSpace_cons (by decide), members?,
      string?_spelled (hspelled spelled)]
    simp only [Option.bind_eq_bind, Option.bind_some, skipSpace_blank (σ.blank hgap),
      skipSpace_cons (c := ':') rfl, hread, hrest]
    rfl
  | lastMember h ih =>
    refine Phrase.readsTo_members hlength ?_
    rintro fuel depth read rest hfuel hdepth rfl
    rw [ih hlength fuel depth read hfuel (hdepth _ List.mem_cons_self)
      (endsElement_cons (.inr (.inr rfl)) rest)]
    rfl
  | @members name v m members t u r first further ih ih' =>
    refine Phrase.readsTo_members hlength ?_
    rintro fuel depth read rest hfuel hdepth rfl
    have hfirst := first.length_lt
    have hfurther := further.length_lt
    rw [List.length_cons] at hfirst
    obtain ⟨hv, hmembers⟩ := List.forall_mem_cons.mp hdepth
    rw [ih first.length_lt fuel depth read (by rw [List.length_cons]; omega) hv
      (endsElement_cons (.inl rfl) u)]
    exact ih' further.length_lt fuel depth _ rest (by omega) hmembers rfl

/-- A text of the grammar is read as the value that it writes, where the nesting is allowed. -/
theorem Writes.parseWithin? {σ : Spelling} {v : Json} {t : Text} (h : Writes σ v t) {depth : Nat}
    (hdepth : NestedWithin depth v) : parseWithin? depth t = some (settled v) := by
  obtain ⟨t', hread, hrest⟩ := Starts.readsTo h (2 * t.length + 1) depth (by omega) hdepth
    (by simp [EndsElement])
  rw [Json.parseWithin?, hread]
  simp [hrest]

end Stencil.Json
