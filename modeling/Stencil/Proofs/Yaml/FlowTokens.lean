import Stencil.Json.Printer
import Stencil.Proofs.Json.GrammarReader
import Stencil.Proofs.Yaml.BlockTokens
import Stencil.Proofs.Yaml.FlowSteps

/-!
# Tokens of JSON

JSON is written between brackets, and nearly all of it is YAML as well. The exceptions are kept out
by a choice of spellings: a reader of YAML takes no character for two escapes, it refuses some
characters and takes others for breaks, and it looks for the colon after a name on the same line and
not too far away. With these spellings the reader of tokens finds those of the value that is written.
-/

namespace Stencil.Yaml

/-- The spellings of JSON that YAML has too. -/
def sharedSpelling : Json.Spelling where
  code c t := Json.CharCode c t ∧
    if t = [c] then isAllowed c = true ∧ isBreak c = false else c.toNat < 0x10000
  gap name t := Json.IsBlank t ∧ t.any isBreak = false ∧ name.length + t.length + 2 ≤ 1024
  legal h := h.1
  blank h := h.1

/-! ## Codes of characters -/

theorem isAllowed_and_line_of_digit {d : Char} (h : (Hexadecimal.digitValue? d).isSome = true) :
    isAllowed d = true ∧ isBreak d = false := by
  have hbounds : 48 ≤ d.toNat ∧ d.toNat ≤ 102 := by
    unfold Hexadecimal.digitValue? at h
    split at h
    · next hdigit =>
      simp only [Char.isDigit, Bool.and_eq_true, decide_eq_true_eq,
        UInt32.le_iff_toNat_le] at hdigit
      exact ⟨hdigit.1, Nat.le_trans hdigit.2 (by decide)⟩
    · split at h
      · next hlower =>
        simp only [Char.le_def, UInt32.le_iff_toNat_le] at hlower
        exact ⟨Nat.le_trans (by decide) hlower.1, hlower.2⟩
      · split at h
        · next hupper =>
          simp only [Char.le_def, UInt32.le_iff_toNat_le] at hupper
          exact ⟨Nat.le_trans (by decide) hupper.1, Nat.le_trans hupper.2 (by decide)⟩
        · cases h
  have hall : ∀ n < 103, 48 ≤ n →
      isAllowed (Char.ofNat n) = true ∧ isBreak (Char.ofNat n) = false := by
    decide
  have hd := hall d.toNat (by omega) hbounds.1
  rwa [Char.ofNat_toNat] at hd

/-- The letters after a backslash stand for the same characters as in JSON. -/
theorem shortEscape?_shared {c d : Char} (h : Json.shortEscape? d = some c) :
    Quoted.numberLength? d = none ∧ Quoted.shortEscape? d = some c ∧ isAllowed d = true ∧
      isBreak d = false := by
  unfold Json.shortEscape? at h
  split at h
  all_goals cases h
  all_goals exact ⟨rfl, rfl, rfl, rfl⟩

theorem doubleCode_of_shared {c : Char} {t : Text} (h : sharedSpelling.code c t) :
    Quoted.DoubleCode c t := by
  obtain ⟨hcode, hshared⟩ := h
  cases hcode with
  | raw visible noQuote noSlash =>
    rw [if_pos rfl] at hshared
    by_cases hspace : c = ' '
    · rw [hspace]
      exact .space
    · have htab : c ≠ '\t' := by
        rintro rfl
        exact absurd visible (by decide)
      exact .raw (by simp [isSpace, hspace, htab]) hshared.2 noQuote noSlash
  | @letter d h =>
    obtain ⟨hnumber, hshort, -, hline⟩ := shortEscape?_shared h
    refine .escape ⟨by simpa using hline, fun {cursor r} hrest => ?_⟩
    rw [Quoted.escape?, hrest, List.singleton_append]
    dsimp only
    rw [hnumber]
    dsimp only
    rw [hshort, List.length_singleton, Cursor.skip_one]
    rfl
  | @digits digits h =>
    refine .escape ⟨?_, fun {cursor r} hrest => ?_⟩
    · rw [← Bool.not_eq_true, List.any_eq_true]
      rintro ⟨d, hd, hbreak⟩
      rcases List.mem_cons.mp hd with rfl | hd
      · exact absurd hbreak (by decide)
      · have hdigit := isAllowed_and_line_of_digit (Hexadecimal.forall_digit_of_take? h d hd)
        rw [hdigit.2] at hbreak
        cases hbreak
    · have hnumber : Quoted.numberLength? 'u' = some 4 := rfl
      rw [Quoted.escape?, hrest, List.cons_append]
      dsimp only
      rw [hnumber]
      dsimp only
      rw [Hexadecimal.take?_prefix h r]
      simp only [Option.bind_eq_bind, Option.bind_some, Char.ofNat_toNat, List.length_cons,
        Hexadecimal.length_of_take? h]
      exact if_pos c.valid
  | pair _ _ _ _ hvalue =>
    rw [if_neg (by simp)] at hshared
    omega

theorem spelled_shared {s t : Text} (h : Spelled sharedSpelling.code s t) :
    Spelled Quoted.DoubleCode s t :=
  h.mono fun _ _ => doubleCode_of_shared

theorem isAllowed_of_shared {c : Char} {t : Text} (h : sharedSpelling.code c t) :
    ∀ d ∈ t, isAllowed d = true := by
  obtain ⟨hcode, hshared⟩ := h
  cases hcode with
  | raw _ _ _ =>
    rw [if_pos rfl] at hshared
    exact List.forall_mem_singleton.mpr hshared.1
  | letter h =>
    exact List.forall_mem_cons.mpr
      ⟨rfl, List.forall_mem_singleton.mpr (shortEscape?_shared h).2.2.1⟩
  | digits h =>
    exact List.forall_mem_cons.mpr ⟨rfl, List.forall_mem_cons.mpr ⟨rfl, fun d hd =>
      (isAllowed_and_line_of_digit (Hexadecimal.forall_digit_of_take? h d hd)).1⟩⟩
  | pair _ _ _ _ hvalue =>
    rw [if_neg (by simp)] at hshared
    omega

/-! ## Tokens of a phrase -/

mutual
/-- The tokens of a value between brackets. -/
def flowTokens : Json → List Token
  | .null => [.scalar true "null".toList]
  | .bool b => [.scalar true (if b then "true".toList else "false".toList)]
  | .number n => [.scalar true (Json.printNumber n)]
  | .string s => [.scalar false s]
  | .array items => .flowSequenceStart :: (flowItemTokens items ++ [.flowSequenceEnd])
  | .object members => .flowMappingStart :: (flowMemberTokens members ++ [.flowMappingEnd])

def flowItemTokens : List Json → List Token
  | [] => []
  | [v] => flowTokens v
  | v :: w :: items => flowTokens v ++ .flowEntry :: flowItemTokens (w :: items)

def flowMemberTokens : List (Text × Json) → List Token
  | [] => []
  | [(name, v)] => .key :: .scalar false name :: .value :: flowTokens v
  | (name, v) :: m :: members =>
    .key :: .scalar false name :: .value ::
      (flowTokens v ++ .flowEntry :: flowMemberTokens (m :: members))
end

def phraseTokens : Json.Phrase → List Token
  | .value v | .element v => flowTokens v
  | .elements items => flowItemTokens items
  | .member name v => flowMemberTokens [(name, v)]
  | .members members => flowMemberTokens members

/-- Whether a phrase starts with a name. -/
def StartsName : Json.Phrase → Prop
  | .member .. | .members _ => True
  | _ => False

namespace Lexer

theorem isFlowMark_of_endsElement {r : Text} (h : Json.EndsElement r) :
    ∀ d ∈ r.head?, isFlowMark d = true := by
  intro d hd
  rcases h d hd with rfl | rfl | rfl <;> rfl

theorem Reaches.refl (l : Lexer) : Reaches l l := .of_atToken? rfl (Nat.le_refl _)

/-- What stands between two brackets is read with them. -/
theorem reaches_between {n : Nat} {ts inner : List Token} {l : Lexer} {s e : Char} {t t' : Token}
    {u r : Text} (b : Brackets s e t t')
    (hinner : ∀ l₁, Before (n + 1) (ts ++ [t]) u l₁ → l₁.keyAllowed = true →
      ∃ l₂, Reaches l₁ l₂ ∧ Before (n + 1) (ts ++ [t] ++ inner) (e :: r) l₂)
    (h : Before n ts (s :: u) l) :
    ∃ l', Reaches l l' ∧ InBrackets n (ts ++ t :: (inner ++ [t'])) l' ∧ l'.cursor.rest = r ∧
      l'.keyAllowed = false := by
  obtain ⟨l₁, hopen, h₁, hrest₁, hkey₁⟩ := reaches_openBracket b h
  obtain ⟨l₂, hread, h₂⟩ := hinner l₁ (h₁.before hrest₁) hkey₁
  obtain ⟨l₃, hclose, h₃, hrest₃, hkey₃⟩ := reaches_closeBracket b h₂
  refine ⟨l₃, hopen.trans (hread.trans hclose), ?_, hrest₃, hkey₃⟩
  have htokens : ts ++ [t] ++ inner ++ [t'] = ts ++ t :: (inner ++ [t']) := by simp
  rwa [htokens] at h₃

theorem reaches_nothing {u r : Text} (hu : Json.IsBlank u) (n : Nat) (ts : List Token) (l : Lexer)
    (h : Before (n + 1) ts (u ++ r) l) (_ : l.keyAllowed = true) :
    ∃ l', Reaches l l' ∧ Before (n + 1) (ts ++ []) r l' :=
  ⟨l, .refl l, by rw [List.append_nil]; exact h.past_blank hu⟩

/-- What the reader makes of a phrase between brackets, with the blanks after it. -/
def Tokenizes (p : Json.Phrase) (t r : Text) : Prop :=
  ∀ ⦃n : Nat⦄ ⦃ts : List Token⦄ ⦃after rest : Text⦄ ⦃l : Lexer⦄, r = after ++ rest →
    Json.IsBlank after → Json.EndsElement rest → Before (n + 1) ts t l →
    (StartsName p → l.keyAllowed = true) →
    ∃ l', Reaches l l' ∧ Before (n + 1) (ts ++ phraseTokens p) rest l'

theorem tokenizes_word {v : Json} {w : Text} (hw : IsWord w)
    (htokens : flowTokens v = [.scalar true w]) (r : Text) : Tokenizes (.value v) (w ++ r) r := by
  rintro n ts after rest l rfl hafter hrest h -
  obtain ⟨l', hread, h', hrest'⟩ := reaches_word hw hafter (isFlowMark_of_endsElement hrest) h
  rw [← htokens] at h'
  exact ⟨l', hread, h'.before hrest'⟩

/-- The reader finds the tokens of a collection wherever it stands. -/
theorem tokenizes_between {v : Json} {s e : Char} {t t' : Token} {u r : Text}
    (b : Brackets s e t t') (inner : List Token) (htokens : flowTokens v = t :: (inner ++ [t']))
    (hinner : ∀ n ts l, Before (n + 1) ts u l → l.keyAllowed = true →
      ∃ l', Reaches l l' ∧ Before (n + 1) (ts ++ inner) (e :: r) l') :
    Tokenizes (.value v) (s :: u) r := by
  rintro n ts after rest l rfl hafter - h -
  obtain ⟨l', hread, h', hrest', -⟩ := reaches_between b (hinner _ _) h
  rw [← htokens] at h'
  exact ⟨l', hread, (h'.before hrest').past_blank hafter⟩

/-- Phrases with a comma between them are read one after the other. -/
theorem tokenizes_comma {p q whole : Json.Phrase} {t u r : Text}
    (htokens : phraseTokens whole = phraseTokens p ++ .flowEntry :: phraseTokens q)
    (hname : StartsName p → StartsName whole) (first : Tokenizes p t (',' :: u))
    (further : Tokenizes q u r) : Tokenizes whole t r := by
  intro n ts after rest l hr hblank hrest h hkey
  have hends : Json.EndsElement (',' :: u) := Json.endsElement_cons (.inl rfl) u
  obtain ⟨l₁, hread₁, h₁⟩ := first (List.nil_append _).symm Json.isBlank_nil hends h (hkey ∘ hname)
  obtain ⟨l₂, hread₂, h₂, hrest₂, hkey₂⟩ := reaches_comma h₁
  obtain ⟨l₃, hread₃, h₃⟩ := further hr hblank hrest (h₂.before hrest₂) fun _ => hkey₂
  refine ⟨l₃, hread₁.trans (hread₂.trans hread₃), ?_⟩
  rw [htokens]
  simpa using h₃

/-- The reader finds the tokens of each phrase. -/
theorem tokenizes {p : Json.Phrase} {t r : Text} (h : Json.Starts sharedSpelling p t r) :
    Tokenizes p t r := by
  induction h with
  | null r => exact tokenizes_word isWord_null rfl r
  | bool b r => exact tokenizes_word (isWord_bool b) rfl r
  | integer n exact r => exact tokenizes_word (isWord_ofInt n) rfl r
  | string spelled r =>
    rintro n ts after rest l rfl hafter - h -
    obtain ⟨l', hread, h', hrest'⟩ := reaches_flowQuoted (spelled_shared spelled) h
    exact ⟨l', hread, (h'.before hrest').past_blank hafter⟩
  | emptyArray blank r => exact tokenizes_between .square [] rfl (reaches_nothing blank)
  | emptyObject blank r => exact tokenizes_between .curly [] rfl (reaches_nothing blank)
  | @array items t r h ih =>
    refine tokenizes_between .square (flowItemTokens items) rfl fun n ts l h hkey => ?_
    exact ih (List.nil_append _).symm Json.isBlank_nil (Json.endsElement_cons (.inr (.inl rfl)) r) h
      fun _ => hkey
  | @object members t r h ih =>
    refine tokenizes_between .curly (flowMemberTokens members) rfl fun n ts l h hkey => ?_
    exact ih (List.nil_append _).symm Json.isBlank_nil (Json.endsElement_cons (.inr (.inr rfl)) r) h
      fun _ => hkey
  | element hbefore h hafter ih =>
    rintro n ts after rest l rfl hblank hrest h -
    exact ih (List.append_assoc ..).symm (hafter.append hblank) hrest (h.past_blank hbefore)
      False.elim
  | lastElement h ih => exact ih
  | elements first further ih ih' => exact tokenizes_comma rfl False.elim ih ih'
  | @member name before code gap t r v hbefore spelled hgap h ih =>
    rintro n ts after rest l rfl hblank hrest h hkey
    obtain ⟨hgapBlank, hline, hlength⟩ := hgap
    obtain ⟨l₁, hread₁, h₁, hrest₁⟩ := reaches_flowName (spelled_shared spelled) hgapBlank hline
      hlength (hkey trivial) (h.past_blank hbefore)
    obtain ⟨l₂, hread₂, h₂⟩ := ih rfl hblank hrest (h₁.before hrest₁) False.elim
    refine ⟨l₂, hread₁.trans hread₂, ?_⟩
    have htokens : ts ++ [.key, .scalar false name, .value] ++ phraseTokens (.element v) =
        ts ++ phraseTokens (.member name v) := by
      rw [List.append_assoc]
      rfl
    rwa [htokens] at h₂
  | lastMember h ih => exact ih
  | members first further ih ih' => exact tokenizes_comma rfl (fun _ => trivial) ih ih'

/-- An object is read with its braces, also where it is not between brackets itself. -/
theorem reaches_object {members : Members} {t r : Text}
    (h : Json.Starts sharedSpelling (.value (.object members)) t r) {n : Nat} {ts : List Token}
    {l : Lexer} (hl : Before n ts t l) :
    ∃ l', Reaches l l' ∧ InBrackets n (ts ++ flowTokens (.object members)) l' ∧
      l'.cursor.rest = r ∧ l'.keyAllowed = false := by
  cases h with
  | emptyObject blank => exact reaches_between .curly (reaches_nothing blank _ _) hl
  | object h =>
    refine reaches_between .curly (fun l₁ h₁ hkey₁ => ?_) hl
    exact tokenizes h (List.nil_append _).symm Json.isBlank_nil
      (Json.endsElement_cons (.inr (.inr rfl)) r)
      h₁ fun _ => hkey₁

/-- After the last token only blanks may follow, and no tab on a further line. -/
theorem InBrackets.tokens?_end {ts : List Token} {l : Lexer} {line further : Text}
    (h : InBrackets 0 ts l) (hkey : l.keyAllowed = false) (hline : Json.IsBlank line)
    (hbreak : line.any isBreak = false) (hfurther : Json.IsBlank further) (htab : '\t' ∉ further)
    (hrest : l.cursor.rest = line ++ further) (fuel : Nat) : l.tokens? (fuel + 1) = some ts := by
  have hspace : ∀ d ∈ line, d = ' ' ∨ (d = '\t' ∧ (l.inFlow || !l.keyAllowed) = true) := by
    intro d hd
    rcases space_or_break_of_blank (hline d hd) with hd' | hd'
    · have hspace := hd'.1
      simp only [isSpace, Bool.or_eq_true, decide_eq_true_eq] at hspace
      exact hspace.imp_right fun htab => ⟨htab, by simp [hkey]⟩
    · refine absurd (List.any_eq_true.mpr ⟨d, hd, ?_⟩) (by rw [hbreak]; exact Bool.false_ne_true)
      rcases hd' with rfl | rfl <;> rfl
  have hend : StartsToken [] := by simp [StartsToken, EndsGap]
  obtain ⟨l', hat, h', hrest', -, -⟩ := h.atToken? hspace hfurther (fun _ => htab) hend
    (by rw [hrest, List.append_nil])
  rw [tokens?_succ, hat, Option.bind_some, hrest']
  dsimp only
  rw [h'.close.2, h'.dropCandidate?.1, Option.map_some, h'.tokens]

end Lexer

/-! ## Tokens of a text -/

theorem isAllowed_of_blank {t : Text} (h : Json.IsBlank t) : ∀ d ∈ t, isAllowed d = true := by
  intro d hd
  have hblank := h d hd
  simp only [Json.isSpace, Bool.or_eq_true, decide_eq_true_eq] at hblank
  rcases hblank with ((rfl | rfl) | rfl) | rfl <;> rfl

theorem isAllowed_of_word {w : Text} (h : IsWord w) : ∀ d ∈ w, isAllowed d = true :=
  fun d hd => forall_wordChars (P := fun d => isAllowed d = true) (by decide) (h.chars d hd)

/-- A document may hold all characters of a phrase. -/
theorem isAllowed_of_starts {p : Json.Phrase} {t r : Text} (h : Json.Starts sharedSpelling p t r)
    (hr : ∀ d ∈ r, isAllowed d = true) : ∀ d ∈ t, isAllowed d = true := by
  have hcodes {s t : Text} (h : Spelled sharedSpelling.code s t) : ∀ d ∈ t, isAllowed d = true :=
    h.forall_mem fun _ _ => isAllowed_of_shared
  have hcons {e : Char} {t : Text} (he : isAllowed e = true) (ht : ∀ d ∈ t, isAllowed d = true) :
      ∀ d ∈ e :: t, isAllowed d = true := List.forall_mem_cons.mpr ⟨he, ht⟩
  have happend {s t : Text} (hs : ∀ d ∈ s, isAllowed d = true) (ht : ∀ d ∈ t, isAllowed d = true) :
      ∀ d ∈ s ++ t, isAllowed d = true := List.forall_mem_append.mpr ⟨hs, ht⟩
  induction h with
  | null r => exact happend (isAllowed_of_word isWord_null) hr
  | bool b r => exact happend (isAllowed_of_word (isWord_bool b)) hr
  | integer n exact r => exact happend (isAllowed_of_word (isWord_ofInt n)) hr
  | string spelled r => exact hcons rfl (happend (hcodes spelled) (hcons rfl hr))
  | emptyArray blank r | emptyObject blank r =>
    exact hcons rfl (happend (isAllowed_of_blank blank) (hcons rfl hr))
  | array h ih | object h ih => exact hcons rfl (ih (hcons rfl hr))
  | element hbefore h hafter ih =>
    exact happend (isAllowed_of_blank hbefore) (ih (happend (isAllowed_of_blank hafter) hr))
  | lastElement h ih | lastMember h ih => exact ih hr
  | elements first further ih ih' | members first further ih ih' => exact ih (hcons rfl (ih' hr))
  | member hbefore spelled hgap h ih =>
    have hcolon := hcons (e := ':') rfl (ih hr)
    have hgap' := happend (isAllowed_of_blank (sharedSpelling.blank hgap)) hcolon
    exact happend (isAllowed_of_blank hbefore)
      (hcons rfl (happend (hcodes spelled) (hcons rfl hgap')))

/-- A text of an object with blanks around it, where a tab indents no line. -/
inductive SharedText (members : Members) : Text → Prop
  | intro {before t line further : Text} (hbefore : Json.IsBlank before) (hindent : '\t' ∉ before)
      (h : Json.Starts sharedSpelling (.value (.object members)) t (line ++ further))
      (hline : Json.IsBlank line) (hbreak : line.any isBreak = false)
      (hfurther : Json.IsBlank further) (htab : '\t' ∉ further) : SharedText members (before ++ t)

theorem SharedText.writes {members : Members} {t : Text} (h : SharedText members t) :
    Json.Writes sharedSpelling (.object members) t := by
  obtain ⟨hbefore, -, h, hline, -, hfurther, -⟩ := h
  rw [← List.append_nil (_ ++ _)] at h
  exact .element hbefore h (hline.append hfurther)

/-- The tokens of a text that JSON and YAML share. -/
theorem Token.ofText?_shared {members : Members} {t : Text} (h : SharedText members t) :
    Token.ofText? t = some (flowTokens (.object members)) := by
  obtain @⟨before, t, line, further, hbefore, hindent, h, hline, hbreak, hfurther, htab⟩ := h
  have hall : (before ++ t).all isAllowed = true := by
    refine List.all_eq_true.mpr (List.forall_mem_append.mpr ⟨isAllowed_of_blank hbefore, ?_⟩)
    exact isAllowed_of_starts h
      (List.forall_mem_append.mpr ⟨isAllowed_of_blank hline, isAllowed_of_blank hfurther⟩)
  have hmark : (before ++ t).head? ≠ some byteOrderMark := by
    intro hhead
    have hfirst : isAllowed byteOrderMark = true ∧ Json.isSpace byteOrderMark = false := by decide
    cases before with
    | cons d before =>
      have hblank := hbefore d List.mem_cons_self
      rw [Option.some.inj hhead, hfirst.2] at hblank
      cases hblank
    | nil =>
      cases h <;> exact absurd (Option.some.inj hhead) (by decide)
  let l := Lexer.start (before ++ t)
  have hstart : Lexer.Before 0 [] t l :=
    ⟨⟨rfl, rfl, rfl, by simp [l, Lexer.start]⟩, before, hbefore, fun _ => hindent, rfl⟩
  obtain ⟨l', ⟨n, hn, htokens⟩, h', hrest, hkey⟩ := Lexer.reaches_object h hstart
  have hend := h'.tokens?_end hkey hline hbreak hfurther htab hrest
  have hread : l.tokens? ((before ++ t).length + 1) = some (flowTokens (.object members)) := by
    have hfuel : (before ++ t).length + 1 = (before ++ t).length - n + 1 + n := by
      have hle : n ≤ (before ++ t).length := Nat.le_trans (Nat.le_add_right n _) hn
      omega
    rw [hfuel, htokens, hend]
    rfl
  have hcursor : l.cursor.rest.head? ≠ some byteOrderMark := hmark
  rw [Token.ofText?, hall]
  simp only [Bool.not_true, Bool.false_eq_true, if_false, if_neg hmark]
  rw [if_neg hcursor]
  exact hread

end Stencil.Yaml
