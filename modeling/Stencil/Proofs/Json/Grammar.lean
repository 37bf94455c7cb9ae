import Stencil.Json.Parser
import Stencil.Proofs.Json.Members
import Stencil.Proofs.Json.Shape
import Stencil.Proofs.Text.Numeral
import Stencil.Proofs.Text.Spelling

/-!
# The grammar of JSON

The texts that RFC 8259 gives for a value whose numbers are integers. It leaves a choice of blanks
between the tokens and of escapes in strings, and an object can be written with a name more than
once. So the grammar relates a text to a value as it is written, and the value that a reader makes
of it is a second step.
-/

namespace Stencil.Json

/-- The codes of a character in a string: itself, a letter or four digits after a backslash, or
twice four digits when four do not suffice. -/
inductive CharCode : Char → Text → Prop
  | raw {c : Char} (visible : 32 ≤ c.toNat) (noQuote : c ≠ '"') (noSlash : c ≠ '\\') :
      CharCode c [c]
  | letter {c d : Char} (h : shortEscape? d = some c) : CharCode c ['\\', d]
  | digits {c : Char} {digits : Text} (h : Hexadecimal.take? 4 0 digits = some (c.toNat, [])) :
      CharCode c ('\\' :: 'u' :: digits)
  | pair {c : Char} {high low : Text} {m n : Nat}
      (hhigh : Hexadecimal.take? 4 0 high = some (m, []))
      (hlow : Hexadecimal.take? 4 0 low = some (n, []))
      (rangeHigh : 0xD800 ≤ m ∧ m ≤ 0xDBFF) (rangeLow : 0xDC00 ≤ n ∧ n ≤ 0xDFFF)
      (h : c.toNat = (m - 0xD800) * 1024 + (n - 0xDC00) + 0x10000) :
      CharCode c ('\\' :: 'u' :: (high ++ '\\' :: 'u' :: low))

/-- Whether a text is made of blanks. -/
def IsBlank (t : Text) : Prop := ∀ c ∈ t, isSpace c = true

theorem isBlank_nil : IsBlank [] := List.forall_mem_nil _

theorem IsBlank.append {s t : Text} (hs : IsBlank s) (ht : IsBlank t) : IsBlank (s ++ t) :=
  fun c hc => (List.mem_append.mp hc).elim (hs c) (ht c)

/-- A choice of legal ways to write a text: the codes of characters, and the blanks that can stand
between a name and its colon. -/
structure Spelling where
  code : Char → Text → Prop
  gap : (name gap : Text) → Prop
  legal {c : Char} {t : Text} : code c t → CharCode c t
  blank {name t : Text} : gap name t → IsBlank t

/-- All that is legal. -/
def Spelling.standard : Spelling where
  code := CharCode
  gap _ t := IsBlank t
  legal := id
  blank := id

/-- What a part of a text stands for. An element is a value with the blanks around it, and an
element or a member can be followed by others after a comma. -/
inductive Phrase
  | value (v : Json)
  | element (v : Json)
  | elements (items : List Json)
  | member (name : Text) (v : Json)
  | members (members : Members)

/-- The first text starts with a phrase, and the second one is what follows it. -/
inductive Starts (σ : Spelling) : Phrase → Text → Text → Prop
  | null (r : Text) : Starts σ (.value .null) ("null".toList ++ r) r
  | bool (b : Bool) (r : Text) :
      Starts σ (.value (.bool b)) ((if b then "true".toList else "false".toList) ++ r) r
  | integer (n : Int) (exact : Number.Exact n) (r : Text) :
      Starts σ (.value (.number (.integer n exact))) (Numeral.ofInt n ++ r) r
  | string {s t : Text} (spelled : Spelled σ.code s t) (r : Text) :
      Starts σ (.value (.string s)) ('"' :: (t ++ '"' :: r)) r
  | emptyArray {t : Text} (blank : IsBlank t) (r : Text) :
      Starts σ (.value (.array [])) ('[' :: (t ++ ']' :: r)) r
  | array {items : List Json} {t r : Text} (h : Starts σ (.elements items) t (']' :: r)) :
      Starts σ (.value (.array items)) ('[' :: t) r
  | emptyObject {t : Text} (blank : IsBlank t) (r : Text) :
      Starts σ (.value (.object [])) ('\x7b' :: (t ++ '\x7d' :: r)) r
  | object {members : Members} {t r : Text} (h : Starts σ (.members members) t ('\x7d' :: r)) :
      Starts σ (.value (.object members)) ('\x7b' :: t) r
  | element {v : Json} {before after t r : Text} (hbefore : IsBlank before)
      (h : Starts σ (.value v) t (after ++ r)) (hafter : IsBlank after) :
      Starts σ (.element v) (before ++ t) r
  | lastElement {v : Json} {t r : Text} (h : Starts σ (.element v) t r) :
      Starts σ (.elements [v]) t r
  | elements {v w : Json} {items : List Json} {t u r : Text}
      (first : Starts σ (.element v) t (',' :: u))
      (further : Starts σ (.elements (w :: items)) u r) :
      Starts σ (.elements (v :: w :: items)) t r
  | member {name before code gap t r : Text} {v : Json} (hbefore : IsBlank before)
      (spelled : Spelled σ.code name code) (hgap : σ.gap code gap)
      (h : Starts σ (.element v) t r) :
      Starts σ (.member name v) (before ++ '"' :: (code ++ '"' :: (gap ++ ':' :: t))) r
  | lastMember {name : Text} {v : Json} {t r : Text} (h : Starts σ (.member name v) t r) :
      Starts σ (.members [(name, v)]) t r
  | members {name : Text} {v : Json} {m : Text × Json} {members : Members} {t u r : Text}
      (first : Starts σ (.member name v) t (',' :: u))
      (further : Starts σ (.members (m :: members)) u r) :
      Starts σ (.members ((name, v) :: m :: members)) t r

/-- A text that is nothing but a value, with blanks around it. -/
def Writes (σ : Spelling) (v : Json) (t : Text) : Prop := Starts σ (.element v) t []

/-! ## First characters -/

theorem skipSpace_of_head {t : Text} (h : ∀ c ∈ t.head?, isSpace c = false) : skipSpace t = t := by
  cases t with
  | nil => rfl
  | cons c t => simp [skipSpace, h c rfl]

theorem skipSpace_cons {c : Char} (h : isSpace c = false) (t : Text) :
    skipSpace (c :: t) = c :: t :=
  skipSpace_of_head fun _ hc' => Option.some.inj hc' ▸ h

theorem skipSpace_blank {t : Text} (h : IsBlank t) (r : Text) : skipSpace (t ++ r) = skipSpace r :=
  List.dropWhile_append_of_pos h

/-- The first character of an integer. -/
theorem head?_ofInt (n : Int) : ∃ c t, Numeral.ofInt n = c :: t ∧ (c = '-' ∨ c.isDigit = true) := by
  cases n with
  | negSucc n => exact ⟨'-', _, rfl, .inl rfl⟩
  | ofNat n =>
    have hall := Numeral.all_isDigit_ofNat n
    rw [Numeral.ofInt]
    cases hn : Numeral.ofNat n with
    | nil => exact absurd hn (Numeral.ofNat_ne_nil n)
    | cons d digits =>
      rw [hn, List.all_cons, Bool.and_eq_true] at hall
      exact ⟨d, digits, rfl, .inr hall.1⟩

/-- A value starts with a character that is no blank and closes nothing. -/
theorem Starts.head? {σ : Spelling} {v : Json} {t r : Text} (h : Starts σ (.value v) t r) :
    ∃ c u, t = c :: u ∧ isSpace c = false ∧ c ≠ ']' ∧ c ≠ '\x7d' := by
  cases h with
  | null r => exact ⟨'n', _, rfl, by decide⟩
  | bool b r => cases b <;> exact ⟨_, _, rfl, by decide⟩
  | string spelled r => exact ⟨'"', _, rfl, by decide⟩
  | emptyArray blank r => exact ⟨'[', _, rfl, by decide⟩
  | array h => exact ⟨'[', _, rfl, by decide⟩
  | emptyObject blank r => exact ⟨'\x7b', _, rfl, by decide⟩
  | object h => exact ⟨'\x7b', _, rfl, by decide⟩
  | integer n exact r =>
    obtain ⟨c, u, hn, hc⟩ := head?_ofInt n
    refine ⟨c, u ++ r, by rw [hn]; rfl, ?_⟩
    rcases hc with rfl | hc
    · decide
    · refine ⟨?_, ?_, ?_⟩
      · simp only [isSpace, Bool.or_eq_false_iff, decide_eq_false_iff_not]
        refine ⟨⟨⟨?_, ?_⟩, ?_⟩, ?_⟩ <;> (rintro rfl; revert hc; decide)
      · rintro rfl
        revert hc
        decide
      · rintro rfl
        revert hc
        decide

/-- The first token of a phrase closes nothing. -/
theorem Starts.skipSpace_ne {σ : Spelling} {p : Phrase} {t r : Text} (h : Starts σ p t r) :
    (skipSpace t).head? ≠ some ']' ∧ (skipSpace t).head? ≠ some '\x7d' := by
  have hvalue {v : Json} {t r : Text} (h : Starts σ (.value v) t r) :
      (skipSpace t).head? ≠ some ']' ∧ (skipSpace t).head? ≠ some '\x7d' := by
    obtain ⟨c, u, rfl, hspace, hbracket, hbrace⟩ := h.head?
    rw [skipSpace_cons hspace]
    simpa using And.intro hbracket hbrace
  induction h with
  | element hbefore h hafter =>
    rw [skipSpace_blank hbefore]
    exact hvalue h
  | member hbefore spelled hgap h =>
    rw [skipSpace_blank hbefore, skipSpace_cons (by decide)]
    simp
  | lastElement _ ih | lastMember _ ih => exact ih
  | elements _ _ ih _ | members _ _ ih _ => exact ih
  | _ => exact hvalue (by constructor <;> assumption)

/-- A phrase is not empty. -/
theorem Starts.length_lt {σ : Spelling} {p : Phrase} {t r : Text} (h : Starts σ p t r) :
    r.length < t.length := by
  induction h with
  | null r =>
    rw [List.length_append]
    exact Nat.lt_add_left_iff_pos.mpr (by decide)
  | bool b r =>
    rw [List.length_append]
    cases b <;> exact Nat.lt_add_left_iff_pos.mpr (by decide)
  | integer n exact r =>
    obtain ⟨c, u, hn, -⟩ := head?_ofInt n
    rw [List.length_append, hn]
    exact Nat.lt_add_left_iff_pos.mpr (Nat.succ_pos _)
  | string spelled r | emptyArray blank r | emptyObject blank r =>
    simp only [List.length_cons, List.length_append]
    omega
  | array h ih | object h ih =>
    simp only [List.length_cons] at ih ⊢
    omega
  | element hbefore h hafter ih =>
    simp only [List.length_append] at ih ⊢
    omega
  | lastElement h ih | lastMember h ih => exact ih
  | elements first further ih ih' | members first further ih ih' =>
    simp only [List.length_cons] at ih
    omega
  | member hbefore spelled hgap h ih =>
    simp only [List.length_append, List.length_cons]
    omega

/-- The grammar writes integers only. -/
def Phrase.Integral : Phrase → Prop
  | .value v | .element v | .member _ v => Json.Integral v
  | .elements items => ∀ v ∈ items, Json.Integral v
  | .members changes => ∀ m ∈ changes, Json.Integral m.2

theorem Starts.integral {σ : Spelling} {p : Phrase} {t r : Text} (h : Starts σ p t r) :
    p.Integral := by
  induction h with
  | null r => exact .null
  | bool b r => exact .bool b
  | integer n exact r => exact .integer n exact
  | @string s _ _ _ => exact .string s
  | emptyArray _ _ => exact .array (List.forall_mem_nil _)
  | emptyObject _ _ => exact .object (List.forall_mem_nil _)
  | array _ ih => exact .array ih
  | object _ ih => exact .object ih
  | element _ _ _ ih | member _ _ _ _ ih => exact ih
  | lastElement _ ih | lastMember _ ih => exact List.forall_mem_singleton.mpr ih
  | elements _ _ ih ih' | members _ _ ih ih' => exact List.forall_mem_cons.mpr ⟨ih, ih'⟩

/-! ## Values as they are read -/

mutual
/-- The value that is read where a value is written: of several members with one name the first
gives the place, and the last the value. -/
def settled : Json → Json
  | .array items => .array (settledItems items)
  | .object members => .object (Members.setAll [] (settledMembers members))
  | v => v

def settledItems : List Json → List Json
  | [] => []
  | v :: items => settled v :: settledItems items

def settledMembers : List (Text × Json) → List (Text × Json)
  | [] => []
  | (name, v) :: members => (name, settled v) :: settledMembers members
end

theorem settledItems_of_forall {items : List Json} (h : ∀ v ∈ items, settled v = v) :
    settledItems items = items := by
  induction items with
  | nil => rfl
  | cons v items ih =>
    obtain ⟨hv, hfurther⟩ := List.forall_mem_cons.mp h
    rw [settledItems, hv, ih hfurther]

theorem settledMembers_of_forall {members : Members} (h : ∀ m ∈ members, settled m.2 = m.2) :
    settledMembers members = members := by
  induction members with
  | nil => rfl
  | cons m members ih =>
    obtain ⟨hm, hfurther⟩ := List.forall_mem_cons.mp h
    rw [settledMembers, hm, ih hfurther]

/-- Where each name is written once, the value is read as it is written. -/
theorem settled_of_wellNamed {v : Json} (h : WellNamed v) : settled v = v := by
  induction v using parts_induction with
  | array items ih =>
    cases h with | array h =>
    rw [settled, settledItems_of_forall fun v hv => ih v hv (h v hv)]
  | object members ih =>
    cases h with | object distinct h =>
    rw [settled, settledMembers_of_forall fun m hm => ih m hm (h m hm),
      Members.setAll_of_nodup (by exact distinct), List.nil_append]
  | null | bool b | number n | string s => rfl

end Stencil.Json
