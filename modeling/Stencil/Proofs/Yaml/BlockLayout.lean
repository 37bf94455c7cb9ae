import Stencil.Proofs.Json.Shape
import Stencil.Proofs.Yaml.PlainNumeral
import Stencil.Proofs.Yaml.StyledText

/-!
# Lines of a printed value

How the block form of a value is laid out: what its parts start with, that its last line is ended,
and what stands after a name.
-/

namespace Stencil.Yaml

/-! ## Ends of lines -/

/-- Whether the last line of a text is ended. -/
def EndsLine (t : Text) : Prop := ∃ body b, t = body ++ [b] ∧ isBreak b = true

theorem EndsLine.append {t : Text} (h : EndsLine t) (s : Text) : EndsLine (s ++ t) := by
  obtain ⟨body, b, rfl, hb⟩ := h
  exact ⟨s ++ body, b, (List.append_assoc ..).symm, hb⟩

theorem EndsLine.cons {t : Text} (h : EndsLine t) (d : Char) : EndsLine (d :: t) := h.append [d]

/-- After the last line the next one is indented. -/
theorem EndsLine.column_past {t : Text} (h : EndsLine t) (k : Nat) (c : Cursor) :
    (c.past (t ++ Text.fill k ' ')).column = k := by
  obtain ⟨body, b, rfl, hb⟩ := h
  have hcolumn := Cursor.column_past_line (s := body) hb (any_isBreak_fill k) c
  rw [List.append_assoc, List.singleton_append, hcolumn, Text.fill, List.length_replicate]

theorem endsLine_endLine (t : Text) : EndsLine (endLine t) := by
  rw [endLine]
  split
  · next h =>
    cases hlast : t.getLast? with
    | none =>
      rw [hlast] at h
      cases h
    | some b =>
      obtain ⟨body, rfl⟩ := List.getLast?_eq_some_iff.mp hlast
      rw [hlast] at h
      exact ⟨body, b, rfl, h⟩
  · exact ⟨t, '\n', rfl, rfl⟩

theorem exists_endLine (t : Text) : ∃ end', endLine t = t ++ end' := by
  rw [endLine]
  split
  · exact ⟨[], (List.append_nil t).symm⟩
  · exact ⟨['\n'], rfl⟩

theorem endLine_of_last {t : Text} (h : ∀ d ∈ t.getLast?, isBreak d = false) :
    endLine t = t ++ ['\n'] := by
  rw [endLine, if_neg]
  cases ht : t.getLast? with
  | none => simp
  | some d => simp [h d ht]

/-! ## Parts of a value -/

/-- Whether a value stands on one line, or is a text. -/
def IsLeaf : Json → Prop
  | .object (_ :: _) => False
  | .array (_ :: _) => False
  | _ => True

theorem isLeaf_or_collection (v : Json) :
    IsLeaf v ∨ (∃ item items, v = .array (item :: items)) ∨
      ∃ m members, v = .object (m :: members) := by
  cases v with
  | array items =>
    cases items with
    | nil => exact .inl trivial
    | cons item items => exact .inr (.inl ⟨item, items, rfl⟩)
  | object members =>
    cases members with
    | nil => exact .inl trivial
    | cons m members => exact .inr (.inr ⟨m, members, rfl⟩)
  | null | bool b | number n | string t => exact .inl trivial

/-- The values that are no more than a line, or a text. -/
@[elab_as_elim]
theorem leaf_cases {motive : (v : Json) → IsLeaf v → Prop} (null : motive .null trivial)
    (bool : ∀ b, motive (.bool b) trivial) (number : ∀ n, motive (.number n) trivial)
    (string : ∀ t, motive (.string t) trivial) (array : motive (.array []) trivial)
    (object : motive (.object []) trivial) (v : Json) (h : IsLeaf v) : motive v h := by
  match v with
  | .null => exact null
  | .bool b => exact bool b
  | .number n => exact number n
  | .string t => exact string t
  | .array [] => exact array
  | .array (_ :: _) => exact h.elim
  | .object [] => exact object
  | .object (_ :: _) => exact h.elim

/-- Induction on values through the collections that are spread over lines. -/
@[elab_as_elim]
theorem layout_induction {motive : Json → Prop} (leaf : ∀ v, IsLeaf v → motive v)
    (array : ∀ item items, (∀ v ∈ item :: items, motive v) → motive (.array (item :: items)))
    (object : ∀ (m : Text × Json) (members : Members), (∀ m' ∈ m :: members, motive m'.2) →
      motive (.object (m :: members)))
    (v : Json) : motive v := by
  induction v using Json.parts_induction with
  | array items ih =>
    cases items with
    | nil => exact leaf _ trivial
    | cons item items => exact array item items ih
  | object members ih =>
    cases members with
    | nil => exact leaf _ trivial
    | cons m members => exact object m members ih
  | null | bool b | number n | string t => exact leaf _ trivial

theorem printBlock_leaf {v : Json} (h : IsLeaf v) (column : Nat) :
    printBlock column v = endLine (printLeaf column v) := by
  cases v, h using leaf_cases <;> rfl

/-- What is written after a name that is not announced, and its colon. -/
def afterName (column : Nat) : Json → Text
  | .object (m :: members) => newline (column + 2) ++ printMembers (column + 2) (m :: members)
  | .array (item :: items) => newline column ++ printItems column (item :: items)
  | v => ' ' :: endLine (printLeaf (column + 2) v)

theorem afterName_leaf {v : Json} (h : IsLeaf v) (column : Nat) :
    afterName column v = ' ' :: endLine (printLeaf (column + 2) v) := by
  rw [afterName]
  · rintro m members rfl
    exact h
  · rintro item items rfl
    exact h

theorem printMember_simple {name : Text} (h : isSimpleName name = true) (column : Nat) (v : Json) :
    printMember column name v = printText (column + 2) name ++ ':' :: afterName column v := by
  rcases isLeaf_or_collection v with hleaf | ⟨item, items, rfl⟩ | ⟨m, members, rfl⟩
  · rw [afterName_leaf hleaf, printMember, if_pos h, List.append_assoc]
    · rfl
    · rintro m members rfl
      exact hleaf
    · rintro item items rfl
      exact hleaf
  · rw [printMember, if_pos h]
    rfl
  · rw [printMember, if_pos h]
    rfl

theorem printMember_announced {name : Text} (h : isSimpleName name = false) (column : Nat)
    (v : Json) :
    printMember column name v = announce column name ++ printBlock (column + 2) v := by
  have hno : ¬isSimpleName name = true := by rw [h]; exact Bool.false_ne_true
  rcases isLeaf_or_collection v with hleaf | ⟨item, items, rfl⟩ | ⟨m, members, rfl⟩
  · rw [printBlock_leaf hleaf, printMember, if_neg hno]
    · rintro m members rfl
      exact hleaf
    · rintro item items rfl
      exact hleaf
  · rw [printMember, if_neg hno, printBlock]
  · rw [printMember, if_neg hno, printBlock]

theorem printMembers_cons (column : Nat) (name : Text) (v : Json) (m : Text × Json)
    (members : Members) : printMembers column ((name, v) :: m :: members) =
      printMember column name v ++ Scalar.indent column ++ printMembers column (m :: members) := rfl

theorem printItems_cons (column : Nat) (v item : Json) (items : List Json) :
    printItems column (v :: item :: items) = '-' :: ' ' :: (printBlock (column + 2) v ++
      Scalar.indent column ++ printItems column (item :: items)) := rfl

theorem endsLine_printItems {items : List Json} (hne : items ≠ [])
    (h : ∀ v ∈ items, ∀ column, EndsLine (printBlock column v)) (column : Nat) :
    EndsLine (printItems column items) := by
  induction items with
  | nil => exact absurd rfl hne
  | cons v items ih =>
    obtain ⟨hv, hfurther⟩ := List.forall_mem_cons.mp h
    cases items with
    | nil => exact ((hv (column + 2)).cons ' ').cons '-'
    | cons item items =>
      rw [printItems_cons]
      exact (((ih (List.cons_ne_nil _ _) hfurther).append _).cons ' ').cons '-'

theorem endsLine_printMember {v : Json}
    (h : ∀ column, EndsLine (printBlock column v) ∧ EndsLine (afterName column v)) (column : Nat)
    (name : Text) : EndsLine (printMember column name v) := by
  cases hname : isSimpleName name with
  | true =>
    rw [printMember_simple hname]
    exact ((h column).2.cons ':').append _
  | false =>
    rw [printMember_announced hname]
    exact (h (column + 2)).1.append _

theorem endsLine_printMembers {members : Members} (hne : members ≠ [])
    (h : ∀ m ∈ members, ∀ column,
      EndsLine (printBlock column m.2) ∧ EndsLine (afterName column m.2))
    (column : Nat) : EndsLine (printMembers column members) := by
  induction members with
  | nil => exact absurd rfl hne
  | cons m members ih =>
    obtain ⟨hm, hfurther⟩ := List.forall_mem_cons.mp h
    cases members with
    | nil => exact endsLine_printMember hm column m.1
    | cons m' members =>
      rw [printMembers_cons]
      exact (ih (List.cons_ne_nil _ _) hfurther).append _

/-- The last line of a value is ended, wherever the value stands. -/
theorem endsLine_printBlock (v : Json) (column : Nat) :
    EndsLine (printBlock column v) ∧ EndsLine (afterName column v) := by
  induction v using layout_induction generalizing column with
  | leaf v h =>
    rw [printBlock_leaf h, afterName_leaf h]
    exact ⟨endsLine_endLine _, (endsLine_endLine _).cons ' '⟩
  | array item items ih =>
    have hitems := endsLine_printItems (List.cons_ne_nil item items)
      fun v hv column => (ih v hv column).1
    exact ⟨hitems column, (hitems column).append _⟩
  | object m members ih =>
    have hmembers := endsLine_printMembers (List.cons_ne_nil m members) ih
    exact ⟨hmembers column, (hmembers (column + 2)).append _⟩

/-! ## Starts of tokens -/

theorem startsToken_of_cons {d : Char} (hspace : isSpace d = false) (hbreak : isBreak d = false)
    (hcomment : d ≠ '#') (r : Text) : StartsToken (d :: r) := by
  refine ⟨?_, by simpa using hcomment⟩
  rintro e ⟨⟩
  exact ⟨hspace, hbreak⟩

theorem startsToken_plain {t : Text} (ht : Scalar.canBePlain t = true) (r : Text) :
    StartsToken (t ++ r) := by
  have hword := Wordlike.of_canBePlain ht
  obtain ⟨d, t, rfl⟩ := List.exists_cons_of_ne_nil hword.ne_nil
  obtain ⟨hprintable, hbreak⟩ := hword.chars d List.mem_cons_self
  exact startsToken_of_cons (isSpace_eq_false hprintable (by simpa using hword.head_ne.1)) hbreak
    (by simpa using hword.head_ne.2) (t ++ r)

theorem printText_ne_nil (column : Nat) (t : Text) : printText column t ≠ [] := by
  have ht := styled_style t
  rw [printText]
  cases hstyle : Scalar.style t with
  | plain =>
    rw [hstyle] at ht
    cases ht with
    | plain h => exact (Wordlike.of_canBePlain h).ne_nil
  | singleQuoted | doubleQuoted | literal => exact List.cons_ne_nil _ _

theorem startsToken_printText (column : Nat) (t r : Text) :
    StartsToken (printText column t ++ r) := by
  have ht := styled_style t
  rw [printText]
  cases hstyle : Scalar.style t with
  | plain =>
    rw [hstyle] at ht
    cases ht with
    | plain h => exact startsToken_plain h r
  | singleQuoted | doubleQuoted | literal => exact startsToken_of_cons rfl rfl (by decide) _

theorem startsToken_printLeaf {v : Json} (hv : v.Integral) (hleaf : IsLeaf v) (column : Nat)
    (r : Text) : StartsToken (printLeaf column v ++ r) := by
  cases v, hleaf using leaf_cases with
  | null => exact startsToken_plain (t := "null".toList) (by decide) r
  | bool b =>
    cases b with
    | false => exact startsToken_plain (t := "false".toList) (by decide) r
    | true => exact startsToken_plain (t := "true".toList) (by decide) r
  | number n =>
    cases hv with | integer n exact => exact startsToken_plain (canBePlain_ofInt n) r
  | string t => exact startsToken_printText column t r
  | array | object => exact startsToken_of_cons rfl rfl (by decide) _

theorem startsToken_printMember (column : Nat) (name : Text) (v : Json) (r : Text) :
    StartsToken (printMember column name v ++ r) := by
  cases h : isSimpleName name with
  | true =>
    rw [printMember_simple h, List.append_assoc]
    exact startsToken_printText ..
  | false =>
    rw [printMember_announced h]
    exact startsToken_of_cons rfl rfl (by decide) _

theorem startsToken_printMembers (column : Nat) {members : Members} (h : members ≠ []) (r : Text) :
    StartsToken (printMembers column members ++ r) := by
  match members with
  | [] => exact absurd rfl h
  | [(name, v)] => exact startsToken_printMember column name v r
  | (name, v) :: m :: members =>
    rw [printMembers_cons, List.append_assoc, List.append_assoc]
    exact startsToken_printMember ..

theorem startsToken_printItems (column : Nat) {items : List Json} (h : items ≠ []) (r : Text) :
    StartsToken (printItems column items ++ r) := by
  match items with
  | [] => exact absurd rfl h
  | [v] => exact startsToken_of_cons rfl rfl (by decide) _
  | v :: item :: items => exact startsToken_of_cons rfl rfl (by decide) _

theorem startsToken_printBlock {v : Json} (hv : v.Integral) (column : Nat) (r : Text) :
    StartsToken (printBlock column v ++ r) := by
  rcases isLeaf_or_collection v with hleaf | ⟨item, items, rfl⟩ | ⟨m, members, rfl⟩
  · obtain ⟨end', hend⟩ := exists_endLine (printLeaf column v)
    rw [printBlock_leaf hleaf, hend, List.append_assoc]
    exact startsToken_printLeaf hv hleaf column _
  · rw [printBlock]
    exact startsToken_printItems column (List.cons_ne_nil _ _) r
  · rw [printBlock]
    exact startsToken_printMembers column (List.cons_ne_nil _ _) r

theorem endsWord_afterName (q : Nat) (v : Json) (r : Text) :
    endsWord (afterName q v ++ r) = true := by
  rcases isLeaf_or_collection v with hleaf | ⟨item, items, rfl⟩ | ⟨m, members, rfl⟩
  · rw [afterName_leaf hleaf]
    rfl
  · rfl
  · rfl

theorem column_announce (name : Text) (q : Nat) (c : Cursor) :
    (c.past (announce q name)).column = q + 2 := by
  have hannounce : announce q name = ['?', ' '] ++ (endLine (printText (q + 2) name) ++
      Text.fill q ' ') ++ [':', ' '] := by simp [announce, Scalar.indent]
  rw [hannounce, Cursor.past_append, Cursor.past_append, Cursor.column_past rfl,
    (endsLine_endLine _).column_past]
  rfl

/-! ## Characters -/

/-- Whether all characters of a text can be written without an escape. -/
def Printable (t : Text) : Prop := ∀ d ∈ t, Scalar.isPrintable d = true

theorem Printable.append {s t : Text} (hs : Printable s) (ht : Printable t) : Printable (s ++ t) :=
  List.forall_mem_append.mpr ⟨hs, ht⟩

theorem Printable.cons {d : Char} {t : Text} (hd : Scalar.isPrintable d = true) (ht : Printable t) :
    Printable (d :: t) :=
  List.forall_mem_cons.mpr ⟨hd, ht⟩

theorem printable_fill (n : Nat) : Printable (Text.fill n ' ') := by
  intro d hd
  rw [List.eq_of_mem_replicate hd]
  rfl

theorem printable_lines {write : Char → Text} {t : Text} (h : ∀ d ∈ t, Printable (write d))
    (ht : Printable t) (column : Nat) (closed fresh : Bool) :
    Printable (Scalar.lines column closed write fresh t) := by
  have hindent : Printable (Scalar.indent column) := printable_fill column
  induction t generalizing fresh with
  | nil =>
    rw [Scalar.lines]
    split
    · exact hindent
    · exact List.forall_mem_nil _
  | cons d t ih =>
    obtain ⟨hd, hfurther⟩ := List.forall_mem_cons.mp h
    obtain ⟨hd', ht⟩ := List.forall_mem_cons.mp ht
    rw [Scalar.lines]
    split
    · exact .cons hd' (ih hfurther ht true)
    · refine .append (.append ?_ hd) (ih hfurther ht false)
      split
      · exact hindent
      · exact List.forall_mem_nil _

theorem printable_upperDigits (count n : Nat) : Printable (Hexadecimal.upperDigits count n) := by
  have hdigit : ∀ n < 16, Scalar.isPrintable (Hexadecimal.upperDigit n) = true := by decide
  induction count generalizing n with
  | zero => exact List.forall_mem_nil _
  | succ count ih =>
    refine .append (ih (n / 16)) (.cons (hdigit (n % 16) (Nat.mod_lt n (by decide))) ?_)
    exact List.forall_mem_nil _

theorem printable_doubleQuotedChar (d : Char) : Printable (Scalar.doubleQuotedChar d) := by
  rw [Scalar.doubleQuotedChar]
  split
  · next h =>
    simp only [Bool.and_eq_true] at h
    exact .cons h.1.1.1 (List.forall_mem_nil _)
  · split
    · next e h =>
      have he : Scalar.isPrintable e = true := by
        rw [Scalar.escapeLetter?] at h
        split at h <;> cases h <;> rfl
      exact .cons rfl (.cons he (List.forall_mem_nil _))
    · split
      · exact .cons rfl (.cons rfl (printable_upperDigits 2 _))
      · split
        · exact .cons rfl (.cons rfl (printable_upperDigits 4 _))
        · exact .cons rfl (.cons rfl (printable_upperDigits 8 _))

theorem printable_literalHeader (t : Text) : Printable (Scalar.literalHeader t) := by
  rw [Block.literalHeader_eq]
  refine .append ?_ ?_
  · split
    · exact .cons rfl (List.forall_mem_nil _)
    · exact List.forall_mem_nil _
  · cases Block.chompingOf t with
    | clip => exact List.forall_mem_nil _
    | strip | keep => exact .cons rfl (List.forall_mem_nil _)

/-- Whatever a text is, it is written with characters that need no escape. -/
theorem printable_printText (column : Nat) (t : Text) : Printable (printText column t) := by
  have hquote (q : Char) (hq : Scalar.isPrintable q = true) : Printable [q] :=
    .cons hq (List.forall_mem_nil _)
  have hstyled := styled_style t
  rw [printText]
  cases hstyle : Scalar.style t with
  | plain =>
    rw [hstyle] at hstyled
    cases hstyled with
    | plain h => exact fun d hd => ((Wordlike.of_canBePlain h).chars d hd).1
  | singleQuoted =>
    rw [hstyle] at hstyled
    cases hstyled with
    | singleQuoted h =>
      refine .cons rfl
        (.append (printable_lines (fun d hd => ?_) h.printable _ _ _) (hquote '\'' rfl))
      have hd' := hquote d (h.printable d hd)
      split
      · exact .cons (h.printable d hd) hd'
      · exact hd'
  | doubleQuoted =>
    refine .cons rfl (.append (fun d hd => ?_) (hquote '"' rfl))
    obtain ⟨e, -, hd⟩ := List.mem_flatMap.mp hd
    exact printable_doubleQuotedChar e d hd
  | literal =>
    rw [hstyle] at hstyled
    cases hstyled with
    | literal hne h =>
      refine .cons rfl (.append (printable_literalHeader t) (.cons rfl ?_))
      exact printable_lines (fun d hd => hquote d (h d hd)) h _ _ _

theorem printable_endLine {t : Text} (h : Printable t) : Printable (endLine t) := by
  rw [endLine]
  split
  · exact h
  · exact .append h (.cons rfl (List.forall_mem_nil _))

theorem printable_newline (column : Nat) : Printable (newline column) :=
  .cons rfl (printable_fill column)

theorem printable_announce (column : Nat) (name : Text) : Printable (announce column name) := by
  refine .cons rfl (.cons rfl (.append (.append ?_ (printable_fill column)) ?_))
  · exact printable_endLine (printable_printText _ name)
  · exact .cons rfl (.cons rfl (List.forall_mem_nil _))

theorem printable_printLeaf {v : Json} (hv : v.Integral) (hleaf : IsLeaf v) (column : Nat) :
    Printable (printLeaf column v) := by
  have hplain {t : Text} (ht : Scalar.canBePlain t = true) : Printable t :=
    fun d hd => ((Wordlike.of_canBePlain ht).chars d hd).1
  cases v, hleaf using leaf_cases with
  | null => exact hplain (t := "null".toList) (by decide)
  | bool b =>
    cases b with
    | false => exact hplain (t := "false".toList) (by decide)
    | true => exact hplain (t := "true".toList) (by decide)
  | number n => cases hv with | integer n exact => exact hplain (canBePlain_ofInt n)
  | string t => exact printable_printText column t
  | array | object => exact .cons rfl (.cons rfl (List.forall_mem_nil _))

theorem printable_printItems {items : List Json}
    (h : ∀ v ∈ items, ∀ column, Printable (printBlock column v)) (column : Nat) :
    Printable (printItems column items) := by
  induction items with
  | nil => exact List.forall_mem_nil _
  | cons v items ih =>
    obtain ⟨hv, hfurther⟩ := List.forall_mem_cons.mp h
    cases items with
    | nil => exact .cons rfl (.cons rfl (hv (column + 2)))
    | cons item items =>
      rw [printItems_cons]
      exact .cons rfl (.cons rfl (.append (.append (hv (column + 2)) (printable_fill column))
        (ih hfurther)))

theorem printable_printMember {v : Json}
    (h : ∀ column, Printable (printBlock column v) ∧ Printable (afterName column v)) (column : Nat)
    (name : Text) : Printable (printMember column name v) := by
  cases hname : isSimpleName name with
  | true =>
    rw [printMember_simple hname]
    exact .append (printable_printText _ name) (.cons rfl (h column).2)
  | false =>
    rw [printMember_announced hname]
    exact .append (printable_announce column name) (h (column + 2)).1

theorem printable_printMembers {members : Members}
    (h : ∀ m ∈ members, ∀ column,
      Printable (printBlock column m.2) ∧ Printable (afterName column m.2))
    (column : Nat) : Printable (printMembers column members) := by
  induction members with
  | nil => exact List.forall_mem_nil _
  | cons m members ih =>
    obtain ⟨hm, hfurther⟩ := List.forall_mem_cons.mp h
    cases members with
    | nil => exact printable_printMember hm column m.1
    | cons m' members =>
      rw [printMembers_cons]
      exact .append (.append (printable_printMember hm column m.1) (printable_fill column))
        (ih hfurther)

/-- A value whose numbers are integers is written with characters that need no escape. -/
theorem printable_printBlock {v : Json} (hv : v.Integral) (column : Nat) :
    Printable (printBlock column v) ∧ Printable (afterName column v) := by
  induction v using layout_induction generalizing column with
  | leaf v h =>
    rw [printBlock_leaf h, afterName_leaf h]
    exact ⟨printable_endLine (printable_printLeaf hv h column),
      .cons rfl (printable_endLine (printable_printLeaf hv h _))⟩
  | array item items ih =>
    cases hv with | array hv =>
    have hitems := printable_printItems fun v hmem column => (ih v hmem (hv v hmem) column).1
    exact ⟨hitems column, .append (printable_newline column) (hitems column)⟩
  | object m members ih =>
    cases hv with | object hv =>
    have hmembers := printable_printMembers fun m hmem column => ih m hmem (hv m hmem) column
    exact ⟨hmembers column, .append (printable_newline _) (hmembers (column + 2))⟩

end Stencil.Yaml
