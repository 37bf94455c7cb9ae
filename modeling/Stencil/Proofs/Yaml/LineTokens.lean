import Stencil.Proofs.Yaml.BlockLayout
import Stencil.Proofs.Yaml.TokenSteps

/-!
# Tokens of one line

The tokens of a value that is not spread over lines, and those of a name. The reader finds them
wherever the line stands in its collection, and comes to the start of the next line.
-/

namespace Stencil.Yaml

/-- The token of a text. -/
def textToken (t : Text) : Token := .scalar (Scalar.style t = .plain) t

/-- The tokens of a value that is not spread over lines. -/
def leafTokens : Json → List Token
  | .string t => [textToken t]
  | .array _ => [.flowSequenceStart, .flowSequenceEnd]
  | .object _ => [.flowMappingStart, .flowMappingEnd]
  | v => [.scalar true (printLeaf 0 v)]

namespace Lexer

/-! ## A text and the end of its line -/

theorem head?_le {p : Nat} {columns : List Nat} {c : Cursor} (h : p < c.column) :
    ∀ q ∈ (p :: columns).head?, q ≤ c.column := by
  rintro q ⟨⟩
  exact Nat.le_of_lt h

section
variable {p k : Nat} {r : Text} {c : Cursor} (ts : List Token) (columns : List Nat)
  (keyAllowed : Bool)

/-- A text to the right of the innermost collection need not be a key, and it is none after the end
of its line. -/
theorem passed_savedCandidate (hcolumn : p < c.column) (t s : Text) :
    ∀ k ∈ savedCandidate c ts (p :: columns) keyAllowed,
      k.required = false ∧ k.isStale (c.past (t ++ '\n' :: s)) = true := by
  intro k hk
  obtain rfl := eq_candidateAt_of_saved hk
  have hbreak : (t ++ '\n' :: s).any isBreak = true := by
    simp [show isBreak '\n' = true from rfl]
  have hline := Cursor.line_lt_past hbreak c
  simp [candidateAt, Candidate.isStale, hline, Nat.ne_of_lt hcolumn]

theorem reaches_lineEnd (ts' : List Token) {t : Text} (hcolumn : p < c.column) (hr : StartsToken r)
    (hrest : c.rest = t ++ '\n' :: (Text.fill k ' ' ++ r)) :
    Reaches (outside (c.past t) ts' (p :: columns) (savedCandidate c ts (p :: columns) keyAllowed)
        false)
      (outside (c.past (t ++ '\n' :: Text.fill k ' ')) ts' (p :: columns) none true) := by
  have hpassed := passed_savedCandidate ts columns keyAllowed hcolumn t (Text.fill k ' ')
  rw [Cursor.past_append] at hpassed ⊢
  exact reaches_newline ts' (p :: columns) false hr (Cursor.rest_past_of_eq hrest) hpassed

/-- A plain text ends with its line when the next one is not indented as deep. -/
theorem read?_plain_line {t : Text} (ht : Scalar.canBePlain t = true) (hcolumn : p < c.column)
    (hk : k ≤ p) (hr : StartsToken r) (hrest : c.rest = t ++ '\n' :: (Text.fill k ' ' ++ r)) :
    Plain.read? false (p + 1) c = some ⟨t, true, c.past (t ++ '\n' :: Text.fill k ' ')⟩ := by
  have hword := Wordlike.of_canBePlain ht
  have hends : EndsPlain ('\n' :: (Text.fill k ' ' ++ r)) := .inr (.inl rfl)
  have hmark : c.atDocumentMark = false := Cursor.atDocumentMark_of_column (by omega)
  have hgap : IsGap ('\n' :: Text.fill k ' ') :=
    List.forall_mem_cons.mpr ⟨.inr ⟨rfl, rfl⟩, isGap_fill k⟩
  have hgapRest : (c.past t).rest = ('\n' :: Text.fill k ' ') ++ r := Cursor.rest_past_of_eq hrest
  have hafter : (c.past (t ++ '\n' :: Text.fill k ' ')).column = k := by
    rw [Cursor.column_past_line rfl (any_isBreak_fill k), Text.fill, List.length_replicate]
  have hbreak : ∀ d ∈ ['\n'], isBreak d = true := List.forall_mem_singleton.mpr (by decide)
  have hread := Gap.read?_append hgap hr.1 (p + 1) .empty hgapRest
  rw [← Cursor.past_append] at hread
  have hbroken : (Gap.empty.addAll ('\n' :: Text.fill k ' ')).isBroken = true :=
    congrArg Gap.isBroken (Gap.addAll_lines hbreak k)
  rw [Plain.read?_append hword hends hrest (by omega) hmark hread (.inr (by omega)), hbroken]

theorem reaches_plain {t : Text} (ht : Scalar.canBePlain t = true) (hcolumn : p < c.column)
    (hk : k ≤ p) (hr : StartsToken r) (hrest : c.rest = endLine t ++ (Text.fill k ' ' ++ r)) :
    Reaches (outside c ts (p :: columns) none keyAllowed)
      (outside (c.past (endLine t ++ Text.fill k ' ')) (ts ++ [.scalar true t]) (p :: columns) none
        true) := by
  have hend : endLine t = t ++ ['\n'] :=
    endLine_of_last fun d hd => ((Wordlike.of_canBePlain ht).chars d (List.mem_of_getLast? hd)).2
  rw [hend, List.append_assoc] at hrest ⊢
  let after := c.past (t ++ '\n' :: Text.fill k ' ')
  have hstep : (outside c ts (p :: columns) none keyAllowed).step? =
      some (outside after (ts ++ [.scalar true t]) (p :: columns)
        (savedCandidate c ts (p :: columns) keyAllowed) true) := by
    have hmark := Cursor.atDocumentMark_of_column (Nat.ne_of_gt (Nat.zero_lt_of_lt hcolumn))
    rw [step?_plain (l := outside _ _ _ _ _) ht hrest hmark fun _ _ _ => rfl]
    exact plain?_outside (read?_plain_line ht hcolumn hk hr hrest)
  have hstart : StartsToken c.rest := by
    rw [hrest]
    exact startsToken_plain ht _
  have hsplit : c.rest = (t ++ '\n' :: Text.fill k ' ') ++ r := by
    rw [hrest]
    simp
  have hafter : after.rest = r := Cursor.rest_past_of_eq hsplit
  refine (reaches_step hstart (by simp) (head?_le hcolumn) hsplit (by simp) hstep).trans ?_
  -- The reader is past the gap, and the text can no longer be a key.
  have hpassed := passed_savedCandidate ts columns keyAllowed hcolumn t (Text.fill k ' ')
  have hrest' : after.rest = [] ++ (Text.fill 0 ' ' ++ r) := hafter
  exact reaches_gap (ts ++ [.scalar true t]) (p :: columns) true (List.forall_mem_nil _) hr hrest'
    hpassed

/-- A text between quotes does not go on after the second one. -/
theorem reaches_quoted {quote : Quote} {t s : Text} (hstart : StartsToken c.rest)
    (hlast : ∀ d ∈ s.getLast?, isBreak d = false) (hs : s ≠ []) (hcolumn : p < c.column)
    (hr : StartsToken r) (hrest : c.rest = endLine s ++ (Text.fill k ' ' ++ r))
    (hread : Quoted.read? quote c = some (t, c.past s))
    (hstep : (outside c ts (p :: columns) none keyAllowed).step? =
      (outside c ts (p :: columns) none keyAllowed).quoted? quote) :
    Reaches (outside c ts (p :: columns) none keyAllowed)
      (outside (c.past (endLine s ++ Text.fill k ' ')) (ts ++ [.scalar false t]) (p :: columns) none
        true) := by
  rw [endLine_of_last hlast, List.append_assoc] at hrest ⊢
  rw [quoted?_outside hread] at hstep
  exact (reaches_step hstart (by simp) (head?_le hcolumn) hrest hs hstep).trans
    (reaches_lineEnd ts columns keyAllowed _ hcolumn hr hrest)

/-- A text in its style is passed over with the end of its line. -/
theorem reaches_styled {t : Text} {s : ScalarStyle} (ht : Styled t s) (hcolumn : p < c.column)
    (hk : k ≤ p) (hr : StartsToken r)
    (hrest : c.rest = endLine (Scalar.print (p + 2) t s) ++ (Text.fill k ' ' ++ r)) :
    Reaches (outside c ts (p :: columns) none keyAllowed)
      (outside (c.past (endLine (Scalar.print (p + 2) t s) ++ Text.fill k ' '))
        (ts ++ [.scalar (s = .plain) t]) (p :: columns) none true) := by
  have hmark (q : Char) (body : Text) (hq : isBreak q = false) :
      ∀ d ∈ (q :: (body ++ [q])).getLast?, isBreak d = false := by
    rw [← List.cons_append, List.getLast?_concat]
    rintro d ⟨⟩
    exact hq
  have hstart {d : Char} {u : Text} (hrest : c.rest = d :: u) (hd : isSpace d = false)
      (hbreak : isBreak d = false) (hcomment : d ≠ '#') : StartsToken c.rest := by
    rw [hrest]
    exact startsToken_of_cons hd hbreak hcomment u
  cases ht with
  | plain h => exact reaches_plain ts columns keyAllowed h hcolumn hk hr hrest
  | doubleQuoted =>
    have hlast := hmark '"' (t.flatMap Scalar.doubleQuotedChar) rfl
    have hprint : Scalar.print (p + 2) t .doubleQuoted =
      '"' :: (t.flatMap Scalar.doubleQuotedChar ++ ['"']) := rfl
    have hrest' := hrest
    rw [hprint, endLine_of_last hlast, List.append_assoc, ← hprint] at hrest'
    exact reaches_quoted ts columns keyAllowed (hstart hrest' rfl rfl (by decide)) hlast
      (List.cons_ne_nil _ _) hcolumn hr hrest (Quoted.read?_double _ hrest')
      (step?_doubleQuote hrest')
  | singleQuoted h =>
    have hlast := hmark '\'' (Scalar.lines (p + 2) true Quoted.singleQuotedChar false t) rfl
    have hprint : Scalar.print (p + 2) t .singleQuoted =
      '\'' :: (Scalar.lines (p + 2) true Quoted.singleQuotedChar false t ++ ['\'']) := rfl
    have hrest' := hrest
    rw [hprint, endLine_of_last hlast, List.append_assoc, ← hprint] at hrest'
    exact reaches_quoted ts columns keyAllowed (hstart hrest' rfl rfl (by decide)) hlast
      (List.cons_ne_nil _ _) hcolumn hr hrest
      (Quoted.read?_single h (by simp) (Nat.succ_ne_zero _) hrest') (step?_singleQuote hrest')
  | literal hne hprintable =>
    have hprint := Block.endLine_literal hne (p + 2)
    have hrest' := hrest
    rw [hprint, List.cons_append] at hrest'
    have hread := Block.read?_literal hne hprintable hk hr.1 hrest
    have hstep := block?_outside ts (p :: columns) keyAllowed hread
    rw [← step?_bar hrest' rfl] at hstep
    have hsplit : c.rest = (endLine (Scalar.print (p + 2) t .literal) ++ Text.fill k ' ') ++ r := by
      rw [hrest, List.append_assoc]
    exact reaches_step (hstart hrest' rfl rfl (by decide)) (by simp) (head?_le hcolumn) hsplit
      (by rw [hprint]; simp) hstep

/-- An empty collection is passed over with the end of its line. -/
theorem reaches_empty {s e : Char} {t t' : Token} (h : Brackets s e t t') (hcolumn : p < c.column)
    (hr : StartsToken r) (hrest : c.rest = endLine [s, e] ++ (Text.fill k ' ' ++ r)) :
    Reaches (outside c ts (p :: columns) none keyAllowed)
      (outside (c.past (endLine [s, e] ++ Text.fill k ' ')) (ts ++ [t, t']) (p :: columns) none
        true) := by
  have hend : endLine [s, e] = [s, e] ++ ['\n'] := by cases h <;> rfl
  rw [hend, List.append_assoc] at hrest ⊢
  exact (reaches_brackets h hrest (head?_le hcolumn) keyAllowed).trans
    (reaches_lineEnd ts columns keyAllowed _ hcolumn hr hrest)

/-- A value that is not spread over lines is passed over with the end of its line. -/
theorem reaches_leaf {v : Json} (hv : v.Integral) (hleaf : IsLeaf v) (hcolumn : p < c.column)
    (hk : k ≤ p) (hr : StartsToken r)
    (hrest : c.rest = endLine (printLeaf (p + 2) v) ++ (Text.fill k ' ' ++ r)) :
    Reaches (outside c ts (p :: columns) none keyAllowed)
      (outside (c.past (endLine (printLeaf (p + 2) v) ++ Text.fill k ' ')) (ts ++ leafTokens v)
        (p :: columns) none true) := by
  have hplain {t : Text} (ht : Scalar.canBePlain t = true)
      (hrest : c.rest = endLine t ++ (Text.fill k ' ' ++ r)) :=
    reaches_plain ts columns keyAllowed ht hcolumn hk hr hrest
  cases v, hleaf using leaf_cases with
  | null => exact hplain (t := "null".toList) (by decide) hrest
  | bool b =>
    cases b with
    | false => exact hplain (t := "false".toList) (by decide) hrest
    | true => exact hplain (t := "true".toList) (by decide) hrest
  | number n => cases hv with | integer n exact => exact hplain (canBePlain_ofInt n) hrest
  | string t => exact reaches_styled ts columns keyAllowed (styled_style t) hcolumn hk hr hrest
  | array => exact reaches_empty ts columns keyAllowed .square hcolumn hr hrest
  | object => exact reaches_empty ts columns keyAllowed .curly hcolumn hr hrest

end

/-! ## Names -/

section
variable {c : Cursor} {columns columns' : List Nat} {start : List Token} {name r : Text}

/-- The place of a plain name is kept when it is read. -/
theorem step?_plainName (ts : List Token) (h : Scalar.canBePlain name = true)
    (hcolumns : ∀ p ∈ columns.head?, p ≤ c.column) (hr : endsWord r = true)
    (hrest : c.rest = name ++ ':' :: r) :
    (outside c ts columns none true).step? =
      some (outside (c.past name) (ts ++ [.scalar true name]) columns
        (some (candidateAt c ts columns)) false) := by
  have hword := Wordlike.of_canBePlain h
  have hends : EndsPlain (':' :: r) := .inr (.inr ⟨rfl, hr⟩)
  have hcolon : EndsGap (':' :: r) := by
    rintro d ⟨⟩
    exact ⟨rfl, rfl⟩
  have hleast : (outside c ts columns none true).least ≤ c.column + 1 := by
    cases columns with
    | nil => exact Nat.zero_le _
    | cons p columns => exact Nat.succ_le_succ (hcolumns p rfl)
  have hmark := Cursor.atDocumentMark_plain h hrest (by simp) (by simp)
  have hgap : Gap.read? (outside c ts columns none true).least .empty (c.past name) =
      some (.empty, c.past name) :=
    Gap.read?_append (List.forall_mem_nil _) hcolon _ .empty (Cursor.rest_past_of_eq hrest)
  have hread := Plain.read?_append hword hends hrest hleast hmark hgap (.inl rfl)
  rw [step?_plain (l := outside _ _ _ _ _) h hrest hmark fun _ _ _ => rfl, plain?_outside hread]
  rfl

/-- The place of a name between quotes is kept when it is read. -/
theorem step?_quotedName (ts : List Token) {quote : Quote} {s : Text}
    (hread : Quoted.read? quote c = some (name, c.past s))
    (hstep : (outside c ts columns none true).step? =
      (outside c ts columns none true).quoted? quote) :
    (outside c ts columns none true).step? =
      some (outside (c.past s) (ts ++ [.scalar false name]) columns
        (some (candidateAt c ts columns)) false) := by
  rw [hstep, quoted?_outside hread]
  rfl

/-- A name on one line is read up to its colon, and its place is kept. -/
theorem step?_simpleName (ts : List Token) {column : Nat} (hpos : column ≠ 0)
    (hname : isSimpleName name = true)
    (hcolumns : ∀ p ∈ columns.head?, p ≤ c.column) (hr : endsWord r = true)
    (hrest : c.rest = printText column name ++ ':' :: r) :
    StartsToken c.rest ∧ (outside c ts columns none true).step? =
      some (outside (c.past (printText column name)) (ts ++ [textToken name]) columns
        (some (candidateAt c ts columns)) false) := by
  have hline : name.any isBreak = false := by
    simpa using (Bool.and_eq_true_iff.mp hname).1
  have hstyled := styled_style name
  rw [printText] at hrest ⊢
  rw [textToken]
  cases hstyle : Scalar.style name with
  | literal => exact absurd hstyle (style_ne_literal hline)
  | doubleQuoted =>
    rw [hstyle] at hrest
    refine ⟨?_, step?_quotedName ts (Quoted.read?_double _ hrest) (step?_doubleQuote hrest)⟩
    rw [hrest]
    exact startsToken_of_cons rfl rfl (by decide) _
  | singleQuoted =>
    rw [hstyle] at hrest hstyled
    cases hstyled with | singleQuoted h =>
    refine ⟨?_, step?_quotedName ts (Quoted.read?_single h (by simp) hpos hrest)
      (step?_singleQuote hrest)⟩
    rw [hrest]
    exact startsToken_of_cons rfl rfl (by decide) _
  | plain =>
    rw [hstyle] at hrest hstyled
    cases hstyled with | plain h =>
    have hrest : c.rest = name ++ ':' :: r := hrest
    refine ⟨?_, step?_plainName ts h hcolumns hr hrest⟩
    rw [hrest]
    exact startsToken_plain h _

/-- A name before its colon is announced afterwards. -/
theorem reaches_simpleName (ts : List Token) {column : Nat} (hpos : column ≠ 0)
    (hname : isSimpleName name = true)
    (hopens : Opens c.column .blockMappingStart columns columns' start) (hr : endsWord r = true)
    (hrest : c.rest = printText column name ++ ':' :: r) :
    Reaches (outside c ts columns none true)
      (outside (c.past (printText column name ++ [':']))
        (ts ++ start ++ [.key, textToken name, .value]) columns' none false) := by
  obtain ⟨hstart, hstep⟩ := step?_simpleName ts hpos hname hopens.le hr hrest
  have hline := any_isBreak_printText hname column
  have hlength := length_printText_le hname column
  let after := c.past (printText column name)
  have hrest' : after.rest = ':' :: r := Cursor.rest_past_of_eq hrest
  have hcolumn : c.column ≤ after.column := by
    rw [Cursor.column_past hline]
    omega
  have hfresh : (candidateAt c ts columns).isStale after = false := by
    simp [candidateAt, Candidate.isStale, after, Cursor.line_past hline, hlength]
  have hcolon : (outside after (ts ++ [textToken name]) columns (some (candidateAt c ts columns))
      false).step? = _ := step?_name (textToken name) false hopens rfl hrest' hr
  refine (reaches_step hstart (by simp) hopens.le hrest
    (printText_ne_nil column name) hstep).trans ?_
  rw [Cursor.past_append]
  refine reaches_step ?_ ?_ ?_ hrest' (by simp) hcolon
  · rw [hrest']
    exact startsToken_of_cons rfl rfl (by decide) r
  · rintro k ⟨⟩
    exact hfresh
  · exact fun p hp => Nat.le_trans (hopens.le p hp) hcolumn

/-- A name is announced by a question mark, and a colon follows it on a line of its own. -/
theorem reaches_announce (ts : List Token)
    (hopens : Opens c.column .blockMappingStart columns columns' start) (hr : StartsToken r)
    (hrest : c.rest = announce c.column name ++ r) :
    Reaches (outside c ts columns none true)
      (outside (c.past (announce c.column name)) (ts ++ start ++ [.key, textToken name, .value])
        columns' none true) := by
  obtain ⟨tail, rfl⟩ := hopens.eq_cons
  let printed := endLine (printText (c.column + 2) name)
  have hannounce : announce c.column name =
      ['?'] ++ ([' '] ++ ((printed ++ Text.fill c.column ' ') ++ ([':'] ++ [' ']))) := by
    simp [announce, printed, Scalar.indent]
  have hcolon (s : Text) : StartsToken (':' :: s) := startsToken_of_cons rfl rfl (by decide) s
  rw [hannounce] at hrest ⊢
  -- The question mark and the blank after it.
  have hstart : StartsToken c.rest := by
    rw [hrest]
    exact startsToken_of_cons rfl rfl (by decide) _
  have hquestion := reaches_step hstart (by simp) hopens.le
    (by rw [hrest, List.append_assoc]) (by simp) (step?_announce ts hopens hrest)
  let c₁ := c.past ['?']
  have hrest₁ : c₁.rest = ' ' :: (printed ++ (Text.fill c.column ' ' ++ ':' :: ' ' :: r)) :=
    Cursor.rest_past_of_eq (by rw [hrest]; simp)
  have hname : StartsToken (printed ++ (Text.fill c.column ' ' ++ ':' :: ' ' :: r)) := by
    obtain ⟨end', hend⟩ := exists_endLine (printText (c.column + 2) name)
    have hprinted : printed = printText (c.column + 2) name ++ end' := hend
    rw [hprinted, List.append_assoc]
    exact startsToken_printText ..
  have hblank := reaches_blank (ts ++ start ++ [.key]) (c.column :: tail) true hname hrest₁
  -- The name, with the end of its line.
  let c₂ := c₁.past [' ']
  have hrest₂ : c₂.rest = printed ++ (Text.fill c.column ' ' ++ ':' :: ' ' :: r) :=
    Cursor.rest_past_of_eq hrest₁
  have hcolumn₂ : c₂.column = c.column + 2 := rfl
  have htext := reaches_styled (ts ++ start ++ [.key]) tail true (styled_style name)
    (show c.column < c₂.column by omega) (Nat.le_refl c.column) (hcolon (' ' :: r)) hrest₂
  -- The colon and the blank after it.
  let c₃ := c₂.past (printed ++ Text.fill c.column ' ')
  have hcolumn₃ : c₃.column = c.column := (endsLine_endLine _).column_past _ _
  have hrest₃ : c₃.rest = [':'] ++ ' ' :: r :=
    Cursor.rest_past_of_eq (by rw [hrest₂]; simp)
  have hvalue := step?_announced (ts ++ start ++ [.key] ++ [textToken name]) tail hrest₃ rfl
  rw [hcolumn₃] at hvalue
  have hcolonStep := reaches_step (by rw [hrest₃]; exact hcolon _) (by simp)
    (by rintro p ⟨⟩; exact Nat.le_of_eq hcolumn₃.symm) hrest₃ (by simp) hvalue
  have hend := reaches_blank (ts ++ start ++ [.key] ++ [textToken name] ++ [.value])
    (c.column :: tail) true hr (Cursor.rest_past_of_eq hrest₃)
  have hall := hquestion.trans (hblank.trans (htext.trans (hcolonStep.trans hend)))
  have htokens : ts ++ start ++ [.key] ++ [textToken name] ++ [.value] =
      ts ++ start ++ [.key, textToken name, .value] := by simp
  rw [htokens] at hall
  rw [Cursor.past_append, Cursor.past_append [' '], Cursor.past_append (printed ++ _),
    Cursor.past_append [':']]
  exact hall

end

end Lexer
end Stencil.Yaml
