import Stencil.Proofs.Yaml.LineTokens

/-!
# Tokens of a printed value

The tokens that the block form of a value is made of. The reader of tokens finds exactly these,
whatever column the value starts at and whatever follows it.
-/

namespace Stencil.Yaml

mutual
/-- The tokens of a value. A sequence right below its name has none for its start and its end. -/
def blockTokens (bare : Bool) : Json → List Token
  | .object (m :: members) => .blockMappingStart :: (memberTokens (m :: members) ++ [.blockEnd])
  | .array (item :: items) =>
    if bare then itemTokens (item :: items)
    else .blockSequenceStart :: (itemTokens (item :: items) ++ [.blockEnd])
  | v => leafTokens v

def memberTokens : List (Text × Json) → List Token
  | [] => []
  | (name, v) :: members =>
    .key :: textToken name :: .value :: (blockTokens (isSimpleName name) v ++ memberTokens members)

def itemTokens : List Json → List Token
  | [] => []
  | v :: items => .blockEntry :: (blockTokens false v ++ itemTokens items)
end

theorem blockTokens_leaf {v : Json} (h : IsLeaf v) (bare : Bool) :
    blockTokens bare v = leafTokens v := by
  cases v, h using leaf_cases <;> rfl

namespace Lexer

/-! ## Values -/

/-- What the reader makes of a value, in the place of an item or after an announced name, and right
after a name. -/
structure HasTokens (v : Json) : Prop where
  block {p k : Nat} {r : Text} {c : Cursor} (ts : List Token) (columns : List Nat)
    (column : c.column = p + 2) (le : k ≤ p) (starts : StartsToken r)
    (rest : c.rest = printBlock (p + 2) v ++ (Text.fill k ' ' ++ r)) :
    Reaches (outside c ts (p :: columns) none true)
      (outside (c.past (printBlock (p + 2) v ++ Text.fill k ' ')) (ts ++ blockTokens false v)
        (p :: columns) none true)
  held {q k : Nat} {r : Text} {c : Cursor} (ts : List Token) (columns : List Nat)
    (column : q < c.column) (le : k ≤ q) (starts : StartsToken r)
    (rest : c.rest = afterName q v ++ (Text.fill k ' ' ++ r)) :
    Reaches (outside c ts (q :: columns) none false)
      (outside (c.past (afterName q v ++ Text.fill k ' ')) (ts ++ blockTokens true v)
        (q :: columns) none true)

theorem hasTokens_leaf {v : Json} (hv : v.Integral) (hleaf : IsLeaf v) : HasTokens v := by
  refine ⟨fun {p k r c} ts columns hcolumn hk hr hrest => ?_,
    fun {q k r c} ts columns hcolumn hk hr hrest => ?_⟩
  · rw [printBlock_leaf hleaf] at hrest ⊢
    rw [blockTokens_leaf hleaf]
    exact reaches_leaf ts columns true hv hleaf (by omega) hk hr hrest
  · rw [afterName_leaf hleaf] at hrest ⊢
    rw [blockTokens_leaf hleaf]
    have hstart : StartsToken (endLine (printLeaf (q + 2) v) ++ (Text.fill k ' ' ++ r)) := by
      have hstart := startsToken_printBlock hv (q + 2) (Text.fill k ' ' ++ r)
      rwa [printBlock_leaf hleaf] at hstart
    have hcolumn' : q < (c.past [' ']).column := by
      rw [Cursor.column_past rfl]
      omega
    exact (reaches_blank ts (q :: columns) false hstart hrest).trans
      (reaches_leaf ts columns false hv hleaf hcolumn' hk hr (Cursor.rest_past_of_eq hrest))

section
variable {k : Nat} {r : Text} {c : Cursor} {columns columns' : List Nat} {start : List Token}

/-- An item is read with its dash. -/
theorem reaches_item {v : Json} (hv : v.Integral) (htokens : HasTokens v) (ts : List Token)
    (hopens : Opens c.column .blockSequenceStart columns columns' start) (hk : k ≤ c.column)
    (hr : StartsToken r)
    (hrest : c.rest = '-' :: ' ' :: (printBlock (c.column + 2) v ++ (Text.fill k ' ' ++ r))) :
    Reaches (outside c ts columns none true)
      (outside (c.past ('-' :: ' ' :: (printBlock (c.column + 2) v ++ Text.fill k ' ')))
        (ts ++ start ++ (.blockEntry :: blockTokens false v)) columns' none true) := by
  obtain ⟨tail, rfl⟩ := hopens.eq_cons
  have hstart : StartsToken c.rest := by
    rw [hrest]
    exact startsToken_of_cons rfl rfl (by decide) _
  have hdash := reaches_step hstart (by simp) hopens.le hrest (by simp) (step?_item ts hopens hrest)
  have hrest' : (c.past ['-']).rest =
      ' ' :: (printBlock (c.column + 2) v ++ (Text.fill k ' ' ++ r)) := Cursor.rest_past_of_eq hrest
  have hblank := reaches_blank (ts ++ start ++ [.blockEntry]) (c.column :: tail) true
    (startsToken_printBlock hv _ _) hrest'
  have hblock := htokens.block (c := (c.past ['-']).past [' ']) (ts ++ start ++ [.blockEntry]) tail
    rfl hk hr (Cursor.rest_past_of_eq hrest')
  have hall := hdash.trans (hblank.trans hblock)
  rw [List.append_assoc _ [Token.blockEntry]] at hall
  exact hall

/-- A member is read, whichever way its name is written. -/
theorem reaches_member (name : Text) {v : Json} (hv : v.Integral) (htokens : HasTokens v)
    (ts : List Token) (hopens : Opens c.column .blockMappingStart columns columns' start)
    (hk : k ≤ c.column) (hr : StartsToken r)
    (hrest : c.rest = printMember c.column name v ++ (Text.fill k ' ' ++ r)) :
    Reaches (outside c ts columns none true)
      (outside (c.past (printMember c.column name v ++ Text.fill k ' '))
        (ts ++ start ++ (.key :: textToken name :: .value :: blockTokens (isSimpleName name) v))
        columns' none true) := by
  obtain ⟨tail, rfl⟩ := hopens.eq_cons
  have hjoin (l : List Token) : ts ++ start ++ [.key, textToken name, .value] ++ l =
      ts ++ start ++ (.key :: textToken name :: .value :: l) := by simp
  cases hname : isSimpleName name with
  | true =>
    rw [printMember_simple hname] at hrest ⊢
    let printed := printText (c.column + 2) name ++ [':']
    have hsplit (s : Text) : printText (c.column + 2) name ++ ':' :: (afterName c.column v) ++ s =
        printed ++ (afterName c.column v ++ s) := by simp [printed]
    have hkey := reaches_simpleName ts (Nat.succ_ne_zero (c.column + 1)) hname
      hopens (endsWord_afterName c.column v (Text.fill k ' ' ++ r)) (by rw [hrest]; simp)
    have hline : printed.any isBreak = false := by
      rw [List.any_append, any_isBreak_printText hname]
      rfl
    have hcolumn : c.column < (c.past printed).column := by
      rw [Cursor.column_past hline, List.length_append]
      simp
    rw [hsplit] at hrest ⊢
    have hvalue := htokens.held (c := c.past printed)
      (ts ++ start ++ [.key, textToken name, .value])
      tail hcolumn hk hr (Cursor.rest_past_of_eq hrest)
    rw [hjoin] at hvalue
    rw [Cursor.past_append]
    exact hkey.trans hvalue
  | false =>
    rw [printMember_announced hname, List.append_assoc] at hrest
    rw [printMember_announced hname, List.append_assoc, Cursor.past_append]
    have hkey := reaches_announce ts hopens (startsToken_printBlock hv _ _) hrest
    have hvalue := htokens.block (c := c.past (announce c.column name))
      (ts ++ start ++ [.key, textToken name, .value]) tail (column_announce ..) hk hr
      (Cursor.rest_past_of_eq hrest)
    rw [hjoin] at hvalue
    exact hkey.trans hvalue

/-- Items are read one after the other. -/
theorem reaches_items {items : List Json} (hne : items ≠ [])
    (hitems : ∀ v ∈ items, v.Integral ∧ HasTokens v) (ts : List Token)
    (hopens : Opens c.column .blockSequenceStart columns columns' start) (hk : k ≤ c.column)
    (hr : StartsToken r) (hrest : c.rest = printItems c.column items ++ (Text.fill k ' ' ++ r)) :
    Reaches (outside c ts columns none true)
      (outside (c.past (printItems c.column items ++ Text.fill k ' '))
        (ts ++ start ++ itemTokens items) columns' none true) := by
  induction items generalizing c columns columns' start ts with
  | nil => exact absurd rfl hne
  | cons v items ih =>
    obtain ⟨⟨hv, htokens⟩, hfurther⟩ := List.forall_mem_cons.mp hitems
    cases items with
    | nil =>
      have hitem := reaches_item hv htokens ts hopens hk hr hrest
      rw [itemTokens, itemTokens, List.append_nil]
      exact hitem
    | cons item items =>
      let first := '-' :: ' ' :: (printBlock (c.column + 2) v ++ Text.fill c.column ' ')
      have hsplit (s : Text) : printItems c.column (v :: item :: items) ++ s =
          first ++ (printItems c.column (item :: items) ++ s) := by
        rw [printItems_cons]
        simp [first, Scalar.indent]
      rw [hsplit] at hrest ⊢
      have hitem := reaches_item hv htokens ts hopens (Nat.le_refl c.column)
        (startsToken_printItems c.column (List.cons_ne_nil item items) (Text.fill k ' ' ++ r))
        (by rw [hrest]; simp [first])
      have hcolumn : (c.past first).column = c.column :=
        (((endsLine_printBlock v (c.column + 2)).1.cons ' ').cons '-').column_past c.column c
      have hopened : Opens (c.past first).column .blockSequenceStart columns' columns' [] := by
        rw [hcolumn]
        exact hopens.again
      have hfurther' := ih (List.cons_ne_nil item items) hfurther
        (ts ++ start ++ (.blockEntry :: blockTokens false v)) hopened (by omega)
        (by rw [hcolumn]; exact Cursor.rest_past_of_eq hrest)
      rw [hcolumn, List.append_nil] at hfurther'
      rw [Cursor.past_append]
      have hjoin :
          ts ++ start ++ (.blockEntry :: blockTokens false v) ++ itemTokens (item :: items) =
          ts ++ start ++ itemTokens (v :: item :: items) := by
        rw [List.append_assoc _ (Token.blockEntry :: _)]
        rfl
      rw [hjoin] at hfurther'
      exact hitem.trans hfurther'

/-- Members are read one after the other. -/
theorem reaches_members {members : Members} (hne : members ≠ [])
    (hmembers : ∀ m ∈ members, m.2.Integral ∧ HasTokens m.2) (ts : List Token)
    (hopens : Opens c.column .blockMappingStart columns columns' start) (hk : k ≤ c.column)
    (hr : StartsToken r)
    (hrest : c.rest = printMembers c.column members ++ (Text.fill k ' ' ++ r)) :
    Reaches (outside c ts columns none true)
      (outside (c.past (printMembers c.column members ++ Text.fill k ' '))
        (ts ++ start ++ memberTokens members) columns' none true) := by
  induction members generalizing c columns columns' start ts with
  | nil => exact absurd rfl hne
  | cons m members ih =>
    obtain ⟨name, v⟩ := m
    obtain ⟨⟨hv, htokens⟩, hfurther⟩ := List.forall_mem_cons.mp hmembers
    cases members with
    | nil =>
      have hmember := reaches_member name hv htokens ts hopens hk hr hrest
      rw [memberTokens, memberTokens, List.append_nil]
      exact hmember
    | cons m members =>
      let first := printMember c.column name v ++ Text.fill c.column ' '
      have hsplit (s : Text) : printMembers c.column ((name, v) :: m :: members) ++ s =
          first ++ (printMembers c.column (m :: members) ++ s) := by
        rw [printMembers_cons]
        simp [first, Scalar.indent]
      rw [hsplit] at hrest ⊢
      have hmember := reaches_member name hv htokens ts hopens (Nat.le_refl c.column)
        (startsToken_printMembers c.column (List.cons_ne_nil m members) (Text.fill k ' ' ++ r))
        (by rw [hrest]; simp [first])
      have hcolumn : (c.past first).column = c.column :=
        (endsLine_printMember (endsLine_printBlock v) c.column name).column_past c.column c
      have hopened : Opens (c.past first).column .blockMappingStart columns' columns' [] := by
        rw [hcolumn]
        exact hopens.again
      have hfurther' := ih (List.cons_ne_nil m members) hfurther
        (ts ++ start ++ (.key :: textToken name :: .value :: blockTokens (isSimpleName name) v))
        hopened (by omega)
        (by rw [hcolumn]; exact Cursor.rest_past_of_eq hrest)
      rw [hcolumn, List.append_nil] at hfurther'
      rw [Cursor.past_append]
      have hjoin : ts ++ start ++ (.key :: textToken name :: .value ::
          blockTokens (isSimpleName name) v) ++ memberTokens (m :: members) =
            ts ++ start ++ memberTokens ((name, v) :: m :: members) := by
        rw [List.append_assoc _ (Token.key :: _)]
        rfl
      rw [hjoin] at hfurther'
      exact hmember.trans hfurther'

theorem column_newline (n : Nat) (c : Cursor) : (c.past (newline n)).column = n := by
  have h := Cursor.column_past_line (s := []) (b := '\n') rfl (any_isBreak_fill n) c
  rwa [Text.fill, List.length_replicate] at h

/-- A line break after a name, and what stands on the next line. -/
theorem reaches_nextLine (ts : List Token) (columns : List Nat) {n : Nat} {s : Text}
    (hs : StartsToken s) (hrest : c.rest = newline n ++ s) :
    Reaches (outside c ts columns none false) (outside (c.past (newline n)) ts columns none true) :=
  reaches_newline ts columns false hs hrest (by simp)

/-- A collection ends with the line before a lower column. -/
theorem Reaches.close {l : Lexer} {ts : List Token} {t : Text} {q : Nat} (ht : EndsLine t)
    (hk : k < q) (hr : StartsToken r) (hrest : c.rest = t ++ (Text.fill k ' ' ++ r))
    (h : Reaches l (outside (c.past (t ++ Text.fill k ' ')) ts (q :: columns) none true)) :
    Reaches l (outside (c.past (t ++ Text.fill k ' ')) (ts ++ [.blockEnd]) columns none true) := by
  have hrest' : (c.past (t ++ Text.fill k ' ')).rest = r :=
    Cursor.rest_past_of_eq (by rw [hrest, List.append_assoc])
  refine h.trans (reaches_close ts columns (by rwa [hrest']) ?_)
  rw [ht.column_past]
  exact hk

theorem hasTokens_array {items : List Json} (hne : items ≠ [])
    (hitems : ∀ v ∈ items, v.Integral ∧ HasTokens v) : HasTokens (.array items) := by
  obtain ⟨item, items, rfl⟩ := List.exists_cons_of_ne_nil hne
  refine ⟨fun {p k r c} ts columns hcolumn hk hr hrest => ?_,
    fun {q k r c} ts columns hcolumn hk hr hrest => ?_⟩
  · have hopens := Opens.below (show p < c.column by omega) .blockSequenceStart columns
    have hends := (endsLine_printBlock (.array (item :: items)) (p + 2)).1
    have hread := reaches_items hne hitems ts hopens (show k ≤ c.column by omega) hr
      (by rw [hcolumn]; exact hrest)
    rw [hcolumn] at hread
    have hclosed := hread.close hends (show k < p + 2 by omega) hr hrest
    rw [List.append_assoc, List.append_assoc] at hclosed
    exact hclosed
  · have hafter : afterName q (.array (item :: items)) =
        newline q ++ printItems q (item :: items) := rfl
    rw [hafter, List.append_assoc] at hrest
    rw [hafter, List.append_assoc, Cursor.past_append]
    have hline := reaches_nextLine ts (q :: columns) (startsToken_printItems q hne _) hrest
    have hcolumn' : (c.past (newline q)).column = q := column_newline q c
    have hopens : Opens (c.past (newline q)).column .blockSequenceStart (q :: columns)
        (q :: columns) [] := by
      rw [hcolumn']
      exact .already columns
    have hread := reaches_items hne hitems ts hopens (show k ≤ _ by rw [hcolumn']; exact hk) hr
      (by rw [hcolumn']; exact Cursor.rest_past_of_eq hrest)
    rw [hcolumn', List.append_nil] at hread
    exact hline.trans hread

theorem hasTokens_object {members : Members} (hne : members ≠ [])
    (hmembers : ∀ m ∈ members, m.2.Integral ∧ HasTokens m.2) : HasTokens (.object members) := by
  obtain ⟨m, members, rfl⟩ := List.exists_cons_of_ne_nil hne
  have hblock {p k : Nat} {r : Text} {c : Cursor} (ts : List Token) (columns : List Nat)
      (hcolumn : c.column = p + 2) (hk : k ≤ p) (hr : StartsToken r)
      (hrest : c.rest = printBlock (p + 2) (.object (m :: members)) ++ (Text.fill k ' ' ++ r)) :
      Reaches (outside c ts (p :: columns) none true)
        (outside (c.past (printBlock (p + 2) (.object (m :: members)) ++ Text.fill k ' '))
          (ts ++ blockTokens false (.object (m :: members))) (p :: columns) none true) := by
    have hopens := Opens.below (show p < c.column by omega) .blockMappingStart columns
    have hends := (endsLine_printBlock (.object (m :: members)) (p + 2)).1
    have hread := reaches_members hne hmembers ts hopens (show k ≤ c.column by omega) hr
      (by rw [hcolumn]; exact hrest)
    rw [hcolumn] at hread
    have hclosed := hread.close hends (show k < p + 2 by omega) hr hrest
    rw [List.append_assoc, List.append_assoc] at hclosed
    exact hclosed
  refine ⟨hblock, fun {q k r c} ts columns hcolumn hk hr hrest => ?_⟩
  have hafter : afterName q (.object (m :: members)) =
      newline (q + 2) ++ printBlock (q + 2) (.object (m :: members)) := rfl
  rw [hafter, List.append_assoc] at hrest
  rw [hafter, List.append_assoc, Cursor.past_append]
  have hline := reaches_nextLine ts (q :: columns)
    (startsToken_printMembers (q + 2) hne _) hrest
  exact hline.trans
    (hblock ts columns (column_newline (q + 2) c) hk hr (Cursor.rest_past_of_eq hrest))

/-- The reader finds the tokens of a value whose numbers are integers. -/
theorem hasTokens {v : Json} (hv : v.Integral) : HasTokens v := by
  induction v using layout_induction with
  | leaf v h => exact hasTokens_leaf hv h
  | array item items ih =>
    cases hv with | array hv =>
    exact hasTokens_array (List.cons_ne_nil _ _) fun v hmem => ⟨hv v hmem, ih v hmem (hv v hmem)⟩
  | object m members ih =>
    cases hv with | object hv =>
    exact hasTokens_object (List.cons_ne_nil _ _) fun m hmem => ⟨hv m hmem, ih m hmem (hv m hmem)⟩

end

/-- A reader that comes to the end of its text has all its tokens. -/
theorem Reaches.tokens?_eq {l : Lexer} {c : Cursor} {ts : List Token} {columns : List Nat}
    {keyAllowed : Bool} (h : Reaches l (outside c ts columns none keyAllowed)) (hrest : c.rest = [])
    {fuel : Nat} (hfuel : l.cursor.rest.length < fuel) :
    l.tokens? fuel = some (ts ++ List.replicate columns.length .blockEnd) := by
  obtain ⟨n, hn, htokens⟩ := h
  have hsplit : fuel = fuel - n - 1 + 1 + n := by omega
  rw [hsplit, htokens, tokens?_end hrest]

end Lexer

theorem isAllowed_of_printable {d : Char} (h : Scalar.isPrintable d = true) :
    isAllowed d = true ∧ d ≠ byteOrderMark := by
  refine ⟨?_, ?_⟩
  · simp only [Scalar.isPrintable, Bool.or_eq_true, Bool.and_eq_true, decide_eq_true_eq] at h
    simp only [isAllowed, Bool.or_eq_true, Bool.and_eq_true, decide_eq_true_eq]
    omega
  · rintro rfl
    exact absurd h (by decide)

/-- The tokens of a text without a byte order mark are found from its start. -/
theorem Token.ofText?_printable {t : Text} (h : Printable t) :
    Token.ofText? t = (Lexer.start t).tokens? (t.length + 1) := by
  have hall : t.all isAllowed = true :=
    List.all_eq_true.mpr fun d hd => (isAllowed_of_printable (h d hd)).1
  have hmark : t.head? ≠ some byteOrderMark := fun hhead =>
    (isAllowed_of_printable (h _ (List.mem_of_mem_head? hhead))).2 rfl
  have hstart : (Lexer.start t).cursor.rest.head? ≠ some byteOrderMark := hmark
  rw [Token.ofText?, hall]
  simp only [Bool.not_true, Bool.false_eq_true, if_false, if_neg hmark, if_neg hstart]

/-- The tokens of a printed mapping. -/
theorem Token.ofText?_print {members : Members} (hv : (Json.object members).Integral) :
    Token.ofText? (print (.object members)) = some (blockTokens false (.object members)) := by
  cases members with
  | nil => decide +kernel
  | cons m members =>
    have hprint : print (.object (m :: members)) = printMembers 0 (m :: members) := rfl
    have hmembers : ∀ m' ∈ m :: members, m'.2.Integral ∧ Lexer.HasTokens m'.2 := by
      cases hv with
      | object hv => exact fun m' hm' => ⟨hv m' hm', Lexer.hasTokens (hv m' hm')⟩
    let c := Cursor.start (printMembers 0 (m :: members))
    have hrest : c.rest = printMembers c.column (m :: members) ++ (Text.fill 0 ' ' ++ []) :=
      (List.append_nil _).symm
    have hopens : Lexer.Opens c.column .blockMappingStart [] [c.column] [.blockMappingStart] :=
      .anew (by simp)
    have hread := Lexer.reaches_members (List.cons_ne_nil m members) hmembers [] hopens
      (Nat.le_refl 0) (by simp [StartsToken, EndsGap]) hrest
    have hprintable : Printable (printMembers 0 (m :: members)) := (printable_printBlock hv 0).1
    rw [hprint, Token.ofText?_printable hprintable]
    have htokens := hread.tokens?_eq (by rw [Cursor.rest_past, hrest]; simp)
      (Nat.lt_succ_self (printMembers 0 (m :: members)).length)
    exact htokens

end Stencil.Yaml
