import Stencil.Proofs.Yaml.StyledText
import Stencil.Yaml.Lexer

/-!
# Steps of the reader of tokens

Outside of brackets the reader goes from token to token. Between two of them it passes over blanks
and breaks, forgets the place of a text that can no longer be a key, and closes the collections
that stand deeper than its position. A relation between readers joins such steps.
-/

namespace Stencil.Yaml

theorem Cursor.atMark_eq_false {c : Cursor} {d e : Char} {r : Text} (hrest : c.rest = e :: r)
    (h : e ≠ d) : c.atMark d = false := by
  rw [Cursor.atMark, hrest]
  split
  · next heq =>
    obtain ⟨rfl, -⟩ := List.cons.inj heq
    simp [h]
  · simp

/-- A plain text is no mark between documents, unless it continues as one. -/
theorem Cursor.atMark_plain {c : Cursor} {d : Char} {t r : Text} (hrest : c.rest = t ++ r)
    (ht : t ≠ []) (hr : r.head? ≠ some d) (hmark : Text.startsWith [d, d, d] t = false) :
    c.atMark d = false := by
  rw [← Bool.not_eq_true, Cursor.atMark, hrest]
  intro h
  obtain ⟨e, t, rfl⟩ := List.exists_cons_of_ne_nil ht
  cases t with
  | nil =>
    cases r with
    | nil => simp at h
    | cons e' r =>
      have : e' ≠ d := by simpa using hr
      cases r <;> simp [this] at h
  | cons e' t =>
    cases t with
    | nil =>
      cases r with
      | nil => simp at h
      | cons e'' r =>
        have : e'' ≠ d := by simpa using hr
        simp [this] at h
    | cons e'' t =>
      simp at h
      obtain ⟨-, ⟨⟨rfl, rfl⟩, rfl⟩, -⟩ := h
      simp [Text.startsWith, Text.afterPrefix?] at hmark

theorem Cursor.atDocumentMark_plain {c : Cursor} {t r : Text} (ht : Scalar.canBePlain t = true)
    (hrest : c.rest = t ++ r) (hdash : r.head? ≠ some '-') (hpoint : r.head? ≠ some '.') :
    c.atDocumentMark = false := by
  have hne := (Wordlike.of_canBePlain ht).ne_nil
  simp only [Scalar.canBePlain, Scalar.startsWithMark, Bool.and_eq_true, Bool.not_eq_true',
    Bool.or_eq_false_iff] at ht
  obtain ⟨⟨-, ⟨⟨⟨hdashes, hpoints⟩, -⟩, -⟩, -⟩, -⟩ := ht
  rw [atDocumentMark, atMark_plain hrest hne hdash hdashes, atMark_plain hrest hne hpoint hpoints]
  rfl

theorem StartsToken.endsLine {r : Text} (hr : StartsToken r) :
    ∀ d ∈ r.head?, isSpace d = false ∧ d ≠ '#' :=
  fun d hd => ⟨(hr.1 d hd).1, fun h => hr.2 (h ▸ hd)⟩

/-- A break is neither a blank nor the start of a comment. -/
theorem endsLine_of_break {b : Char} (hb : isBreak b = true) : isSpace b = false ∧ b ≠ '#' := by
  constructor
  · rw [← Bool.not_eq_true]
    intro hspace
    simp only [isSpace, Bool.or_eq_true, decide_eq_true_eq] at hspace
    rcases hspace with rfl | rfl <;> cases hb
  · rintro rfl
    cases hb

namespace Lexer

/-- A reader outside of brackets. -/
def outside (c : Cursor) (ts : List Token) (columns : List Nat) (candidate : Option Candidate)
    (keyAllowed : Bool) : Lexer :=
  ⟨c, ts.toArray, columns, candidate, [], keyAllowed⟩

/-- The reader at the next token, with what ends before it closed. -/
def atToken? (l : Lexer) : Option Lexer :=
  (l.skipBlanks (l.cursor.rest.length + 1)).dropStale?.map closeDeeper

/-- The reader after the token that starts here. -/
def step? (l : Lexer) : Option Lexer := l.cursor.rest.head?.bind fun d => l.token? d

theorem tokens?_succ (fuel : Nat) (l : Lexer) :
    l.tokens? (fuel + 1) = l.atToken?.bind fun l =>
      match l.cursor.rest with
      | [] => l.closeAll.dropCandidate?.map fun l => l.tokens.toList
      | c :: _ => (l.token? c).bind (tokens? fuel) := by
  rw [tokens?, atToken?]
  cases (l.skipBlanks (l.cursor.rest.length + 1)).dropStale? <;> rfl

/-! ## Readers that come to others -/

/-- Whether the tokens of a reader are those of another one, which it comes to in at most as many
steps as it passes over characters. -/
def Reaches (l l' : Lexer) : Prop :=
  ∃ n, n + l'.cursor.rest.length ≤ l.cursor.rest.length ∧
    ∀ fuel, l.tokens? (fuel + n) = l'.tokens? fuel

theorem Reaches.trans {l l' l'' : Lexer} (h : Reaches l l') (h' : Reaches l' l'') :
    Reaches l l'' := by
  obtain ⟨n, hn, htokens⟩ := h
  obtain ⟨n', hn', htokens'⟩ := h'
  refine ⟨n' + n, by omega, fun fuel => ?_⟩
  rw [← Nat.add_assoc, htokens, htokens']

/-- Readers that are at the same token have the same tokens. -/
theorem Reaches.of_atToken? {l l' : Lexer} (h : l.atToken? = l'.atToken?)
    (hle : l'.cursor.rest.length ≤ l.cursor.rest.length) : Reaches l l' := by
  refine ⟨0, by omega, fun fuel => ?_⟩
  cases fuel with
  | zero => rfl
  | succ fuel => rw [tokens?_succ, tokens?_succ, h]

theorem Reaches.of_step? {l l₁ l₂ : Lexer} (h : l.atToken? = some l₁) (hstep : l₁.step? = some l₂)
    (hlt : l₂.cursor.rest.length < l.cursor.rest.length) : Reaches l l₂ := by
  refine ⟨1, by omega, fun fuel => ?_⟩
  obtain ⟨d, hd, htoken⟩ := Option.bind_eq_some_iff.mp hstep
  rw [tokens?_succ, h, Option.bind_some]
  cases hrest : l₁.cursor.rest with
  | nil =>
    rw [hrest] at hd
    cases hd
  | cons e r =>
    rw [hrest] at hd
    obtain rfl : e = d := Option.some.inj hd
    dsimp only
    rw [htoken, Option.bind_some]

/-! ## Between two tokens -/

/-- The blanks of a line are passed over, and then its break. Where a key may start outside of
brackets, no tab is a blank. -/
theorem skipBlanks_line (line : Text) {l : Lexer} {r : Text} (hrest : l.cursor.rest = line ++ r)
    (hline : ∀ d ∈ line, d = ' ' ∨ (d = '\t' ∧ (l.inFlow || !l.keyAllowed) = true))
    (hr : ∀ d ∈ r.head?, isSpace d = false ∧ d ≠ '#') (fuel : Nat) :
    l.skipBlanks (fuel + 1) =
      (l.cursor.skip line.length).lineBreak?.elim { l with cursor := l.cursor.skip line.length }
        fun b => skipBlanks fuel
          { l with cursor := b.2, keyAllowed := l.keyAllowed || !l.inFlow } := by
  let p := fun d => decide (d = ' ') || (decide (d = '\t') && (l.inFlow || !l.keyAllowed))
  have hrun : l.cursor.run p = line := by
    refine Cursor.run_eq hrest (fun d hd => ?_) fun d hd => .inl ?_
    · rcases hline d hd with rfl | ⟨rfl, h⟩
      · exact ⟨rfl, rfl⟩
      · exact ⟨by simp [p, h], rfl⟩
    · have hspace : d ≠ ' ' ∧ d ≠ '\t' := by simpa [isSpace] using (hr d hd).1
      simp [p, hspace]
  have hrest' : (l.cursor.skip line.length).rest = r := by rw [Cursor.skip, hrest, List.drop_left]
  have hcomment : (l.cursor.skip line.length).rest.head? ≠ some '#' := by
    rw [hrest']
    exact fun h => (hr '#' h).2 rfl
  rw [skipBlanks, Cursor.skipRun, hrun, if_neg hcomment]
  cases (l.cursor.skip line.length).lineBreak? <;> rfl

/-- Blank lines and an indentation are passed over. After a break a key may start. -/
theorem skipBlanks_append {bs r : Text} {n : Nat} (hbs : ∀ b ∈ bs, Scalar.isPrintable b = true ∧
      isBreak b = true) (hr : StartsToken r) {l : Lexer} (hflow : l.inFlow = false ∨ bs = [])
    {fuel : Nat} (hfuel : bs.length < fuel) (hrest : l.cursor.rest = bs ++ (Text.fill n ' ' ++ r)) :
    l.skipBlanks fuel = { l with
      cursor := l.cursor.past (bs ++ Text.fill n ' ')
      keyAllowed := l.keyAllowed || !bs.isEmpty } := by
  induction bs generalizing l fuel with
  | nil =>
    obtain ⟨fuel, rfl⟩ := Nat.exists_eq_succ_of_ne_zero (n := fuel) (by omega)
    have hspaces : ∀ d ∈ Text.fill n ' ', d = ' ' := fun d hd => List.eq_of_mem_replicate hd
    have hrest' : (l.cursor.past (Text.fill n ' ')).rest = r := Cursor.rest_past_of_eq hrest
    have hnone : (l.cursor.past (Text.fill n ' ')).lineBreak? = none :=
      Cursor.lineBreak?_eq_none (by rw [hrest']; exact fun d hd => (hr.1 d hd).2)
    rw [skipBlanks_line (Text.fill n ' ') hrest (fun d hd => .inl (hspaces d hd)) hr.endsLine,
      ← Cursor.past_of_no_break (any_isBreak_fill n), hnone, Option.elim_none, List.isEmpty_nil,
      Bool.not_true, Bool.or_false, List.nil_append]
  | cons b bs ih =>
    rw [List.length_cons] at hfuel
    obtain ⟨fuel, rfl⟩ := Nat.exists_eq_succ_of_ne_zero (n := fuel) (by omega)
    obtain ⟨⟨hp, hb⟩, hbs⟩ := List.forall_mem_cons.mp hbs
    have hrest' : (l.cursor.past [b]).rest = bs ++ (Text.fill n ' ' ++ r) :=
      Cursor.rest_past_of_eq hrest
    have hflow := hflow.resolve_right (List.cons_ne_nil b bs)
    have hread := ih hbs (l := { l with
      cursor := l.cursor.past [b]
      keyAllowed := l.keyAllowed || !l.inFlow }) (.inl hflow)
      (show bs.length < fuel by omega) hrest'
    have hend : ∀ d ∈ (b :: (bs ++ (Text.fill n ' ' ++ r))).head?, isSpace d = false ∧ d ≠ '#' := by
      rintro d ⟨⟩
      exact endsLine_of_break hb
    rw [skipBlanks_line [] hrest (List.forall_mem_nil _) hend, List.length_nil,
      Cursor.skip_zero, Cursor.lineBreak?_of_printable hrest hp hb, Option.elim_some, hread, hflow,
      ← Cursor.past_append]
    simp

/-- A candidate that can no longer be a key is forgotten, when it need not be one. -/
theorem dropStale?_outside {c : Cursor} {ts : List Token} {columns : List Nat}
    {candidate : Option Candidate} {keyAllowed : Bool}
    (h : ∀ k ∈ candidate, k.required = false ∧ k.isStale c = true) :
    (outside c ts columns candidate keyAllowed).dropStale? =
      some (outside c ts columns none keyAllowed) := by
  cases candidate with
  | none => rfl
  | some k =>
    obtain ⟨hrequired, hstale⟩ := h k rfl
    simp [dropStale?, outside, hrequired, hstale]

theorem dropStale?_fresh {l : Lexer}
    (h : ∀ candidate ∈ l.candidate :: l.outer, ∀ k ∈ candidate, k.isStale l.cursor = false) :
    l.dropStale? = some l := by
  have hfresh : ∀ candidate ∈ l.candidate :: l.outer,
      candidate.any (·.isStale l.cursor) = false := by
    intro candidate hmem
    cases candidate with
    | none => rfl
    | some k => exact h _ hmem k rfl
  have houter : l.outer.map (fun k => if k.any (·.isStale l.cursor) then none else k) = l.outer :=
    (List.map_congr_left fun k hk => if_neg (by simp [hfresh k (List.mem_cons_of_mem _ hk)])).trans
      (List.map_id _)
  have hnone : ¬((l.candidate :: l.outer).any fun k =>
      k.any (·.isStale l.cursor) && k.any (·.required)) = true := by
    rw [List.any_eq_true]
    rintro ⟨k, hk, hstale⟩
    rw [hfresh k hk, Bool.false_and] at hstale
    cases hstale
  rw [dropStale?]
  simp only [if_neg hnone, houter, hfresh _ List.mem_cons_self]
  rfl

theorem closeBlocks_outside (n : Nat) (c : Cursor) (ts : List Token) (columns : List Nat)
    (candidate : Option Candidate) (keyAllowed : Bool) :
    (outside c ts columns candidate keyAllowed).closeBlocks n =
      outside c (ts ++ List.replicate n .blockEnd) (columns.drop n) candidate keyAllowed := by
  simp only [closeBlocks, outside, ← List.toArray_replicate, List.append_toArray]

theorem closeDeeper_eq (c : Cursor) (ts : List Token) (columns : List Nat)
    (candidate : Option Candidate) (keyAllowed : Bool) :
    (outside c ts columns candidate keyAllowed).closeDeeper =
      outside c (ts ++ List.replicate (columns.takeWhile (c.column < ·)).length .blockEnd)
        (columns.drop (columns.takeWhile (c.column < ·)).length) candidate keyAllowed :=
  closeBlocks_outside _ c ts columns candidate keyAllowed

theorem closeDeeper_outside {c : Cursor} {ts : List Token} {columns : List Nat}
    {candidate : Option Candidate} {keyAllowed : Bool} (h : ∀ p ∈ columns.head?, p ≤ c.column) :
    (outside c ts columns candidate keyAllowed).closeDeeper =
      outside c ts columns candidate keyAllowed := by
  rw [closeDeeper_eq]
  have hnone : columns.takeWhile (c.column < ·) = [] := by
    cases columns with
    | nil => rfl
    | cons p columns =>
      have hp := h p rfl
      rw [List.takeWhile_cons, if_neg (by simpa using hp)]
  rw [hnone, List.length_nil, List.replicate_zero, List.append_nil, List.drop_zero]

section
variable {c : Cursor} {ts : List Token} {columns : List Nat} {candidate : Option Candidate}
  {keyAllowed : Bool}

theorem atToken?_outside {bs r : Text} {n : Nat} (hbs : ∀ b ∈ bs, Scalar.isPrintable b = true ∧
      isBreak b = true) (hr : StartsToken r) (hrest : c.rest = bs ++ (Text.fill n ' ' ++ r)) :
    (outside c ts columns candidate keyAllowed).atToken? =
      (outside (c.past (bs ++ Text.fill n ' ')) ts columns candidate
        (keyAllowed || !bs.isEmpty)).dropStale?.map closeDeeper := by
  have hfuel : bs.length < c.rest.length + 1 := by
    rw [hrest, List.length_append]
    omega
  have hblanks := skipBlanks_append hbs hr (l := outside c ts columns candidate keyAllowed)
    (.inl rfl) hfuel hrest
  exact congrArg (fun l => l.dropStale?.map closeDeeper) hblanks

/-- Where a token starts nothing is passed over. -/
theorem atToken?_start (hr : StartsToken c.rest) :
    (outside c ts columns candidate keyAllowed).atToken? =
      (outside c ts columns candidate keyAllowed).dropStale?.map closeDeeper := by
  have hrest : c.rest = [] ++ (Text.fill 0 ' ' ++ c.rest) := rfl
  rw [atToken?_outside (List.forall_mem_nil _) hr hrest]
  simp [Text.fill]

theorem atToken?_fresh (hr : StartsToken c.rest) (hfresh : ∀ k ∈ candidate, k.isStale c = false)
    (h : ∀ p ∈ columns.head?, p ≤ c.column) :
    (outside c ts columns candidate keyAllowed).atToken? =
      some (outside c ts columns candidate keyAllowed) := by
  have hkept : (outside c ts columns candidate keyAllowed).dropStale? =
      some (outside c ts columns candidate keyAllowed) :=
    dropStale?_fresh (List.forall_mem_singleton.mpr hfresh)
  rw [atToken?_start hr, hkept, Option.map_some, closeDeeper_outside h]

/-- A reader passes over a gap, and forgets a candidate that the gap makes stale. -/
theorem reaches_gap (ts : List Token) (columns : List Nat) (keyAllowed : Bool) {bs r : Text}
    {n : Nat} (hbs : ∀ b ∈ bs, Scalar.isPrintable b = true ∧ isBreak b = true) (hr : StartsToken r)
    (hrest : c.rest = bs ++ (Text.fill n ' ' ++ r))
    (hpassed : ∀ k ∈ candidate,
      k.required = false ∧ k.isStale (c.past (bs ++ Text.fill n ' ')) = true) :
    Reaches (outside c ts columns candidate keyAllowed)
      (outside (c.past (bs ++ Text.fill n ' ')) ts columns none (keyAllowed || !bs.isEmpty)) := by
  have hrest' : (c.past (bs ++ Text.fill n ' ')).rest = r :=
    Cursor.rest_past_of_eq (by rw [hrest, List.append_assoc])
  refine .of_atToken? ?_ ?_
  · rw [atToken?_outside hbs hr hrest, atToken?_start (by rwa [hrest']),
      dropStale?_outside hpassed, dropStale?_outside (by simp)]
  · show (c.past (bs ++ Text.fill n ' ')).rest.length ≤ c.rest.length
    rw [hrest', hrest, List.length_append, List.length_append]
    omega

theorem reaches_blank (ts : List Token) (columns : List Nat) (keyAllowed : Bool) {r : Text}
    (hr : StartsToken r) (hrest : c.rest = ' ' :: r) :
    Reaches (outside c ts columns none keyAllowed)
      (outside (c.past [' ']) ts columns none keyAllowed) := by
  have hblank : c.rest = [] ++ (Text.fill 1 ' ' ++ r) := hrest
  have hgap := reaches_gap ts columns keyAllowed (List.forall_mem_nil _) hr hblank
    (show ∀ k ∈ none, _ from by simp)
  rwa [List.isEmpty_nil, Bool.not_true, Bool.or_false] at hgap

/-- After a line break a key may start. -/
theorem reaches_newline (ts : List Token) (columns : List Nat) (keyAllowed : Bool) {r : Text}
    {n : Nat} (hr : StartsToken r) (hrest : c.rest = '\n' :: (Text.fill n ' ' ++ r))
    (hpassed : ∀ k ∈ candidate,
      k.required = false ∧ k.isStale (c.past ('\n' :: Text.fill n ' ')) = true) :
    Reaches (outside c ts columns candidate keyAllowed)
      (outside (c.past ('\n' :: Text.fill n ' ')) ts columns none true) := by
  have hbreak : ∀ b ∈ ['\n'], Scalar.isPrintable b = true ∧ isBreak b = true :=
    List.forall_mem_singleton.mpr (by decide)
  have hgap := reaches_gap ts columns keyAllowed hbreak hr hrest hpassed
  rwa [List.isEmpty_cons, Bool.not_false, Bool.or_true] at hgap

/-- A collection ends before a token in a lower column. -/
theorem reaches_close (ts : List Token) (columns : List Nat) {q : Nat} (hr : StartsToken c.rest)
    (hq : c.column < q) :
    Reaches (outside c ts (q :: columns) none keyAllowed)
      (outside c (ts ++ [.blockEnd]) columns none keyAllowed) := by
  refine .of_atToken? ?_ (Nat.le_refl _)
  rw [atToken?_start hr, atToken?_start hr, dropStale?_outside (by simp),
    dropStale?_outside (by simp), Option.map_some, Option.map_some]
  rw [closeDeeper_eq, closeDeeper_eq, List.takeWhile_cons, if_pos (by simpa using hq),
    List.length_cons,
    List.drop_succ_cons, List.replicate_succ, List.append_assoc, List.singleton_append]

/-- At the end of the text all collections end. -/
theorem tokens?_end (hrest : c.rest = []) (fuel : Nat) :
    (outside c ts columns none keyAllowed).tokens? (fuel + 1) =
      some (ts ++ List.replicate columns.length .blockEnd) := by
  have hstart : StartsToken c.rest := by simp [StartsToken, EndsGap, hrest]
  let n := (columns.takeWhile (c.column < ·)).length
  have hcloseAll (ts : List Token) (columns : List Nat) :
      (outside c ts columns none keyAllowed).closeAll =
        outside c (ts ++ List.replicate columns.length .blockEnd) (columns.drop columns.length) none
          keyAllowed := closeBlocks_outside ..
  rw [tokens?_succ, atToken?_start hstart, dropStale?_outside (by simp), Option.map_some,
    closeDeeper_eq, Option.bind_some]
  show (match c.rest with | [] => _ | _ :: _ => _) = _
  rw [hrest]
  dsimp only
  rw [hcloseAll]
  have hn : n + (columns.drop n).length = columns.length := by
    have hle : n ≤ columns.length := (List.takeWhile_prefix _).length_le
    rw [List.length_drop]
    omega
  rw [← hn, ← List.replicate_append_replicate, ← List.append_assoc]
  rfl

/-- A reader passes over the text of a token. -/
theorem reaches_step {s r : Text} {ts' : List Token} {columns' : List Nat}
    {candidate' : Option Candidate} {keyAllowed' : Bool} (hr : StartsToken c.rest)
    (hfresh : ∀ k ∈ candidate, k.isStale c = false) (hcolumns : ∀ p ∈ columns.head?, p ≤ c.column)
    (hrest : c.rest = s ++ r) (hs : s ≠ [])
    (hstep : (outside c ts columns candidate keyAllowed).step? =
      some (outside (c.past s) ts' columns' candidate' keyAllowed')) :
    Reaches (outside c ts columns candidate keyAllowed)
      (outside (c.past s) ts' columns' candidate' keyAllowed') := by
  refine .of_step? (atToken?_fresh hr hfresh hcolumns) hstep ?_
  show (c.past s).rest.length < c.rest.length
  have hpos := List.length_pos_iff.mpr hs
  rw [Cursor.rest_past_of_eq hrest, hrest, List.length_append]
  omega

end

/-! ## Scalars -/

section
variable {c : Cursor} {ts : List Token} {columns : List Nat}

/-- The place where a key may start. -/
def candidateAt (c : Cursor) (ts : List Token) (columns : List Nat) : Candidate :=
  ⟨ts.length, columns.head? = some c.column, c.index, c.line, c.column⟩

/-- The candidate that is kept where a text starts. -/
def savedCandidate (c : Cursor) (ts : List Token) (columns : List Nat) (keyAllowed : Bool) :
    Option Candidate :=
  if keyAllowed then some (candidateAt c ts columns) else none

theorem eq_candidateAt_of_saved {keyAllowed : Bool} {k : Candidate}
    (h : k ∈ savedCandidate c ts columns keyAllowed) : k = candidateAt c ts columns := by
  cases keyAllowed with
  | false => exact absurd h (by simp [savedCandidate])
  | true => exact (Option.some.inj h).symm

theorem saveCandidate?_outside (keyAllowed : Bool) :
    (outside c ts columns none keyAllowed).saveCandidate? =
      some (outside c ts columns (savedCandidate c ts columns keyAllowed) keyAllowed) := by
  cases keyAllowed <;> rfl

@[simp] theorem push_outside (t : Token) (candidate : Option Candidate) (keyAllowed : Bool) :
    (outside c ts columns candidate keyAllowed).push t =
      outside c (ts ++ [t]) columns candidate keyAllowed := by
  simp [push, outside]

theorem quoted?_outside {quote : Quote} {t : Text} {after : Cursor}
    (hread : Quoted.read? quote c = some (t, after)) (keyAllowed : Bool) :
    (outside c ts columns none keyAllowed).quoted? quote =
      some (outside after (ts ++ [.scalar false t]) columns (savedCandidate c ts columns keyAllowed)
        false) := by
  rw [quoted?, saveCandidate?_outside]
  simp only [Option.bind_eq_bind, Option.bind_some, push_outside]
  show (Quoted.read? quote c).bind _ = _
  rw [hread]
  rfl

theorem plain?_outside {t : Text} {broken : Bool} {after : Cursor} {keyAllowed : Bool}
    (hread : Plain.read? false (outside c ts columns none keyAllowed).least c =
      some ⟨t, broken, after⟩) :
    (outside c ts columns none keyAllowed).plain? =
      some (outside after (ts ++ [.scalar true t]) columns (savedCandidate c ts columns keyAllowed)
        broken) := by
  rw [plain?, saveCandidate?_outside]
  simp only [Option.bind_eq_bind, Option.bind_some, push_outside]
  show (Plain.read? false (outside c ts columns none keyAllowed).least c).bind _ = _
  rw [hread]
  rfl

theorem block?_outside (ts : List Token) (columns : List Nat) (keyAllowed : Bool) {t : Text}
    {after : Cursor}
    (hread : Block.read? true columns.head? c = some (t, after)) :
    (outside c ts columns none keyAllowed).block? true =
      some (outside after (ts ++ [.scalar false t]) columns none true) := by
  show (Block.read? true columns.head? c).bind _ = _
  rw [hread, Option.bind_some]
  simp [outside, push]

end

/-! ## Tokens by their first character -/

section
variable {l : Lexer} {r t : Text}

theorem step?_cons {d : Char} (hrest : l.cursor.rest = d :: r) : l.step? = l.token? d := by
  rw [step?, hrest]
  rfl

/-- The signs that start something else than a plain text, unless a word goes on after them. -/
theorem sign_or_mark_of_isIndicator {d : Char} (h : isIndicator d = true) :
    d ∈ ['-', '?', ':'] ∨ d ∈ "#,[]\x7b\x7d&*!|>'\"%@`".toList := by
  have hall : "-?:,[]\x7b\x7d#&*!|>'\"%@`".toList.all (fun d =>
      d ∈ ['-', '?', ':'] ∨ d ∈ "#,[]\x7b\x7d&*!|>'\"%@`".toList) = true := by decide
  exact of_decide_eq_true (List.all_eq_true.mp hall d (List.contains_iff_mem.mp h))

theorem token?_plain {d : Char} (hflow : d ∈ ['?', ':'] → l.inFlow = false)
    (hmark : l.cursor.atDocumentMark = false) (hother : d ∉ "#,[]\x7b\x7d&*!|>'\"%@`".toList)
    (hsign : d ∈ ['-', '?', ':'] → endsWord l.cursor.rest.tail = false)
    (hstarts : l.startsPlain = true) : l.token? d = l.plain? := by
  have hne (e : Char) (he : e ∈ "#,[]\x7b\x7d&*!|>'\"%@`".toList) : d ≠ e := by
    rintro rfl
    exact hother he
  have hdash : ¬(d = '-' ∧ endsWord l.cursor.rest.tail = true) := by
    rintro ⟨rfl, hends⟩
    rw [hsign (by decide)] at hends
    cases hends
  have hends (e : Char) (he : e ∈ ['?', ':']) :
      ¬(d = e ∧ (l.inFlow = true ∨ endsWord l.cursor.rest.tail = true)) := by
    rintro ⟨rfl, hends⟩
    rw [hflow he, hsign (List.mem_cons_of_mem '-' he)] at hends
    simp at hends
  obtain ⟨hminus, hpoint⟩ : l.cursor.atMark '-' = false ∧ l.cursor.atMark '.' = false := by
    simpa [Cursor.atDocumentMark] using hmark
  have hno : ¬(false = true) := Bool.false_ne_true
  rw [token?, if_neg fun h => hne '%' (by decide) h.2, hminus, if_neg hno, hpoint, if_neg hno,
    if_neg (hne '[' (by decide)), if_neg (hne '\x7b' (by decide)), if_neg (hne ']' (by decide)),
    if_neg (hne '\x7d' (by decide)), if_neg (hne ',' (by decide)), if_neg hdash,
    if_neg (hends '?' (by decide)), if_neg (hends ':' (by decide)),
    if_neg (hne '*' (by decide)), if_neg (hne '&' (by decide)), if_neg (hne '!' (by decide)),
    if_neg fun h => hne '|' (by decide) h.1, if_neg fun h => hne '>' (by decide) h.1,
    if_neg (hne '\'' (by decide)), if_neg (hne '"' (by decide)), if_pos hstarts]

theorem startsPlain_cons {d : Char} (hrest : l.cursor.rest = d :: r)
    (hflow : d ∈ ['?', ':'] → l.inFlow = false) (hblank : isSpace d = false ∧ isBreak d = false)
    (hother : d ∉ "#,[]\x7b\x7d&*!|>'\"%@`".toList)
    (hsign : d ∈ ['-', '?', ':'] → endsWord r = false) : l.startsPlain = true := by
  have hmatch : l.startsPlain =
      (!(isSpace d || isBreak d || isIndicator d) || (decide (d = '-') && !r.head?.any isSpace) ||
        (!l.inFlow && (decide (d = '?') || decide (d = ':')) && !endsWord r)) := by
    simp [startsPlain, hrest]
  rw [hmatch, hblank.1, hblank.2]
  cases hindicator : isIndicator d with
  | false => rfl
  | true =>
    have hmem := (sign_or_mark_of_isIndicator hindicator).resolve_right hother
    have hends := hsign hmem
    have hnext : r.head?.any isSpace = false := by
      cases r with
      | nil => rfl
      | cons e r => exact (Bool.or_eq_false_iff.mp hends).1
    rw [hends, hnext]
    simp only [List.mem_cons, List.not_mem_nil, or_false] at hmem
    rcases hmem with rfl | rfl | rfl
    · rfl
    · rw [hflow (by decide)]
      rfl
    · rw [hflow (by decide)]
      rfl

/-- A text that can be written without quotes is read as a plain text. Between brackets it must not
start with a question mark or a colon. -/
theorem step?_plain (ht : Scalar.canBePlain t = true) (hrest : l.cursor.rest = t ++ r)
    (hmark : l.cursor.atDocumentMark = false)
    (hflow : ∀ d ∈ t.head?, d ∈ ['?', ':'] → l.inFlow = false) : l.step? = l.plain? := by
  have hword := Wordlike.of_canBePlain ht
  obtain ⟨d, t, rfl⟩ := List.exists_cons_of_ne_nil hword.ne_nil
  simp only [Scalar.canBePlain, Scalar.startsWithMark, Bool.and_eq_true, Bool.not_eq_true',
    Bool.or_eq_false_iff] at ht
  obtain ⟨⟨-, ⟨⟨-, hdash⟩, hquestion⟩, hhead⟩, -⟩ := ht
  -- A sign that structures a line is not followed by the end of a word.
  have hsign (hd : d ∈ ['-', '?', ':']) : endsWord (t ++ r) = false := by
    have hends : endsWord t = false := by
      simp only [List.mem_cons, List.not_mem_nil, or_false] at hd
      rcases hd with rfl | rfl | rfl
      · simpa [startsWithWord] using hdash
      · simpa [startsWithWord] using hquestion
      · cases t with
        | nil => exact absurd rfl hword.last_ne.2
        | cons e t => exact Scalar.not_pair_seam (s := []) hword.noColon (by decide)
    cases t with
    | nil => cases hends
    | cons e t => exact hends
  have hother : d ∉ "#,[]\x7b\x7d&*!|>'\"%@`".toList := by
    rw [List.head?_cons, Option.any_some] at hhead
    rwa [← List.contains_iff_mem, Bool.not_eq_true]
  obtain ⟨hprintable, hbreak⟩ := hword.chars d List.mem_cons_self
  have hspace := isSpace_eq_false hprintable (by simpa using hword.head_ne.1)
  rw [step?_cons hrest]
  refine token?_plain (hflow d rfl) hmark hother (fun hd => ?_)
    (startsPlain_cons hrest (hflow d rfl) ⟨hspace, hbreak⟩ hother hsign)
  rw [hrest]
  exact hsign hd

/-- A character that starts no mark between documents. -/
theorem marks_eq_false {c : Cursor} {d : Char} (hrest : c.rest = d :: r) (hdash : d ≠ '-')
    (hpoint : d ≠ '.') : c.atMark '-' = false ∧ c.atMark '.' = false :=
  ⟨Cursor.atMark_eq_false hrest hdash, Cursor.atMark_eq_false hrest hpoint⟩

theorem step?_comma (hrest : l.cursor.rest = ',' :: r) : l.step? = l.comma? := by
  obtain ⟨hdash, hpoint⟩ := marks_eq_false hrest (by decide) (by decide)
  rw [step?_cons hrest, token?]
  simp [hdash, hpoint]

theorem step?_doubleQuote (hrest : l.cursor.rest = '"' :: r) : l.step? = l.quoted? .double := by
  obtain ⟨hdash, hpoint⟩ := marks_eq_false hrest (by decide) (by decide)
  rw [step?_cons hrest, token?]
  simp [hdash, hpoint]

theorem step?_singleQuote (hrest : l.cursor.rest = '\'' :: r) : l.step? = l.quoted? .single := by
  obtain ⟨hdash, hpoint⟩ := marks_eq_false hrest (by decide) (by decide)
  rw [step?_cons hrest, token?]
  simp [hdash, hpoint]

theorem step?_bar (hrest : l.cursor.rest = '|' :: r) (hflow : l.inFlow = false) :
    l.step? = l.block? true := by
  obtain ⟨hdash, hpoint⟩ := marks_eq_false hrest (by decide) (by decide)
  rw [step?_cons hrest, token?]
  simp [hdash, hpoint, hflow]

theorem step?_dash (hrest : l.cursor.rest = '-' :: ' ' :: r) : l.step? = l.dash? := by
  have hdash : l.cursor.atMark '-' = false := by
    rw [← Bool.not_eq_true, Cursor.atMark, hrest]
    cases r <;> simp
  have hpoint : l.cursor.atMark '.' = false := Cursor.atMark_eq_false hrest (by decide)
  rw [step?_cons hrest, token?]
  simp [hdash, hpoint, hrest, endsWord, isSpace]

theorem step?_question (hrest : l.cursor.rest = '?' :: ' ' :: r) : l.step? = l.key? := by
  obtain ⟨hdash, hpoint⟩ := marks_eq_false hrest (by decide) (by decide)
  rw [step?_cons hrest, token?]
  simp [hdash, hpoint, hrest, endsWord, isSpace]

theorem step?_colon (hrest : l.cursor.rest = ':' :: r)
    (hr : l.inFlow = true ∨ endsWord r = true) : l.step? = l.value? := by
  obtain ⟨hdash, hpoint⟩ := marks_eq_false hrest (by decide) (by decide)
  rw [step?_cons hrest, token?]
  simp [hdash, hpoint, hrest, hr]

end

/-! ## Empty collections -/

/-- Brackets with nothing between them, and their tokens. -/
inductive Brackets : Char → Char → Token → Token → Prop
  | square : Brackets '[' ']' .flowSequenceStart .flowSequenceEnd
  | curly : Brackets '\x7b' '\x7d' .flowMappingStart .flowMappingEnd

theorem Brackets.step? {s e : Char} {t t' : Token} (h : Brackets s e t t') {l : Lexer} {r : Text} :
    (l.cursor.rest = s :: r → l.step? = l.openFlow? t) ∧
      (l.cursor.rest = e :: r → l.step? = l.closeFlow? t') := by
  have hstep (d : Char) (hrest : l.cursor.rest = d :: r) : l.step? = l.token? d := by
    rw [Lexer.step?, hrest]
    rfl
  constructor <;> intro hrest <;> rw [hstep _ hrest, token?]
  all_goals
    cases h
    all_goals
      have hdash : l.cursor.atMark '-' = false := Cursor.atMark_eq_false hrest (by decide)
      have hpoint : l.cursor.atMark '.' = false := Cursor.atMark_eq_false hrest (by decide)
      simp [hdash, hpoint]

theorem Brackets.startsToken {s e : Char} {t t' : Token} (h : Brackets s e t t') (r : Text) :
    StartsToken (s :: r) ∧ StartsToken (e :: r) := by
  cases h <;> constructor <;> exact ⟨by rintro d ⟨⟩; decide, by simp⟩

/-- A reader passes over brackets with nothing between them. -/
theorem reaches_brackets {s e : Char} {t t' : Token} (h : Brackets s e t t') {c : Cursor} {r : Text}
    (hrest : c.rest = s :: e :: r) {ts : List Token} {columns : List Nat}
    (hcolumns : ∀ p ∈ columns.head?, p ≤ c.column) (keyAllowed : Bool) :
    Reaches (outside c ts columns none keyAllowed)
      (outside (c.past [s, e]) (ts ++ [t, t']) columns (savedCandidate c ts columns keyAllowed)
        false) := by
  have hpast : c.past [s, e] = c.next.next := by cases h <;> rfl
  have hnext : c.next.rest = e :: r := by
    rw [Cursor.next, hrest]
    rfl
  let saved := savedCandidate c ts columns keyAllowed
  let within : Lexer := ⟨c.next, (ts ++ [t]).toArray, columns, none, [saved], true⟩
  have hstart : StartsToken c.rest := by
    rw [hrest]
    exact (h.startsToken (e :: r)).1
  have hopen : (outside c ts columns none keyAllowed).step? = some within := by
    rw [h.step?.1 hrest, openFlow?, saveCandidate?_outside]
    simp [outside, take, push, Cursor.skip_one, within, saved]
  have hsaved : ∀ k ∈ saved, k.isStale c.next = false := by
    intro k hk
    simp [eq_candidateAt_of_saved hk, candidateAt, Candidate.isStale, Cursor.next]
  have hstale : within.dropStale? = some within := dropStale?_fresh (by simpa [within] using hsaved)
  have hwithin : within.atToken? = some within := by
    have hrest : within.cursor.rest = [] ++ (Text.fill 0 ' ' ++ e :: r) := hnext
    have hblanks := skipBlanks_append (List.forall_mem_nil _) (h.startsToken r).2 (.inr rfl)
      (show ([] : Text).length < within.cursor.rest.length + 1 from Nat.succ_pos _) hrest
    have hstay : within.skipBlanks (within.cursor.rest.length + 1) = within := by
      rw [hblanks]
      rfl
    rw [atToken?, hstay, hstale]
    rfl
  have hclose :
      within.step? = some (outside (c.past [s, e]) (ts ++ [t, t']) columns saved false) := by
    rw [h.step?.2 hnext, closeFlow?, hpast]
    simp [within, dropCandidate?, take, push, Cursor.skip_one, outside]
  have hfirst : Reaches (outside c ts columns none keyAllowed) within := by
    refine .of_step? (atToken?_fresh hstart (by simp) hcolumns) hopen ?_
    show c.next.rest.length < c.rest.length
    rw [hnext, hrest]
    exact Nat.lt_succ_self _
  refine hfirst.trans (.of_step? hwithin hclose ?_)
  show (c.past [s, e]).rest.length < c.next.rest.length
  rw [Cursor.rest_past_of_eq (t := [s, e]) hrest, hnext]
  exact Nat.lt_succ_self _

/-! ## Collections that start -/

/-- How the open collections change where the text of one stands at a column: it may be open
already, and else it starts, with a token. -/
inductive Opens (column : Nat) (t : Token) : List Nat → List Nat → List Token → Prop
  | already (columns : List Nat) : Opens column t (column :: columns) (column :: columns) []
  | anew {columns : List Nat} (deeper : ∀ p ∈ columns.head?, p < column) :
      Opens column t columns (column :: columns) [t]

theorem Opens.le {column : Nat} {t : Token} {columns columns' : List Nat} {start : List Token}
    (h : Opens column t columns columns' start) : ∀ p ∈ columns.head?, p ≤ column := by
  cases h with
  | already columns => simp
  | anew deeper => exact fun p hp => Nat.le_of_lt (deeper p hp)

theorem Opens.again {column : Nat} {t : Token} {columns columns' : List Nat} {start : List Token}
    (h : Opens column t columns columns' start) : Opens column t columns' columns' [] := by
  cases h with
  | already columns => exact .already columns
  | @anew columns _ => exact .already columns

theorem Opens.below {p column : Nat} (h : p < column) (t : Token) (columns : List Nat) :
    Opens column t (p :: columns) (column :: p :: columns) [t] := by
  refine .anew ?_
  rintro q ⟨⟩
  exact h

theorem Opens.eq_cons {column : Nat} {t : Token} {columns columns' : List Nat}
    {start : List Token} (h : Opens column t columns columns' start) :
    ∃ tail, columns' = column :: tail := by
  cases h <;> exact ⟨_, rfl⟩

theorem insertIdx_length {α : Type} (l l' : List α) (a : α) :
    (l ++ l').insertIdx l.length a = l ++ a :: l' := by
  induction l with
  | nil => rfl
  | cons b l ih => exact congrArg (b :: ·) ih

section
variable {c : Cursor} {columns columns' : List Nat} {candidate : Option Candidate}
  {keyAllowed : Bool} {r : Text} {start : List Token}

theorem insert_outside (c : Cursor) (columns : List Nat) (candidate : Option Candidate)
    (keyAllowed : Bool) (before after : List Token) (t : Token) :
    (outside c (before ++ after) columns candidate keyAllowed).insert before.length t =
      outside c (before ++ t :: after) columns candidate keyAllowed := by
  simp only [insert, outside, List.insertIdxIfInBounds_toArray, insertIdx_length]

theorem openBlock_outside (c : Cursor) (candidate : Option Candidate) (keyAllowed : Bool)
    {column : Nat} {t : Token} (h : Opens column t columns columns' start)
    (before after : List Token) :
    (outside c (before ++ after) columns candidate keyAllowed).openBlock column before.length t =
      outside c (before ++ start ++ after) columns' candidate keyAllowed := by
  cases h with
  | already columns => simp [openBlock, outside, inFlow]
  | anew deeper =>
    have hno : columns.head?.any (column ≤ ·) = false := by
      cases columns with
      | nil => rfl
      | cons p columns => simpa using deeper p rfl
    rw [openBlock, insert_outside]
    simp [outside, inFlow, hno]

variable {ts : List Token}

theorem startBlock?_outside {t : Token} (h : Opens c.column t columns columns' start) :
    (outside c ts columns candidate true).startBlock? t =
      some (outside c (ts ++ start) columns' candidate true) := by
  have hopen := openBlock_outside c candidate true h ts []
  rw [List.append_nil, List.append_nil] at hopen
  have hsize : (outside c ts columns candidate true).tokens.size = ts.length := List.size_toArray ..
  have hstart : (outside c ts columns candidate true).startBlock? t =
      some ((outside c ts columns candidate true).openBlock c.column ts.length t) := by
    rw [startBlock?, hsize]
    rfl
  rw [hstart, hopen]

/-- A dash starts an item. -/
theorem step?_item (ts : List Token) (h : Opens c.column .blockSequenceStart columns columns' start)
    (hrest : c.rest = '-' :: ' ' :: r) :
    (outside c ts columns none true).step? =
      some (outside (c.past ['-']) (ts ++ start ++ [.blockEntry]) columns' none true) := by
  rw [step?_dash (l := outside _ _ _ _ _) hrest, dash?, startBlock?_outside h]
  simp [outside, dropCandidate?, take, push, Cursor.skip_one, Cursor.past_cons (d := '-') rfl]

/-- A question mark announces a name. -/
theorem step?_announce (ts : List Token)
    (h : Opens c.column .blockMappingStart columns columns' start)
    (hrest : c.rest = '?' :: ' ' :: r) :
    (outside c ts columns none true).step? =
      some (outside (c.past ['?']) (ts ++ start ++ [.key]) columns' none true) := by
  rw [step?_question (l := outside _ _ _ _ _) hrest, key?, startBlock?_outside h]
  simp [outside, dropCandidate?, take, push, Cursor.skip_one, Cursor.past_cons (d := '?') rfl,
    inFlow]

/-- A colon follows a name that was announced. -/
theorem step?_announced (ts : List Token) (columns : List Nat) (hrest : c.rest = ':' :: r)
    (hr : endsWord r = true) :
    (outside c ts (c.column :: columns) none true).step? =
      some (outside (c.past [':']) (ts ++ [.value]) (c.column :: columns) none true) := by
  have hnone : (outside c ts (c.column :: columns) none true).candidate = none := rfl
  rw [step?_colon (l := outside _ _ _ _ _) hrest (.inr hr), value?, hnone]
  dsimp only
  rw [startBlock?_outside (.already columns)]
  simp [outside, take, push, Cursor.skip_one, Cursor.past_cons (d := ':') rfl, inFlow]

/-- A colon makes the text before it a name. -/
theorem step?_name (name : Token) (keyAllowed : Bool) {k : Candidate}
    (h : Opens k.column .blockMappingStart columns columns' start)
    (hposition : k.position = ts.length)
    (hrest : c.rest = ':' :: r) (hr : endsWord r = true) :
    (outside c (ts ++ [name]) columns (some k) keyAllowed).step? =
      some (outside (c.past [':']) (ts ++ start ++ [.key, name, .value]) columns' none false) := by
  rw [step?_colon (l := outside _ _ _ _ _) hrest (.inr hr)]
  have hkey := insert_outside c columns (some k) keyAllowed ts [name] .key
  have hopen := openBlock_outside c (some k) keyAllowed h ts [.key, name]
  show some
    ({ (((outside c (ts ++ [name]) columns (some k) keyAllowed).insert k.position .key).openBlock
    k.column k.position .blockMappingStart).take 1 .value with
      candidate := none, keyAllowed := false } : Lexer) = _
  rw [hposition, hkey, hopen]
  simp [outside, take, push, Cursor.skip_one, Cursor.past_cons (d := ':') rfl]

end

end Lexer
end Stencil.Yaml
