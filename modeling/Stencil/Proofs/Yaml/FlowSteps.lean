import Stencil.Proofs.Yaml.FlowText
import Stencil.Proofs.Yaml.TokenSteps

/-!
# Steps between brackets

Between brackets no indentation counts, and no text has to be a name. So what a reader still does
depends on the tokens so far, the number of open brackets, and the text that is left, up to blanks.
-/

namespace Stencil.Yaml.Lexer

/-- A reader in a number of brackets and in no block collection, where no text has to be a name. -/
structure InBrackets (n : Nat) (ts : List Token) (l : Lexer) : Prop where
  tokens : l.tokens = ts.toArray
  columns : l.columns = []
  depth : l.outer.length = n
  free : ∀ k ∈ l.candidate :: l.outer, k.any (·.required) = false

/-- A reader that has only blanks to pass over before a text. Outside of brackets no tab is one. -/
structure Before (n : Nat) (ts : List Token) (r : Text) (l : Lexer) : Prop
    extends InBrackets n ts l where
  rest : ∃ t, Json.IsBlank t ∧ (n = 0 → '\t' ∉ t) ∧ l.cursor.rest = t ++ r

section
variable {n : Nat} {ts : List Token} {l : Lexer} {r : Text}

theorem InBrackets.inFlow (h : InBrackets n ts l) : l.inFlow = decide (0 < n) := by
  rw [Lexer.inFlow, ← h.depth]
  cases l.outer <;> rfl

theorem InBrackets.before (h : InBrackets n ts l) (hrest : l.cursor.rest = r) : Before n ts r l :=
  ⟨h, [], List.forall_mem_nil _, by simp, hrest⟩

/-- Between brackets blanks in front of a text do not count. -/
theorem Before.past_blank {t : Text} (ht : Json.IsBlank t) (h : Before (n + 1) ts (t ++ r) l) :
    Before (n + 1) ts r l := by
  obtain ⟨s, hs, -, hrest⟩ := h.rest
  exact ⟨h.toInBrackets, s ++ t, hs.append ht, by simp, by rw [hrest, List.append_assoc]⟩

/-! ## To the next token -/

/-- A reader passes over blanks. Outside of brackets no tab is one on a further line, nor on the
first one where a key may start. -/
theorem skipBlanks_blank {s t : Text}
    (hs : ∀ d ∈ s, d = ' ' ∨ (d = '\t' ∧ (l.inFlow || !l.keyAllowed) = true))
    (ht : Json.IsBlank t) (htab : l.inFlow = false → '\t' ∉ t) (hr : StartsToken r) {fuel : Nat}
    (hfuel : t.length < fuel) (hrest : l.cursor.rest = s ++ (t ++ r)) :
    ∃ c allowed, l.skipBlanks fuel = { l with cursor := c, keyAllowed := allowed } ∧ c.rest = r ∧
      (l.keyAllowed = true → allowed = true) ∧ (t = [] → c = l.cursor.skip s.length) := by
  induction hlength : t.length using Nat.strongRecOn generalizing s t l fuel with
  | ind length ih =>
    obtain ⟨fuel, rfl⟩ := Nat.exists_eq_succ_of_ne_zero (n := fuel) (by omega)
    -- The blanks of the line go on up to a break or to the next token.
    obtain ⟨line, t', rfl, hline, hend⟩ := exists_span isSpace t
    have hblank : ∀ d ∈ s ++ line, d = ' ' ∨ (d = '\t' ∧ (l.inFlow || !l.keyAllowed) = true) := by
      refine List.forall_mem_append.mpr ⟨hs, fun d hd => ?_⟩
      have hspace := hline d hd
      simp only [isSpace, Bool.or_eq_true, decide_eq_true_eq] at hspace
      refine hspace.imp_right fun htab' => ⟨htab', ?_⟩
      have hflow : l.inFlow = true := by
        rw [← Bool.not_eq_false]
        exact fun hflow => htab hflow (htab' ▸ List.mem_append_left t' hd)
      rw [hflow, Bool.true_or]
    have hsplit : l.cursor.rest = (s ++ line) ++ (t' ++ r) := by
      rw [hrest]
      simp
    have hc : (l.cursor.skip (s ++ line).length).rest = t' ++ r := by
      rw [Cursor.skip, hsplit, List.drop_left]
    cases t' with
    | nil =>
      have hnone : (l.cursor.skip (s ++ line).length).lineBreak? = none :=
        Cursor.lineBreak?_eq_none (by rw [hc]; exact fun d hd => (hr.1 d hd).2)
      refine ⟨_, l.keyAllowed, ?_, hc, id, fun h => ?_⟩
      · rw [skipBlanks_line _ hsplit hblank hr.endsLine, hnone, Option.elim_none]
      · have hempty : line = [] := by simpa using h
        rw [hempty, List.append_nil]
    | cons b t' =>
      have hb : b = '\n' ∨ b = '\r' := by
        have hblank := space_or_break_of_blank (ht b (by simp))
        rw [hend b rfl] at hblank
        simpa using hblank
      have hbreak : ∀ d ∈ (b :: t' ++ r).head?, isSpace d = false ∧ d ≠ '#' := by
        rintro d ⟨⟩
        exact endsLine_of_break (by rcases hb with rfl | rfl <;> rfl)
      obtain ⟨d, after, t'', hline', hafter, hsuffix⟩ := Cursor.lineBreak?_blank hb hr.1 hc
      have hle := hsuffix.length_le
      rw [List.length_append, List.length_cons] at hlength hfuel
      let next : Lexer := { l with cursor := after, keyAllowed := l.keyAllowed || !l.inFlow }
      have hmem : ∀ d ∈ t'', d ∈ line ++ b :: t' := fun d hd =>
        List.mem_append_right line (List.mem_cons_of_mem b (hsuffix.mem hd))
      obtain ⟨c', allowed, hread, hrest', hkey, -⟩ :=
        ih t''.length (by omega) (l := next) (s := []) (by simp) (fun d hd => ht d (hmem d hd))
          (fun hflow htab' => htab hflow (hmem _ htab'))
          (show t''.length < fuel by omega) hafter rfl
      refine ⟨c', allowed, ?_, hrest', fun h => hkey (by simp [next, h]), by simp⟩
      rw [skipBlanks_line _ hsplit hblank hbreak, hline', Option.elim_some]
      exact hread

/-- A candidate that can still become a name is kept. -/
theorem InBrackets.dropStale? (h : InBrackets n ts l) :
    ∃ l', l.dropStale? = some l' ∧ InBrackets n ts l' ∧ l'.cursor = l.cursor ∧
      l'.keyAllowed = l.keyAllowed ∧
      ∀ k, l.candidate = some k → k.isStale l.cursor = false → l'.candidate = some k := by
  have hnone : ¬((l.candidate :: l.outer).any fun k =>
      k.any (·.isStale l.cursor) && k.any (·.required)) = true := by
    rw [List.any_eq_true]
    rintro ⟨k, hk, hrequired⟩
    rw [h.free k hk, Bool.and_false] at hrequired
    cases hrequired
  have hfree (k : Option Candidate) (hk : k ∈ l.candidate :: l.outer) :
      (if k.any (·.isStale l.cursor) then none else k).any (·.required) = false := by
    split
    · rfl
    · exact h.free k hk
  refine ⟨_, if_neg hnone, ⟨h.tokens, h.columns, by simp [h.depth], ?_⟩, rfl, rfl, ?_⟩
  · intro k hk
    rcases List.mem_cons.mp hk with rfl | hk
    · exact hfree l.candidate List.mem_cons_self
    · obtain ⟨k', hk', rfl⟩ := List.mem_map.mp hk
      exact hfree k' (List.mem_cons_of_mem l.candidate hk')
  · intro k hk hfresh
    simp [hk, hfresh]

/-- There is no block collection to close. -/
theorem InBrackets.close (h : InBrackets n ts l) : l.closeDeeper = l ∧ l.closeAll = l := by
  rw [closeDeeper, closeAll, h.columns]
  constructor <;> split <;> rfl

/-- The next token after blanks. On the same line a candidate stays one. -/
theorem InBrackets.atToken? {s t : Text} (h : InBrackets n ts l)
    (hs : ∀ d ∈ s, d = ' ' ∨ (d = '\t' ∧ (l.inFlow || !l.keyAllowed) = true))
    (ht : Json.IsBlank t) (htab : n = 0 → '\t' ∉ t) (hr : StartsToken r)
    (hrest : l.cursor.rest = s ++ (t ++ r)) :
    ∃ l', l.atToken? = some l' ∧ InBrackets n ts l' ∧ l'.cursor.rest = r ∧
      (l.keyAllowed = true → l'.keyAllowed = true) ∧
      (t = [] → ∀ k, l.candidate = some k → k.isStale (l.cursor.skip s.length) = false →
        l'.candidate = some k) := by
  have hfuel : t.length < l.cursor.rest.length + 1 := by
    rw [hrest, List.length_append, List.length_append]
    omega
  have htab' (hflow : l.inFlow = false) : '\t' ∉ t := by
    rw [h.inFlow] at hflow
    exact htab (by simpa using hflow)
  obtain ⟨c, allowed, hblanks, hc, hkey, hline⟩ := skipBlanks_blank hs ht htab' hr hfuel hrest
  have hskipped : InBrackets n ts { l with cursor := c, keyAllowed := allowed } :=
    ⟨h.tokens, h.columns, h.depth, h.free⟩
  obtain ⟨l', hstale, h', hcursor, hallowed, hkept⟩ := hskipped.dropStale?
  refine ⟨l', ?_, h', by rw [hcursor]; exact hc, fun hk => by rw [hallowed]; exact hkey hk, ?_⟩
  · rw [Lexer.atToken?, hblanks, hstale, Option.map_some, h'.close.1]
  · intro hempty k hk hfresh
    refine hkept k hk ?_
    show k.isStale c = false
    rwa [hline hempty]

theorem Before.atToken? (h : Before n ts r l) (hr : StartsToken r) :
    ∃ l', l.atToken? = some l' ∧ InBrackets n ts l' ∧ l'.cursor.rest = r ∧
      r.length ≤ l.cursor.rest.length ∧ (l.keyAllowed = true → l'.keyAllowed = true) := by
  obtain ⟨t, ht, htab, hrest⟩ := h.rest
  obtain ⟨l', hat, h', hrest', hkey, -⟩ :=
    h.toInBrackets.atToken? (List.forall_mem_nil _) ht htab hr (by rw [hrest]; rfl)
  exact ⟨l', hat, h', hrest', by rw [hrest, List.length_append]; omega, hkey⟩

/-! ## Candidates -/

theorem InBrackets.dropCandidate? (h : InBrackets n ts l) :
    l.dropCandidate? = some { l with candidate := none } ∧
      InBrackets n ts { l with candidate := none } := by
  have hfree := List.forall_mem_cons.mp h.free
  refine ⟨?_, h.tokens, h.columns, h.depth, List.forall_mem_cons.mpr ⟨rfl, hfree.2⟩⟩
  rw [Lexer.dropCandidate?, hfree.1]
  rfl

/-- Where a name may start, its place is kept. -/
theorem InBrackets.saveCandidate? (h : InBrackets n ts l) :
    ∃ l', l.saveCandidate? = some l' ∧ InBrackets n ts l' ∧ l'.cursor = l.cursor ∧
      (l.keyAllowed = true → l'.candidate =
        some ⟨ts.length, false, l.cursor.index, l.cursor.line, l.cursor.column⟩) := by
  obtain ⟨hdrop, hdropped⟩ := h.dropCandidate?
  cases hkey : l.keyAllowed with
  | false => exact ⟨l, by rw [Lexer.saveCandidate?, hkey]; rfl, h, rfl, by simp⟩
  | true =>
    let k : Candidate := ⟨ts.length, false, l.cursor.index, l.cursor.line, l.cursor.column⟩
    refine ⟨{ l with candidate := some k }, ?_, ?_, rfl, fun _ => rfl⟩
    · rw [Lexer.saveCandidate?, hkey, hdrop]
      simp [h.tokens, h.columns, hkey, k]
    · exact ⟨h.tokens, h.columns, h.depth,
        List.forall_mem_cons.mpr ⟨rfl, (List.forall_mem_cons.mp h.free).2⟩⟩

/-! ## Tokens -/

theorem InBrackets.push (h : InBrackets n ts l) (t : Token) (c : Cursor) (allowed : Bool) :
    InBrackets n (ts ++ [t]) { l.push t with cursor := c, keyAllowed := allowed } :=
  ⟨by simp [Lexer.push, h.tokens], h.columns, h.depth, h.free⟩

theorem cursor_skip_one {d : Char} {c : Cursor} (h : c.rest = d :: r) : (c.skip 1).rest = r := by
  rw [Cursor.skip, h]
  rfl

/-- An opening bracket. A name may start after it. -/
theorem reaches_openBracket {s e : Char} {t t' : Token} (b : Brackets s e t t')
    (h : Before n ts (s :: r) l) :
    ∃ l', Reaches l l' ∧ InBrackets (n + 1) (ts ++ [t]) l' ∧ l'.cursor.rest = r ∧
      l'.keyAllowed = true := by
  obtain ⟨l₁, hat, h₁, hrest, hle, -⟩ := h.atToken? (b.startsToken r).1
  obtain ⟨l₂, hsave, h₂, hcursor, -⟩ := h₁.saveCandidate?
  have hstep : l₁.step? = some { l₂.take 1 t with
      candidate := none, outer := l₂.candidate :: l₂.outer, keyAllowed := true } := by
    rw [b.step?.1 hrest, openFlow?, hsave]
    rfl
  have hafter : (l₂.cursor.skip 1).rest = r := by
    rw [hcursor]
    exact cursor_skip_one hrest
  refine ⟨_, .of_step? hat hstep ?_, ⟨?_, h₂.columns, ?_, ?_⟩, hafter, rfl⟩
  · show (l₂.cursor.skip 1).rest.length < _
    rw [hafter]
    exact hle
  · simp [take, Lexer.push, h₂.tokens]
  · simp [h₂.depth]
  · exact List.forall_mem_cons.mpr ⟨rfl, h₂.free⟩

/-- A closing bracket. -/
theorem reaches_closeBracket {s e : Char} {t t' : Token} (b : Brackets s e t t')
    (h : Before (n + 1) ts (e :: r) l) :
    ∃ l', Reaches l l' ∧ InBrackets n (ts ++ [t']) l' ∧ l'.cursor.rest = r ∧
      l'.keyAllowed = false := by
  obtain ⟨l₁, hat, h₁, hrest, hle, -⟩ := h.atToken? (b.startsToken r).2
  obtain ⟨hdrop, -⟩ := h₁.dropCandidate?
  obtain ⟨k, outer, houter⟩ := List.exists_cons_of_ne_nil (l := l₁.outer) (by
    intro hempty
    have hdepth := h₁.depth
    rw [hempty] at hdepth
    cases hdepth)
  have hstep :
      l₁.step? = some { l₁.take 1 t' with candidate := k, outer, keyAllowed := false } := by
    rw [b.step?.2 hrest, closeFlow?, hdrop, Option.map_some]
    simp [take, Lexer.push, houter]
  have hafter : (l₁.cursor.skip 1).rest = r := cursor_skip_one hrest
  have hfree := h₁.free
  have hdepth := h₁.depth
  rw [houter] at hfree hdepth
  refine ⟨_, .of_step? hat hstep ?_, ⟨?_, h₁.columns, Nat.succ.inj hdepth, ?_⟩, hafter, rfl⟩
  · show (l₁.cursor.skip 1).rest.length < _
    rw [hafter]
    exact hle
  · simp [take, Lexer.push, h₁.tokens]
  · exact (List.forall_mem_cons.mp hfree).2

/-- A comma. A name may start after it. -/
theorem reaches_comma (h : Before n ts (',' :: r) l) :
    ∃ l', Reaches l l' ∧ InBrackets n (ts ++ [.flowEntry]) l' ∧ l'.cursor.rest = r ∧
      l'.keyAllowed = true := by
  have hstart : StartsToken (',' :: r) := ⟨by rintro d ⟨⟩; decide, by simp⟩
  obtain ⟨l₁, hat, h₁, hrest, hle, -⟩ := h.atToken? hstart
  obtain ⟨hdrop, h₂⟩ := h₁.dropCandidate?
  have hstep : l₁.step? = some { ({ l₁ with candidate := none } : Lexer).push .flowEntry with
      cursor := l₁.cursor.skip 1, keyAllowed := true } := by
    rw [step?_comma hrest, comma?, hdrop]
    rfl
  have hafter : (l₁.cursor.skip 1).rest = r := cursor_skip_one hrest
  refine ⟨_, .of_step? hat hstep ?_, h₂.push .flowEntry _ true, hafter, rfl⟩
  show (l₁.cursor.skip 1).rest.length < _
  rw [hafter]
  exact hle

/-- A word, with the blanks after it. -/
theorem reaches_word {w t : Text} (hw : IsWord w) (ht : Json.IsBlank t)
    (hr : ∀ d ∈ r.head?, isFlowMark d = true) (h : Before (n + 1) ts (w ++ (t ++ r)) l) :
    ∃ l', Reaches l l' ∧ InBrackets (n + 1) (ts ++ [.scalar true w]) l' ∧ l'.cursor.rest = r := by
  have hword := Wordlike.of_canBePlain hw.plain
  obtain ⟨d, w', hcons⟩ := List.exists_cons_of_ne_nil hword.ne_nil
  obtain ⟨hspace, hbreak, hcomment, hother⟩ := forall_wordChars
    (P := fun d => isSpace d = false ∧ isBreak d = false ∧ d ≠ '#' ∧ d ∉ ['?', ':']) (by decide)
    (hw.chars d (by rw [hcons]; exact List.mem_cons_self))
  have hstart : StartsToken (w ++ (t ++ r)) := by
    rw [hcons]
    refine ⟨?_, by simpa using hcomment⟩
    rintro e ⟨⟩
    exact ⟨hspace, hbreak⟩
  obtain ⟨l₁, hat, h₁, hrest, hle, -⟩ := h.atToken? hstart
  have hmark : l₁.cursor.atDocumentMark = false := by
    have hnext (e : Char) (he : isFlowMark e = false) (he' : Json.isSpace e = false) :
        (t ++ r).head? ≠ some e := by
      cases t with
      | nil =>
        intro hhead
        rw [hr e hhead] at he
        cases he
      | cons d' t =>
        rintro ⟨⟩
        rw [ht _ List.mem_cons_self] at he'
        cases he'
    exact Cursor.atDocumentMark_plain hw.plain hrest (hnext '-' rfl rfl) (hnext '.' rfl rfl)
  obtain ⟨l₂, hsave, h₂, hcursor, -⟩ := h₁.saveCandidate?
  obtain ⟨broken, after, hread, hafter⟩ := Plain.read?_flow hw ht hr hmark hrest
  have hflow : l₂.inFlow = true := by simp [h₂.inFlow]
  have hstep : l₁.step? = some { l₂.push (.scalar true w) with
      cursor := after, keyAllowed := broken } := by
    have hfirst : ∀ e ∈ w.head?, e ∈ ['?', ':'] → l₁.inFlow = false := by
      rw [hcons]
      rintro e ⟨⟩ he
      exact absurd he hother
    rw [step?_plain hw.plain hrest hmark hfirst, plain?, hsave]
    simp only [Option.bind_eq_bind, Option.bind_some, least, h₂.columns, hcursor, hflow, hread]
  refine ⟨_, .of_step? hat hstep ?_, h₂.push (.scalar true w) after broken, hafter⟩
  show after.rest.length < _
  have hpos := List.length_pos_iff.mpr hword.ne_nil
  rw [List.length_append, List.length_append] at hle
  rw [hafter]
  omega

/-! ## Quoted texts -/

theorem InBrackets.step?_quoted {s t : Text} (h : InBrackets n ts l)
    (hs : Spelled Quoted.DoubleCode s t) (hrest : l.cursor.rest = '"' :: (t ++ '"' :: r)) :
    ∃ l', l.step? = some l' ∧ InBrackets n (ts ++ [.scalar false s]) l' ∧
      l'.cursor = l.cursor.past ('"' :: (t ++ ['"'])) ∧
      (l.keyAllowed = true → l'.candidate =
        some ⟨ts.length, false, l.cursor.index, l.cursor.line, l.cursor.column⟩) := by
  obtain ⟨l', hsave, h', hcursor, hcandidate⟩ := h.saveCandidate?
  refine ⟨_, ?_, h'.push (.scalar false s) (l.cursor.past ('"' :: (t ++ ['"']))) false, rfl,
    hcandidate⟩
  rw [step?_doubleQuote hrest, quoted?, hsave]
  simp only [Option.bind_eq_bind, Option.bind_some, hcursor, Quoted.read?_spelled hs hrest]

theorem rest_past_quoted {t : Text} {c : Cursor} (hrest : c.rest = '"' :: (t ++ '"' :: r)) :
    (c.past ('"' :: (t ++ ['"']))).rest = r := by
  refine Cursor.rest_past_of_eq ?_
  rw [hrest]
  simp

theorem startsToken_quote (r : Text) : StartsToken ('"' :: r) :=
  ⟨by rintro d ⟨⟩; decide, by simp⟩

/-- A text between double quotes on one line. -/
theorem reaches_flowQuoted {s t : Text} (hs : Spelled Quoted.DoubleCode s t)
    (h : Before n ts ('"' :: (t ++ '"' :: r)) l) :
    ∃ l', Reaches l l' ∧ InBrackets n (ts ++ [.scalar false s]) l' ∧ l'.cursor.rest = r := by
  obtain ⟨l₁, hat, h₁, hrest, hle, -⟩ := h.atToken? (startsToken_quote _)
  obtain ⟨l₂, hstep, h₂, hcursor, -⟩ := h₁.step?_quoted hs hrest
  have hafter : l₂.cursor.rest = r := by rw [hcursor, rest_past_quoted hrest]
  refine ⟨l₂, .of_step? hat hstep ?_, h₂, hafter⟩
  simp only [List.length_cons, List.length_append] at hle
  rw [hafter]
  omega

/-- A colon makes the text before it a name. -/
theorem InBrackets.step?_name {name : Token} {k : Candidate}
    (h : InBrackets (n + 1) (ts ++ [name]) l) (hcandidate : l.candidate = some k)
    (hposition : k.position = ts.length) (hrest : l.cursor.rest = ':' :: r) :
    ∃ l', l.step? = some l' ∧ InBrackets (n + 1) (ts ++ [.key, name, .value]) l' ∧
      l'.cursor.rest = r := by
  have hflow : l.inFlow = true := by simp [h.inFlow]
  have hopen : (l.insert k.position .key).openBlock k.column k.position .blockMappingStart =
      l.insert k.position .key := by
    have hflow' : (l.insert k.position .key).inFlow = true := hflow
    rw [openBlock, hflow']
    rfl
  have htokens : (l.insert k.position .key).tokens = (ts ++ [.key, name]).toArray := by
    show l.tokens.insertIdxIfInBounds k.position .key = _
    rw [h.tokens, hposition, List.insertIdxIfInBounds_toArray, insertIdx_length]
  have hafter : (l.cursor.skip 1).rest = r := cursor_skip_one hrest
  refine ⟨{ (l.insert k.position .key).take 1 .value with candidate := none, keyAllowed := false },
    ?_, ⟨?_, h.columns, h.depth, ?_⟩, hafter⟩
  · rw [step?_colon hrest (.inl hflow), value?, hcandidate]
    dsimp only
    rw [hopen]
  · show (l.insert k.position .key).tokens.push .value = _
    rw [htokens]
    simp
  · exact List.forall_mem_cons.mpr ⟨rfl, (List.forall_mem_cons.mp h.free).2⟩

/-- A name and its colon, which stands on the same line and near enough. -/
theorem reaches_flowName {s t gap : Text} (hs : Spelled Quoted.DoubleCode s t)
    (hgap : Json.IsBlank gap) (hline : gap.any isBreak = false)
    (hlength : t.length + gap.length + 2 ≤ 1024) (hkey : l.keyAllowed = true)
    (h : Before (n + 1) ts ('"' :: (t ++ '"' :: (gap ++ ':' :: r))) l) :
    ∃ l', Reaches l l' ∧ InBrackets (n + 1) (ts ++ [.key, .scalar false s, .value]) l' ∧
      l'.cursor.rest = r := by
  obtain ⟨l₁, hat₁, h₁, hrest₁, hle, hkey₁⟩ := h.atToken? (startsToken_quote _)
  obtain ⟨l₂, hstep₁, h₂, hcursor, hcandidate⟩ := h₁.step?_quoted hs hrest₁
  have hrest₂ : l₂.cursor.rest = gap ++ ':' :: r := by rw [hcursor, rest_past_quoted hrest₁]
  let k : Candidate := ⟨ts.length, false, l₁.cursor.index, l₁.cursor.line, l₁.cursor.column⟩
  have hquoted : ('"' :: (t ++ ['"'])).any isBreak = false := by
    rw [List.any_cons, List.any_append, Quoted.any_isBreak_spelled hs]
    rfl
  have hfresh : k.isStale (l₂.cursor.skip gap.length) = false := by
    have hindex : l₂.cursor.index = l₁.cursor.index + (t.length + 2) := by
      rw [hcursor, Cursor.index_past]
      simp
    have hsame : l₂.cursor.line = l₁.cursor.line := by rw [hcursor, Cursor.line_past hquoted]
    simp only [Candidate.isStale, Cursor.skip, hindex, hsame, Nat.lt_irrefl, k, decide_false,
      Bool.false_or, decide_eq_false_iff_not]
    omega
  have hblank : ∀ d ∈ gap, d = ' ' ∨ (d = '\t' ∧ (l₂.inFlow || !l₂.keyAllowed) = true) := by
    intro d hd
    have hspace : isSpace d = true := by
      rcases space_or_break_of_blank (hgap d hd) with hspace | hbreak
      · exact hspace.1
      · refine absurd (List.any_eq_true.mpr ⟨d, hd, ?_⟩) (by rw [hline]; exact Bool.false_ne_true)
        rcases hbreak with rfl | rfl <;> rfl
    simp only [isSpace, Bool.or_eq_true, decide_eq_true_eq] at hspace
    exact hspace.imp_right fun htab => ⟨htab, by simp [h₂.inFlow]⟩
  have hcolon : StartsToken (':' :: r) := ⟨by rintro d ⟨⟩; decide, by simp⟩
  obtain ⟨l₃, hat₂, h₃, hrest₃, -, hkept⟩ := h₂.atToken? hblank (List.forall_mem_nil _) (by simp)
    hcolon (by rw [hrest₂, List.nil_append])
  obtain ⟨l₄, hstep₂, h₄, hrest₄⟩ :=
    h₃.step?_name (hkept rfl k (hcandidate (hkey₁ hkey)) hfresh) rfl hrest₃
  have hfirst : l₂.cursor.rest.length < l.cursor.rest.length := by
    simp only [List.length_cons, List.length_append] at hle
    rw [hrest₂, List.length_append, List.length_cons]
    omega
  have hsecond : l₄.cursor.rest.length < l₂.cursor.rest.length := by
    rw [hrest₄, hrest₂, List.length_append, List.length_cons]
    omega
  have hboth := (Reaches.of_step? hat₁ hstep₁ hfirst).trans (.of_step? hat₂ hstep₂ hsecond)
  exact ⟨l₄, hboth, h₄, hrest₄⟩

end

end Stencil.Yaml.Lexer
