import Stencil.Proofs.Yaml.PlainText
import Stencil.Yaml.Block
import Stencil.Yaml.Printer

/-!
# Reading block text

A text that is written on lines of its own is read back as it is: the header says where its lines
start when they do not show it themselves, and what becomes of the breaks at its end.
-/

namespace Stencil.Yaml.Block

/-! ## The header -/

/-- The sign for the breaks after the last line. -/
def Chomping.sign : Chomping → Text
  | .clip => []
  | .strip => ['-']
  | .keep => ['+']

/-- What has to become of the breaks at the end, so that the text is read back. -/
def chompingOf (t : Text) : Chomping :=
  match t.reverse with
  | c :: rest => if !isBreak c then .strip else if rest.head?.all isBreak then .keep else .clip
  | [] => .strip

/-- Whether the text does not show by itself where its lines start. -/
def needsHint (t : Text) : Bool := t.head?.any fun c => c = ' ' || isBreak c

theorem literalHeader_eq (t : Text) :
    Scalar.literalHeader t = (if needsHint t then ['2'] else []) ++ (chompingOf t).sign := by
  rw [Scalar.literalHeader, chompingOf]
  congr 1
  cases t.reverse with
  | nil => rfl
  | cons c rest =>
    dsimp only
    split
    · rfl
    · split <;> rfl

theorem header?_append {hint : Bool} {chomping : Chomping} {c : Cursor} {r : Text}
    (hrest : c.rest = (if hint then ['2'] else []) ++ (chomping.sign ++ '\n' :: r)) :
    header? c = some (⟨chomping, if hint then some 2 else none⟩,
      c.past ((if hint then ['2'] else []) ++ (chomping.sign ++ ['\n']))) := by
  obtain ⟨rest, index, line, column⟩ := c
  subst hrest
  cases hint <;> cases chomping <;> rfl

/-! ## Blank lines -/

theorem run_spaces {n : Nat} {t : Text} {c : Cursor} (hrest : c.rest = Text.fill n ' ' ++ t) :
    (c.run (· = ' ')).length = n + (t.takeWhile (· = ' ')).length := by
  have hall : ∀ d ∈ Text.fill n ' ', (decide (d = ' ') && !isBreak d) = true := by
    intro d hd
    rw [List.eq_of_mem_replicate hd]
    rfl
  have hsame : (fun d : Char => decide (d = ' ') && !isBreak d) = fun d => decide (d = ' ') := by
    funext d
    by_cases hd : d = ' '
    · rw [hd]
      rfl
    · simp [hd]
  rw [Cursor.run, hrest, List.takeWhile_append_of_pos hall, List.length_append, hsame, Text.fill,
    List.length_replicate]

theorem run_spaces_of_head {n : Nat} {t : Text} (ht : t.head? ≠ some ' ') {c : Cursor}
    (hrest : c.rest = Text.fill n ' ' ++ t) : (c.run (· = ' ')).length = n := by
  have hspaces : ∀ d ∈ Text.fill n ' ', d = ' ' := fun d hd => List.eq_of_mem_replicate hd
  have hrun : c.run (· = ' ') = Text.fill n ' ' := by
    refine Cursor.run_eq hrest (fun d hd => ?_) fun d hd => .inl ?_
    · rw [hspaces d hd]
      exact ⟨rfl, rfl⟩
    · exact decide_eq_false fun h => ht (h ▸ hd)
  rw [hrun, Text.fill, List.length_replicate]

/-- Whether a line of the text, or the next line after it, starts here after the spaces that count
as indentation. -/
structure StartsAt (indent m : Nat) (t : Text) : Prop where
  le : m ≤ indent
  full : m = indent ∨ t.head? ≠ some ' '
  no_break : ∀ d ∈ t.head?, isBreak d = false
  no_tab : t.head? ≠ some '\t'

/-- What ends a gap starts the next line, however deep that is indented. -/
theorem startsAt_of_endsGap {indent m : Nat} (hm : m ≤ indent) {t : Text} (ht : EndsGap t) :
    StartsAt indent m t where
  le := hm
  full := .inr fun h => by simpa [isSpace] using (ht ' ' h).1
  no_break d hd := (ht d hd).2
  no_tab h := by simpa [isSpace] using (ht '\t' h).1

/-- The spaces that count as indentation are passed over, and then the break of a blank line. -/
theorem breaks?_line (indent : Option Nat) {m : Nat} {t : Text} {c : Cursor}
    (hspaces : (indent.elim (c.run (· = ' ')).length fun n =>
      min (c.run (· = ' ')).length (n - c.column)) = m)
    (htab : t.head? ≠ some '\t') (hrest : c.rest = Text.fill m ' ' ++ t) (fuel deepest : Nat) :
    breaks? indent (fuel + 1) deepest c =
      (c.past (Text.fill m ' ')).lineBreak?.elim
        (some ([], max deepest (c.past (Text.fill m ' ')).column, c.past (Text.fill m ' ')))
        fun b => (breaks? indent fuel (max deepest (c.past (Text.fill m ' ')).column) b.2).map
          fun found => (b.1 :: found.1, found.2) := by
  have hskip : c.skip m = c.past (Text.fill m ' ') := by
    rw [Cursor.past_of_no_break (any_isBreak_fill m), Text.fill, List.length_replicate]
  have hnoTab : (c.past (Text.fill m ' ')).rest.head? ≠ some '\t' := by
    rwa [Cursor.rest_past_of_eq hrest]
  cases indent <;>
  · rw [breaks?]
    simp only [Option.elim] at hspaces
    simp only [hspaces, hskip]
    rw [if_neg (by simp [hnoTab])]
    cases (c.past (Text.fill m ' ')).lineBreak? <;> rfl

/-- The breaks of blank lines are read up to the next line that is not blank. -/
theorem breaks?_append {indent m : Nat} {bs t : Text} (hbs : ∀ b ∈ bs, Scalar.isPrintable b = true ∧
      isBreak b = true) (ht : StartsAt indent m t) {fuel : Nat} (hfuel : bs.length < fuel)
    (deepest : Nat) {c : Cursor} (hcolumn : c.column = 0)
    (hrest : c.rest = bs ++ (Text.fill m ' ' ++ t)) :
    ∃ found, breaks? (some indent) fuel deepest c =
      some (bs, found, c.past (bs ++ Text.fill m ' ')) := by
  induction bs generalizing fuel deepest c with
  | nil =>
    obtain ⟨fuel, rfl⟩ := Nat.exists_eq_succ_of_ne_zero (n := fuel) (by omega)
    have hspaces : min (c.run (· = ' ')).length (indent - c.column) = m := by
      rw [hcolumn]
      rcases ht.full with rfl | hhead
      · rw [run_spaces hrest]
        omega
      · rw [run_spaces_of_head hhead hrest]
        exact Nat.min_eq_left ht.le
    have hrest' : (c.past (Text.fill m ' ')).rest = t := Cursor.rest_past_of_eq hrest
    have hnone : (c.past (Text.fill m ' ')).lineBreak? = none :=
      Cursor.lineBreak?_eq_none (by rw [hrest']; exact ht.no_break)
    refine ⟨max deepest (c.past (Text.fill m ' ')).column, ?_⟩
    rw [breaks?_line (some indent) hspaces ht.no_tab hrest, hnone, Option.elim_none,
      List.nil_append]
  | cons b bs ih =>
    rw [List.length_cons] at hfuel
    obtain ⟨fuel, rfl⟩ := Nat.exists_eq_succ_of_ne_zero (n := fuel) (by omega)
    obtain ⟨⟨hp, hb⟩, hbs⟩ := List.forall_mem_cons.mp hbs
    have hblank : b ≠ ' ' ∧ b ≠ '\t' := by
      constructor <;>
      · rintro rfl
        cases hb
    -- A blank line has no indentation.
    have hline : c.rest = Text.fill 0 ' ' ++ (b :: (bs ++ (Text.fill m ' ' ++ t))) := hrest
    have hspaces : min (c.run (· = ' ')).length (indent - c.column) = 0 := by
      rw [run_spaces_of_head (by simp [hblank]) hline]
      exact Nat.zero_min _
    have hrest' : (c.past [b]).rest = bs ++ (Text.fill m ' ' ++ t) := Cursor.rest_past_of_eq hrest
    have hcolumn' : (c.past [b]).column = 0 := by rw [Cursor.past_cons_break hb, Cursor.past_nil]
    obtain ⟨found, hread⟩ := ih hbs (show bs.length < fuel by omega) (max deepest c.column)
      hcolumn' hrest'
    have hfill : c.past (Text.fill 0 ' ') = c := rfl
    refine ⟨found, ?_⟩
    rw [breaks?_line (some indent) hspaces (by simp [hblank]) hline, hfill,
      Cursor.lineBreak?_of_printable hrest hp hb, Option.elim_some, hread, Option.map_some,
      ← Cursor.past_append, List.singleton_append, List.cons_append]

/-- Where no indentation is given, the first line shows it. -/
theorem breaks?_first {n : Nat} {t : Text} (hspace : t.head? ≠ some ' ')
    (hbreak : ∀ d ∈ t.head?, isBreak d = false) (htab : t.head? ≠ some '\t') {fuel : Nat}
    (hfuel : 0 < fuel) {c : Cursor} (hcolumn : c.column = 0)
    (hrest : c.rest = Text.fill n ' ' ++ t) :
    breaks? none fuel 0 c = some ([], n, c.past (Text.fill n ' ')) := by
  obtain ⟨fuel, rfl⟩ := Nat.exists_eq_succ_of_ne_zero (n := fuel) (by omega)
  have hrest' : (c.past (Text.fill n ' ')).rest = t := Cursor.rest_past_of_eq hrest
  have hcolumn' : max 0 (c.past (Text.fill n ' ')).column = n := by
    rw [Cursor.column_past (any_isBreak_fill n), hcolumn, Text.fill, List.length_replicate]
    omega
  have hnone : (c.past (Text.fill n ' ')).lineBreak? = none :=
    Cursor.lineBreak?_eq_none (by rw [hrest']; exact hbreak)
  rw [breaks?_line none (run_spaces_of_head hspace hrest) htab hrest, hnone,
    Option.elim_none, hcolumn']

/-! ## Lines -/

theorem run_line {line t : Text} {b : Char} (hline : ∀ d ∈ line, isBreak d = false)
    (hb : isBreak b = true) {c : Cursor} (hrest : c.rest = line ++ b :: t) :
    c.run (fun _ => true) = line := by
  refine Cursor.run_eq hrest (fun d hd => ⟨rfl, hline d hd⟩) ?_
  rintro d ⟨⟩
  exact .inr hb

/-- A line is read with its break and the blank lines after it. -/
theorem lines?_line {column m : Nat} {line bs t : Text} {b : Char}
    (hline : ∀ d ∈ line, isBreak d = false)
    (hbs : ∀ d ∈ b :: bs, Scalar.isPrintable d = true ∧ isBreak d = true)
    (ht : StartsAt column m t) {fuel : Nat} (last breaks : Text) (deeper : Bool) {c : Cursor}
    (hcolumn : c.column = column) (hrest : c.rest = line ++ b :: (bs ++ (Text.fill m ' ' ++ t))) :
    lines? true column (fuel + 1) last deeper breaks c =
      (lines? true column fuel [b] (isDeeper line) bs
        (c.past (line ++ b :: (bs ++ Text.fill m ' ')))).map fun (t, rest) =>
          (last ++ breaks ++ line ++ t, rest) := by
  obtain ⟨⟨hp, hb⟩, hbs⟩ := List.forall_mem_cons.mp hbs
  have hopen : c.column = column ∧ (!c.rest.isEmpty) = true := ⟨hcolumn, by rw [hrest]; simp⟩
  have hnoBreak : line.any isBreak = false := by
    rw [← Bool.not_eq_true, List.any_eq_true]
    rintro ⟨d, hd, h⟩
    rw [hline d hd] at h
    cases h
  have hskip : c.skip line.length = c.past line := (Cursor.past_of_no_break hnoBreak c).symm
  have hrest' : (c.past line).rest = b :: (bs ++ (Text.fill m ' ' ++ t)) :=
    Cursor.rest_past_of_eq hrest
  have hrest'' : ((c.past line).past [b]).rest = bs ++ (Text.fill m ' ' ++ t) :=
    Cursor.rest_past_of_eq hrest'
  have hcolumn' : ((c.past line).past [b]).column = 0 := by
    rw [Cursor.past_cons_break hb, Cursor.past_nil]
  obtain ⟨found, hbreaks⟩ := breaks?_append hbs ht
    (show bs.length < ((c.past line).past [b]).rest.length + 1 by
      rw [hrest'', List.length_append]; omega) 0 hcolumn' hrest''
  have hpast : ((c.past line).past [b]).past (bs ++ Text.fill m ' ') =
      c.past (line ++ b :: (bs ++ Text.fill m ' ')) := by
    rw [← Cursor.past_append, ← Cursor.past_append]
    rfl
  have hjoint : joint false last breaks = last ++ breaks := rfl
  rw [lines?, if_pos hopen]
  simp only [run_line hline hb hrest, hskip, Cursor.lineBreak?_of_printable hrest' hp hb, hbreaks,
    hpast, Option.bind_eq_bind, Option.bind_some, Bool.not_true, Bool.false_and, hjoint]
  cases lines? true column fuel [b] (isDeeper line) bs
    (c.past (line ++ b :: (bs ++ Text.fill m ' ')))
  · rfl
  · rfl

theorem lines?_end {column : Nat} {c : Cursor} (h : c.column ≠ column) (fuel : Nat)
    (last breaks : Text) (deeper : Bool) :
    lines? true column (fuel + 1) last deeper breaks c = some ([], last, breaks, c) := by
  rw [lines?, if_neg (fun hopen => h hopen.1)]

/-- The lines of a text as they are written. -/
def literalLines (column : Nat) (fresh : Bool) (t : Text) : Text :=
  Scalar.lines column false (fun c => [c]) fresh t

/-- The break that ends the last line, where the text has none itself. -/
def closing (t : Text) : Text := if t.getLast?.any isBreak then [] else ['\n']

theorem literalLines_line {line t : Text} (hline : ∀ d ∈ line, isBreak d = false) (column : Nat) :
    literalLines column false (line ++ t) = line ++ literalLines column false t := by
  induction line with
  | nil => rfl
  | cons d line ih =>
    obtain ⟨hd, hline⟩ := List.forall_mem_cons.mp hline
    have := ih hline
    rw [literalLines] at this ⊢
    rw [List.cons_append, Scalar.lines_char hd, this]
    rfl

theorem literalLines_breaks {bs : Text} (hbs : ∀ b ∈ bs, isBreak b = true) (hne : bs ≠ [])
    (column : Nat) (fresh : Bool) (t : Text) :
    literalLines column fresh (bs ++ t) = bs ++ literalLines column true t :=
  Scalar.lines_breaks hbs hne

theorem literalLines_of_breaks {bs : Text} (hbs : ∀ b ∈ bs, isBreak b = true) (column : Nat)
    (fresh : Bool) : literalLines column fresh bs = bs := by
  cases bs with
  | nil => cases fresh <;> rfl
  | cons b bs =>
    have h := literalLines_breaks hbs (List.cons_ne_nil b bs) column fresh []
    have hnil : literalLines column true [] = [] := rfl
    rwa [hnil, List.append_nil] at h

theorem literalLines_fresh {t : Text} (ht : t ≠ []) (hbreak : ∀ d ∈ t.head?, isBreak d = false)
    (column : Nat) :
    literalLines column true t = Text.fill column ' ' ++ literalLines column false t :=
  Scalar.lines_fresh ht hbreak

/-- Blank lines come first, and the first other line is indented. -/
theorem literalLines_lead {lead main : Text} (hlead : ∀ d ∈ lead, isBreak d = true)
    (hne : main ≠ [])
    (hmain : ∀ d ∈ main.head?, isBreak d = false) (column : Nat) :
    literalLines column true (lead ++ main) =
      lead ++ (Text.fill column ' ' ++ literalLines column false main) := by
  by_cases hlead' : lead = []
  · rw [hlead', List.nil_append, literalLines_fresh hne hmain, List.nil_append]
  · rw [literalLines_breaks hlead hlead', literalLines_fresh hne hmain]

theorem column_lead {lead : Text} (hlead : ∀ d ∈ lead, isBreak d = true) {c : Cursor}
    (hcolumn : c.column = 0) (n : Nat) : (c.past (lead ++ Text.fill n ' ')).column = n := by
  have hn : (Text.fill n ' ').length = n := List.length_replicate
  cases lead with
  | nil => rw [List.nil_append, Cursor.column_past (any_isBreak_fill n), hcolumn, hn, Nat.zero_add]
  | cons b lead =>
    have h := Cursor.column_past_breaks (s := []) hlead (any_isBreak_fill n) c
    rwa [hn] at h

theorem startsAt_literalLines {t : Text} (ht : t ≠ [])
    (hprintable : ∀ d ∈ t, Scalar.isPrintable d = true) (hbreak : ∀ d ∈ t.head?, isBreak d = false)
    (column : Nat) (r : Text) : StartsAt column column (literalLines column false t ++ r) := by
  obtain ⟨d, t, rfl⟩ := List.exists_cons_of_ne_nil ht
  have hd : isBreak d = false := hbreak d rfl
  obtain ⟨t', ht'⟩ : ∃ t', literalLines column false (d :: t) = d :: t' := ⟨_, Scalar.lines_char hd⟩
  have htab : d ≠ '\t' := by
    rintro rfl
    exact absurd (hprintable '\t' List.mem_cons_self) (by decide)
  rw [ht']
  exact ⟨Nat.le_refl column, .inl rfl, by simpa using hd, by simpa using htab⟩

theorem length_le_literalLines (t : Text) (column : Nat) (fresh : Bool) :
    t.length ≤ (literalLines column fresh t).length := by
  induction t generalizing fresh with
  | nil => exact Nat.zero_le _
  | cons d t ih =>
    have h := ih (isBreak d)
    rw [literalLines] at h ⊢
    rw [Scalar.lines]
    split
    · rename_i hd
      rw [hd] at h
      exact Nat.succ_le_succ h
    · rename_i hd
      rw [Bool.not_eq_true] at hd
      rw [hd] at h
      simp only [List.length_append, List.length_cons, List.length_nil]
      omega

theorem closing_append {s t : Text} (ht : t ≠ []) : closing (s ++ t) = closing t := by
  rw [closing, closing, List.getLast?_append]
  cases h : t.getLast? with
  | none => exact absurd (List.getLast?_eq_none_iff.mp h) ht
  | some d => rfl

theorem closing_of_not_break {t : Text} (h : ∀ d ∈ t.getLast?, isBreak d = false) :
    closing t = ['\n'] := by
  rw [closing, if_neg]
  cases ht : t.getLast? with
  | none => simp
  | some d => simp [h d ht]

theorem closing_of_break {t : Text} (h : t ≠ []) (hbreak : ∀ d ∈ t, isBreak d = true) :
    closing t = [] := by
  rw [closing, if_pos]
  rw [List.getLast?_eq_some_getLast h]
  exact hbreak _ (List.getLast_mem h)

/-- The parts of a text and its last break: what stands before the breaks at the end, and these. -/
structure Parts (t body : Text) (b : Char) (bs : Text) : Prop where
  eq : t ++ closing t = body ++ b :: bs
  breaks : ∀ d ∈ b :: bs, isBreak d = true
  ne_nil : body ≠ []
  last : ∀ d ∈ body.getLast?, isBreak d = false

/-- A text that begins with a line that is not blank. This is the last one, with the breaks that may
end it, or it has breaks and further lines after it. -/
inductive Lined : Text → Prop
  | last {line bs : Text} (ne_nil : line ≠ []) (noBreak : ∀ d ∈ line, isBreak d = false)
      (breaks : ∀ d ∈ bs, isBreak d = true) : Lined (line ++ bs)
  | further {line bs t : Text} {b : Char} (ne_nil : line ≠ [])
      (noBreak : ∀ d ∈ line, isBreak d = false) (breaks : ∀ d ∈ b :: bs, isBreak d = true)
      (h : Lined t) : Lined (line ++ b :: (bs ++ t))

theorem lined {t : Text} (hne : t ≠ []) (hhead : ∀ d ∈ t.head?, isBreak d = false) : Lined t := by
  induction hlength : t.length using Nat.strongRecOn generalizing t with
  | ind length ih =>
    obtain ⟨line, rest, rfl, hline, hrest⟩ := exists_span (fun d => !isBreak d) t
    have hline : ∀ d ∈ line, isBreak d = false := fun d hd => by simpa using hline d hd
    have hlineNe : line ≠ [] := by
      rintro rfl
      obtain ⟨d, rest, rfl⟩ := List.exists_cons_of_ne_nil hne
      have h := hrest d rfl
      rw [hhead d rfl] at h
      cases h
    obtain ⟨bs, t, rfl, hbs, ht⟩ := exists_span isBreak rest
    cases bs with
    | nil =>
      -- What follows the line begins with a break, if anything does.
      cases t with
      | nil => exact .last hlineNe hline hbs
      | cons d t =>
        have h := hrest d rfl
        rw [ht d rfl] at h
        cases h
    | cons b bs =>
      by_cases hend : t = []
      · rw [hend, List.append_nil]
        exact .last hlineNe hline hbs
      · exact .further hlineNe hline hbs (ih t.length (by simp at hlength; omega) hend ht rfl)

theorem Lined.ne_nil {t : Text} (h : Lined t) : t ≠ [] := by
  cases h with
  | last ne_nil _ _ => exact List.append_ne_nil_of_left_ne_nil ne_nil _
  | further ne_nil _ _ _ => exact List.append_ne_nil_of_left_ne_nil ne_nil _

theorem Lined.head_noBreak {t : Text} (h : Lined t) : ∀ d ∈ t.head?, isBreak d = false := by
  have hhead {line rest : Text} (hne : line ≠ []) (hline : ∀ d ∈ line, isBreak d = false) :
      ∀ d ∈ (line ++ rest).head?, isBreak d = false := by
    obtain ⟨e, line, rfl⟩ := List.exists_cons_of_ne_nil hne
    intro d hd
    obtain rfl : e = d := Option.some.inj hd
    exact hline e List.mem_cons_self
  cases h with
  | last ne_nil noBreak _ => exact hhead ne_nil noBreak
  | further ne_nil noBreak _ _ => exact hhead ne_nil noBreak

/-- After the last line stands a break, which is written after the text where it has none. -/
theorem exists_closed {line bs : Text} (hline : ∀ d ∈ line, isBreak d = false)
    (hprintable : ∀ d ∈ bs, Scalar.isPrintable d = true) (hbs : ∀ d ∈ bs, isBreak d = true) :
    ∃ b bs', bs ++ closing (line ++ bs) = b :: bs' ∧
      ∀ d ∈ b :: bs', Scalar.isPrintable d = true ∧ isBreak d = true := by
  cases bs with
  | nil =>
    rw [List.append_nil, closing_of_not_break fun d hd => hline d (List.mem_of_getLast? hd)]
    exact ⟨'\n', [], rfl, List.forall_mem_singleton.mpr (by decide)⟩
  | cons b bs =>
    have hne := List.cons_ne_nil b bs
    rw [closing_append hne, closing_of_break hne hbs, List.append_nil]
    exact ⟨b, bs, rfl, fun d hd => ⟨hprintable d hd, hbs d hd⟩⟩

section
variable {column k : Nat} (hk : k < column) {r : Text} (hr : EndsGap r)
include hk hr

/-- The last line is read with the breaks that end it. -/
theorem lines?_last {line bs : Text} (hne : line ≠ []) (hline : ∀ d ∈ line, isBreak d = false)
    (hprintable : ∀ d ∈ bs, Scalar.isPrintable d = true) (hbs : ∀ d ∈ bs, isBreak d = true)
    (fuel : Nat) (last breaks : Text) (deeper : Bool) {c : Cursor} (hcolumn : c.column = column)
    (hrest : c.rest = literalLines column false (line ++ bs) ++
      (closing (line ++ bs) ++ (Text.fill k ' ' ++ r))) :
    ∃ b bs', Parts (line ++ bs) line b bs' ∧
      lines? true column (fuel + 2) last deeper breaks c =
        some (last ++ breaks ++ line, [b], bs', c.past
          (literalLines column false (line ++ bs) ++ (closing (line ++ bs) ++ Text.fill k ' '))) := by
  obtain ⟨b, bs', hclosed, hbs'⟩ := exists_closed hline hprintable hbs
  have hbreaks : ∀ d ∈ b :: bs', isBreak d = true := fun d hd => (hbs' d hd).2
  have hprinted (s : Text) : literalLines column false (line ++ bs) ++
      (closing (line ++ bs) ++ s) = line ++ b :: (bs' ++ s) := by
    rw [literalLines_line hline, literalLines_of_breaks hbs, List.append_assoc,
      ← List.append_assoc bs, hclosed]
    rfl
  have hcolumn' : (c.past (line ++ b :: (bs' ++ Text.fill k ' '))).column ≠ column := by
    rw [Cursor.column_past_breaks hbreaks (any_isBreak_fill k), Text.fill, List.length_replicate]
    exact Nat.ne_of_lt hk
  have hnext := startsAt_of_endsGap (Nat.le_of_lt hk) hr
  refine ⟨b, bs', ⟨?_, hbreaks, hne, fun d hd => hline d (List.mem_of_getLast? hd)⟩, ?_⟩
  · rw [List.append_assoc, hclosed]
  · rw [hprinted] at hrest
    rw [hprinted, lines?_line hline hbs' hnext last breaks deeper hcolumn hrest,
      lines?_end hcolumn']
    simp

/-- The lines of a text are read up to the next line that is not indented as deep. -/
theorem lines?_append {t : Text} (ht : Lined t)
    (hprintable : ∀ d ∈ t, Scalar.isPrintable d = true) {fuel : Nat} (hfuel : t.length < fuel)
    (last breaks : Text) (deeper : Bool) {c : Cursor} (hcolumn : c.column = column)
    (hrest : c.rest = literalLines column false t ++ (closing t ++ (Text.fill k ' ' ++ r))) :
    ∃ body b bs, Parts t body b bs ∧ lines? true column fuel last deeper breaks c =
      some (last ++ breaks ++ body, [b], bs,
        c.past (literalLines column false t ++ (closing t ++ Text.fill k ' '))) := by
  induction ht generalizing fuel last breaks deeper c with
  | @last line bs hne hline hbs =>
    have hpos := List.length_pos_iff.mpr hne
    rw [List.length_append] at hfuel
    obtain ⟨fuel, rfl⟩ : ∃ n, fuel = n + 2 := ⟨fuel - 2, by omega⟩
    have hprintable' : ∀ d ∈ bs, Scalar.isPrintable d = true :=
      fun d hd => hprintable d (List.mem_append_right line hd)
    exact ⟨line, lines?_last hk hr hne hline hprintable' hbs fuel last breaks deeper hcolumn hrest⟩
  | @further line bs t b hne hline hbs ht ih =>
    have hbs' : ∀ d ∈ b :: bs, Scalar.isPrintable d = true ∧ isBreak d = true := by
      refine fun d hd => ⟨hprintable d (List.mem_append_right line ?_), hbs d hd⟩
      rw [← List.cons_append]
      exact List.mem_append_left t hd
    have hprintable' : ∀ d ∈ t, Scalar.isPrintable d = true :=
      fun d hd => hprintable d (by simp [hd])
    have hsplit : line ++ b :: (bs ++ t) = line ++ (b :: bs) ++ t := by simp
    have hclosing : closing (line ++ b :: (bs ++ t)) = closing t := by
      rw [hsplit, closing_append ht.ne_nil]
    have hprinted (s : Text) : literalLines column false (line ++ b :: (bs ++ t)) ++
        (closing (line ++ b :: (bs ++ t)) ++ s) = line ++ b :: (bs ++ (Text.fill column ' ' ++
          (literalLines column false t ++ (closing t ++ s)))) := by
      rw [hclosing, literalLines_line hline, ← List.cons_append,
        literalLines_breaks hbs (List.cons_ne_nil b bs),
        literalLines_fresh ht.ne_nil ht.head_noBreak]
      simp
    have hstart : StartsAt column column
        (literalLines column false t ++ (closing t ++ (Text.fill k ' ' ++ r))) :=
      startsAt_literalLines ht.ne_nil hprintable' ht.head_noBreak column _
    rw [hprinted] at hrest
    -- The further lines begin behind the indentation.
    let c' := c.past (line ++ b :: (bs ++ Text.fill column ' '))
    have hcolumn' : c'.column = column := by
      have h := Cursor.column_past_breaks (s := line) hbs (any_isBreak_fill column) c
      rwa [Text.fill, List.length_replicate] at h
    have hrest' : c'.rest =
        literalLines column false t ++ (closing t ++ (Text.fill k ' ' ++ r)) :=
      Cursor.rest_past_of_eq (by rw [hrest]; simp)
    obtain ⟨fuel, rfl⟩ := Nat.exists_eq_succ_of_ne_zero (n := fuel) (by omega)
    have hfuel' : t.length < fuel := by
      simp only [List.length_append, List.length_cons] at hfuel
      omega
    obtain ⟨body, b', bs', hparts, hread⟩ :=
      ih hprintable' hfuel' [b] bs (isDeeper line) hcolumn' hrest'
    refine ⟨line ++ (b :: bs) ++ body, b', bs', ⟨?_, hparts.breaks, by simp, ?_⟩, ?_⟩
    · rw [hclosing, hsplit, List.append_assoc, hparts.eq, List.append_assoc _ body]
    · rw [List.getLast?_append, List.getLast?_eq_some_getLast hparts.ne_nil, Option.some_or,
        ← List.getLast?_eq_some_getLast hparts.ne_nil]
      exact hparts.last
    · rw [lines?_line hline hbs' hstart last breaks deeper hcolumn hrest, hread, hprinted,
        ← Cursor.past_append]
      simp

end

/-! ## The whole text -/

theorem chompingOf_concat (s : Text) (d : Char) :
    chompingOf (s ++ [d]) =
      if !isBreak d then .strip else if s.getLast?.all isBreak then .keep else .clip := by
  rw [chompingOf, List.reverse_concat]
  dsimp only
  rw [List.head?_reverse]

theorem Parts.split {t body bs : Text} {b : Char} (h : Parts t body b bs) :
    (t = body ∧ bs = []) ∨ t = body ++ b :: bs := by
  have heq := h.eq
  by_cases hclosing : t.getLast?.any isBreak = true
  · rw [closing, if_pos hclosing, List.append_nil] at heq
    exact .inr heq
  · rw [closing, if_neg hclosing] at heq
    rcases List.eq_nil_or_concat bs with rfl | ⟨front, d, rfl⟩
    · exact .inl ⟨(List.append_inj' heq rfl).1, rfl⟩
    · -- The text would end in a break.
      have hlast : t = body ++ b :: front := by
        have hends : t ++ ['\n'] = (body ++ b :: front) ++ [d] := by
          rw [heq]
          simp
        exact (List.append_inj' hends rfl).1
      refine absurd ?_ hclosing
      have hbreak := h.breaks
      rw [hlast, List.getLast?_append, List.getLast?_eq_some_getLast (List.cons_ne_nil b front)]
      refine hbreak _ ?_
      have := List.getLast_mem (List.cons_ne_nil b front)
      simp only [List.concat_eq_append, List.mem_cons, List.mem_append] at this ⊢
      tauto

/-- What becomes of the breaks after the last line makes the end of the text. -/
def ending (chomping : Chomping) (last breaks : Text) : Text :=
  match chomping with
  | .strip => []
  | .clip => last
  | .keep => last ++ breaks

theorem Parts.append_ending {lead t body bs : Text} {b : Char} (h : Parts t body b bs) :
    lead ++ body ++ ending (chompingOf (lead ++ t)) [b] bs = lead ++ t := by
  obtain ⟨front, d, rfl⟩ := List.eq_nil_or_concat body |>.resolve_left h.ne_nil
  have hd : isBreak d = false := h.last d (by simp)
  rcases h.split with ⟨rfl, rfl⟩ | rfl
  · rw [List.concat_eq_append, ← List.append_assoc, chompingOf_concat, hd]
    simp [ending]
  · rcases List.eq_nil_or_concat bs with rfl | ⟨bs, e, rfl⟩
    · have hb := h.breaks b (by simp)
      rw [← List.append_assoc, chompingOf_concat, hb]
      simp [ending, hd]
    · have he := h.breaks e (by simp)
      have hsplit : lead ++ (front.concat d ++ b :: bs.concat e) =
          (lead ++ front.concat d ++ b :: bs) ++ [e] := by simp
      have hkeep : (lead ++ front.concat d ++ b :: bs).getLast?.all isBreak = true := by
        rw [List.getLast?_append, List.getLast?_eq_some_getLast (List.cons_ne_nil b bs)]
        refine h.breaks _ ?_
        have := List.getLast_mem (List.cons_ne_nil b bs)
        simp only [List.concat_eq_append, List.mem_cons, List.mem_append] at this ⊢
        tauto
      rw [hsplit, chompingOf_concat, he, hkeep]
      simp [ending]

theorem chompingOf_breaks {bs : Text} (hne : bs ≠ []) (hbs : ∀ b ∈ bs, isBreak b = true) :
    chompingOf bs = .keep := by
  obtain ⟨front, d, rfl⟩ := List.eq_nil_or_concat bs |>.resolve_left hne
  have hkeep : front.getLast?.all isBreak = true := by
    cases h : front.getLast? with
    | none => rfl
    | some e => exact hbs e (by simp [List.mem_of_getLast? h])
  rw [List.concat_eq_append, chompingOf_concat, hbs d (by simp), hkeep]
  rfl

theorem getLast?_literalLines {t : Text} (ht : t ≠ []) (column : Nat) (fresh : Bool) :
    (literalLines column fresh t).getLast? = t.getLast? := by
  induction t generalizing fresh with
  | nil => exact absurd rfl ht
  | cons d t ih =>
    have hfurther (fresh : Bool) (s : Text) :
        (s ++ d :: literalLines column fresh t).getLast? = (d :: t).getLast? := by
      cases t with
      | nil =>
        cases fresh <;> simp [literalLines, Scalar.lines]
      | cons e t =>
        have hlast := ih (List.cons_ne_nil e t) fresh
        rw [List.getLast?_cons_cons, ← hlast, List.getLast?_append, ← List.singleton_append,
          List.getLast?_append, hlast, List.getLast?_eq_some_getLast (List.cons_ne_nil e t)]
        rfl
    rw [literalLines, Scalar.lines]
    split
    · exact hfurther true []
    · rw [List.append_assoc]
      exact hfurther false _

/-- What is written after the bar, up to the first line. -/
def headerLine (t : Text) : Text :=
  (if needsHint t then ['2'] else []) ++ ((chompingOf t).sign ++ ['\n'])

theorem endLine_literal {t : Text} (ht : t ≠ []) (column : Nat) :
    endLine (Scalar.print column t .literal) =
      '|' :: (headerLine t ++ (literalLines column true t ++ closing t)) := by
  have hlast : (Scalar.print column t .literal).getLast? = t.getLast? := by
    have hsplit : Scalar.print column t .literal =
        '|' :: (Scalar.literalHeader t ++ ['\n']) ++ literalLines column true t := by
      simp [Scalar.print, literalLines]
    rw [hsplit, List.getLast?_append, getLast?_literalLines ht, List.getLast?_eq_some_getLast ht]
    rfl
  rw [endLine, hlast, closing, Scalar.print, literalHeader_eq, headerLine]
  split <;> simp [literalLines]

theorem header?_headerLine {t r : Text} {c : Cursor} (hrest : c.rest = headerLine t ++ r) :
    header? c =
      some (⟨chompingOf t, if needsHint t then some 2 else none⟩, c.past (headerLine t)) := by
  rw [headerLine, List.append_assoc, List.append_assoc] at hrest
  exact header?_append hrest

theorem column_headerLine (t : Text) (c : Cursor) : (c.past (headerLine t)).column = 0 := by
  have hline : headerLine t =
      ((if needsHint t then ['2'] else []) ++ (chompingOf t).sign) ++ ['\n'] := by
    rw [headerLine, List.append_assoc]
  rw [hline, Cursor.past_append]
  rfl

/-- The columns in which the text stands are given, or shown by the first line. -/
theorem breaks?_lead {t r lead main : Text} (ht : t = lead ++ main)
    (hprintable : ∀ d ∈ t, Scalar.isPrintable d = true) (hlead : ∀ d ∈ lead, isBreak d = true)
    (hne : main ≠ []) (hmain : ∀ d ∈ main.head?, isBreak d = false) {p : Nat} {c : Cursor}
    (hcolumn : c.column = 0) (hrest : c.rest = literalLines (p + 2) true t ++ r) :
    let given := (if needsHint t then some 2 else none).map (· + p)
    ∃ deepest, given.getD (max deepest (max (p + 1) 1)) = p + 2 ∧
      breaks? given (c.rest.length + 1) 0 c =
        some (lead, deepest, c.past (lead ++ Text.fill (p + 2) ' ')) := by
  rw [ht, literalLines_lead hlead hne hmain, List.append_assoc, List.append_assoc] at hrest
  have hstart : StartsAt (p + 2) (p + 2) (literalLines (p + 2) false main ++ r) :=
    startsAt_literalLines hne (fun d hd => hprintable d (by rw [ht]; simp [hd])) hmain (p + 2) r
  by_cases hhint : needsHint t = true
  · have hbs : ∀ b ∈ lead, Scalar.isPrintable b = true ∧ isBreak b = true :=
      fun b hb => ⟨hprintable b (by rw [ht]; simp [hb]), hlead b hb⟩
    obtain ⟨found, hread⟩ := breaks?_append hbs hstart
      (show lead.length < c.rest.length + 1 by rw [hrest, List.length_append]; omega)
      0 hcolumn hrest
    rw [if_pos hhint, Option.map_some, Nat.add_comm 2]
    exact ⟨found, rfl, hread⟩
  · -- The first line shows the columns itself.
    have hhead : lead = [] ∧ main.head? ≠ some ' ' := by
      rw [needsHint, ht] at hhint
      cases lead with
      | nil => exact ⟨rfl, fun h => hhint (by simp [h])⟩
      | cons b lead => exact absurd (by simp [hlead b List.mem_cons_self]) hhint
    obtain ⟨rfl, hspace⟩ := hhead
    obtain ⟨d, main, rfl⟩ := List.exists_cons_of_ne_nil hne
    have hspace' : (literalLines (p + 2) false (d :: main) ++ r).head? ≠ some ' ' := by
      rw [literalLines, Scalar.lines_char (hmain d rfl)]
      simpa using hspace
    refine ⟨p + 2, ?_, ?_⟩
    · rw [if_neg hhint, Option.map_none, Option.getD_none]
      omega
    · rw [if_neg hhint]
      exact breaks?_first hspace' hstart.no_break hstart.no_tab (Nat.succ_pos _) hcolumn hrest

/-- What is read by the header, by the breaks before the first line, and by the lines. -/
theorem read?_of_lines {p : Nat} {header : Header} {lead t last breaks : Text} {deepest : Nat}
    {c start first after : Cursor} (hheader : header? c.next = some (header, start))
    (hbreaks : breaks? (header.indent.map (· + p)) (start.rest.length + 1) 0 start =
      some (lead, deepest, first))
    (hlines : lines? true ((header.indent.map (· + p)).getD (max deepest (max (p + 1) 1)))
      (first.rest.length + 1) [] false lead first = some (t, last, breaks, after)) :
    read? true (some p) c = some (t ++ ending header.chomping last breaks, after) := by
  rw [read?, hheader]
  simp only [Option.bind_eq_bind, Option.bind_some, Option.getD_some, hbreaks, hlines]
  rfl

/-- A text on lines of its own is read back, up to the next line that is not indented as deep. -/
theorem read?_literal {t r : Text} (ht : t ≠ [])
    (hprintable : ∀ d ∈ t, Scalar.isPrintable d = true) {p k : Nat} (hk : k ≤ p) (hr : EndsGap r)
    {c : Cursor}
    (hrest : c.rest = endLine (Scalar.print (p + 2) t .literal) ++ (Text.fill k ' ' ++ r)) :
    read? true (some p) c =
      some (t, c.past (endLine (Scalar.print (p + 2) t .literal) ++ Text.fill k ' ')) := by
  rw [endLine_literal ht, List.cons_append, List.append_assoc, List.append_assoc] at hrest
  have hnext : c.next.rest = headerLine t ++
      (literalLines (p + 2) true t ++ (closing t ++ (Text.fill k ' ' ++ r))) := by
    rw [Cursor.next, hrest]
    rfl
  let start := c.next.past (headerLine t)
  have hstart : start.rest = literalLines (p + 2) true t ++ (closing t ++ (Text.fill k ' ' ++ r)) :=
    Cursor.rest_past_of_eq hnext
  have hcolumn : start.column = 0 := column_headerLine t c.next
  have hpast (s : Text) : start.past s = c.past ('|' :: (headerLine t ++ s)) := by
    rw [Cursor.past_cons (by decide), Cursor.past_append]
  rw [endLine_literal ht, List.cons_append, List.append_assoc, List.append_assoc, ← hpast]
  obtain ⟨lead, main, hsplit, hlead, hmain⟩ := exists_span isBreak t
  have hheader := header?_headerLine hnext
  by_cases hend : main = []
  · -- The text has no line but blank ones.
    subst hend
    rw [List.append_nil] at hsplit
    subst hsplit
    have hhint : needsHint t = true := by
      obtain ⟨b, t, rfl⟩ := List.exists_cons_of_ne_nil ht
      simp [needsHint, hlead b List.mem_cons_self]
    rw [literalLines_of_breaks hlead, closing_of_break ht hlead, List.nil_append] at hstart ⊢
    have hnextLine : StartsAt (p + 2) k r := startsAt_of_endsGap (by omega) hr
    obtain ⟨found, hbreaks⟩ := breaks?_append (fun b hb => ⟨hprintable b hb, hlead b hb⟩) hnextLine
      (show t.length < start.rest.length + 1 by rw [hstart, List.length_append]; omega)
      0 hcolumn hstart
    have hcolumn' : (start.past (t ++ Text.fill k ' ')).column ≠ p + 2 := by
      rw [column_lead hlead hcolumn]
      omega
    rw [if_pos hhint, chompingOf_breaks ht hlead] at hheader
    rw [read?_of_lines hheader (by rw [Option.map_some, Nat.add_comm 2]; exact hbreaks)
      (by
        rw [Option.map_some, Option.getD_some, Nat.add_comm 2]
        exact lines?_end hcolumn' _ _ _ _)]
    rfl
  · subst hsplit
    obtain ⟨deepest, hindent, hbreaks⟩ :=
      breaks?_lead rfl hprintable hlead hend hmain hcolumn hstart
    let first := start.past (lead ++ Text.fill (p + 2) ' ')
    rw [literalLines_lead hlead hend hmain, closing_append hend, List.append_assoc,
      List.append_assoc] at hstart ⊢
    have hfirst : first.rest =
        literalLines (p + 2) false main ++ (closing main ++ (Text.fill k ' ' ++ r)) :=
      Cursor.rest_past_of_eq (by rw [hstart, List.append_assoc])
    have hlength : main.length < first.rest.length + 1 := by
      have hlonger := length_le_literalLines main (p + 2) false
      rw [hfirst, List.length_append]
      omega
    obtain ⟨body, b, bs, hparts, hread⟩ := lines?_append (k := k) (by omega) hr
      (lined hend hmain) (fun d hd => hprintable d (by simp [hd])) hlength [] lead false
      (column_lead hlead hcolumn (p + 2)) hfirst
    rw [read?_of_lines hheader hbreaks (by rw [hindent]; exact hread), List.nil_append,
      hparts.append_ending, ← Cursor.past_append, List.append_assoc]

end Stencil.Yaml.Block
