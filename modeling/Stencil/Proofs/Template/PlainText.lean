import Stencil.Proofs.Text.Occurrence
import Stencil.Template.Piece

/-!
# Plain text

Plain text reaches up to an opening mark that no backslash stands before. Main statements: a text
without an opening mark is all plain and is kept as it is; so is one before a tag, unless its last
character belongs to the tag or makes it plain; and a text that is all plain is kept except for the
backslashes that stand before opening marks.
-/

namespace Stencil.Template

/-- One character of plain text, where neither a stop begins nor an escape. -/
theorem splitText_cons {stop : Text} {c : Char} {t : Text} (afterBackslash : Bool)
    (hstop : ¬stop <+: c :: t) (hescape : c = '\\' → ¬openMark <+: t) :
    splitText stop afterBackslash (c :: t) =
      (c :: (splitText stop (c == '\\') t).1, (splitText stop (c == '\\') t).2) := by
  rw [splitText.eq_def stop afterBackslash (c :: t)]
  split
  · next h => exact absurd h (by simp)
  · next h =>
    cases h
    exact absurd ⟨_, rfl⟩ (hescape rfl)
  · next h =>
    cases h
    exact absurd ⟨_, rfl⟩ (hescape rfl)
  · next h =>
    cases h
    rw [if_neg (by rw [Text.startsWith_iff]; exact hescape rfl)]
    rfl
  · next h =>
    cases h
    rw [if_neg (by rwa [Text.startsWith_iff])]

theorem splitText_stop {stop rest : Text} (afterBackslash : Bool) (c : Char)
    (hstop : stop <+: c :: rest) (hescape : c ≠ '\\') :
    splitText stop afterBackslash (c :: rest) = ([], c :: rest) := by
  rw [splitText.eq_def stop afterBackslash (c :: rest)]
  split
  · next h => exact absurd h (by simp)
  · next h => exact absurd (List.cons.inj h).1 hescape
  · next h => exact absurd (List.cons.inj h).1 hescape
  · next h => exact absurd (List.cons.inj h).1 hescape
  · next h =>
    cases h
    rw [if_pos (by rwa [Text.startsWith_iff])]

theorem not_infix_tail {piece : Text} {c : Char} {t : Text} (h : ¬piece <:+: c :: t) :
    ¬piece <:+: t := fun ht => h (ht.trans (List.suffix_cons c t).isInfix)

/-- A text without an opening mark is all plain. -/
theorem splitText_of_not_occurs {t : Text} (h : ¬openMark <:+: t) (afterBackslash : Bool) :
    splitText openMark afterBackslash t = (t, []) := by
  induction t generalizing afterBackslash with
  | nil => cases afterBackslash <;> rfl
  | cons c t ih =>
    have htail := not_infix_tail h
    rw [splitText_cons afterBackslash (fun hmark => h hmark.isInfix)
      (fun _ hmark => htail hmark.isInfix), ih htail]

/-- The text may stand directly before a tag: its last character is no brace, which would belong to
the tag, and no backslash, which would make it plain. -/
def MayPrecedeTag (t : Text) : Prop := ∀ c ∈ t.getLast?, c ≠ '\x7b' ∧ c ≠ '\\'

instance (t : Text) : Decidable (MayPrecedeTag t) :=
  decidable_of_iff (t.getLast?.all (fun c => c != '\x7b' && c != '\\') = true)
    (by simp [MayPrecedeTag, Option.all_eq_true])

theorem MayPrecedeTag.tail {c : Char} {t : Text} (h : MayPrecedeTag (c :: t)) :
    MayPrecedeTag t := by
  cases t with
  | nil => simp [MayPrecedeTag]
  | cons d t => simpa only [MayPrecedeTag, List.getLast?_cons_cons] using h

/-- Before a tag no opening mark begins but that of the tag. -/
theorem MayPrecedeTag.prefix_of_append {c : Char} {t rest : Text} (h : MayPrecedeTag (c :: t))
    (hmark : openMark <+: c :: (t ++ (openMark ++ rest))) : openMark <+: c :: t := by
  cases t with
  | nil =>
    obtain ⟨after, hafter⟩ := hmark
    have hc : c = '\x7b' := (List.cons.inj hafter).1.symm
    exact absurd hc (h c rfl).1
  | cons d t =>
    obtain ⟨after, hafter⟩ := hmark
    obtain ⟨hc, hd, -⟩ : '\x7b' = c ∧ '\x7b' = d ∧ _ := by simpa [openMark] using hafter
    exact ⟨t, by rw [← hc, ← hd]; rfl⟩

/-- A text without an opening mark is plain up to the tag after it. -/
theorem splitText_before_tag {t : Text} (h : ¬openMark <:+: t) (hlast : MayPrecedeTag t)
    (afterBackslash : Bool) (rest : Text) :
    splitText openMark afterBackslash (t ++ (openMark ++ rest)) = (t, openMark ++ rest) := by
  induction t generalizing afterBackslash with
  | nil => exact splitText_stop afterBackslash '\x7b' ⟨rest, rfl⟩ (by decide)
  | cons c t ih =>
    have htail := not_infix_tail h
    have hstop : ¬openMark <+: c :: (t ++ (openMark ++ rest)) := fun hmark =>
      h (hlast.prefix_of_append hmark).isInfix
    have hescape : c = '\\' → ¬openMark <+: t ++ (openMark ++ rest) := by
      intro hc hmark
      cases t with
      | nil => exact (hlast c rfl).2 hc
      | cons d t => exact htail (hlast.tail.prefix_of_append hmark).isInfix
    have hrest := ih htail hlast.tail (c == '\\')
    rw [List.cons_append, splitText_cons afterBackslash hstop hescape, hrest]

/-! ## Escapes -/

/-- The second text is the first without some of the backslashes that stand directly before an
opening mark. -/
inductive Unescapes : (written meant : Text) → Prop
  | nil : Unescapes [] []
  | keep (c : Char) {t u : Text} : Unescapes t u → Unescapes (c :: t) (c :: u)
  | drop {t u : Text} : openMark <+: t → Unescapes t u → Unescapes ('\\' :: t) u

theorem Unescapes.eq_of_not_occurs {t u : Text} (h : Unescapes t u)
    (hescape : ¬ '\\' :: openMark <:+: t) : u = t := by
  induction h with
  | nil => rfl
  | keep c _ ih => rw [ih (not_infix_tail hescape)]
  | drop hmark _ _ => exact absurd (List.cons_prefix_cons.mpr ⟨rfl, hmark⟩).isInfix hescape

/-- A text that is all plain is kept except for backslashes before opening marks. -/
theorem unescapes_splitText {t : Text} (afterBackslash : Bool)
    (h : (splitText openMark afterBackslash t).2 = []) :
    Unescapes t (splitText openMark afterBackslash t).1 := by
  -- The cases are the rows of the scan: four braces or two after a backslash, a backslash after
  -- another one, a stop, and a plain character.
  fun_induction splitText openMark afterBackslash t with
  | case1 => exact .nil
  | case2 t text rest hrest ih =>
    rw [hrest] at ih
    have hmark : openMark <+: '\x7b' :: '\x7b' :: '\x7b' :: '\x7b' :: t := ⟨_, rfl⟩
    exact .drop hmark (.keep _ (.keep _ (.keep _ (.keep _ (ih h)))))
  | case3 t _ text rest hrest ih =>
    rw [hrest] at ih
    have hmark : openMark <+: '\x7b' :: '\x7b' :: t := ⟨t, rfl⟩
    exact .drop hmark (.keep _ (.keep _ (ih h)))
  | case4 t hmark ih => exact .drop ((Text.startsWith_iff _ _).mp hmark) (ih h)
  | case5 t _ text rest hrest ih =>
    rw [hrest] at ih
    exact .keep _ (ih h)
  | case6 => exact absurd h (by simp)
  | case7 afterBackslash c t _ text rest hrest _ _ _ ih =>
    rw [hrest] at ih
    exact .keep c (ih h)

theorem splitText_suffix (stop : Text) (afterBackslash : Bool) (t : Text) :
    (splitText stop afterBackslash t).2 <:+ t := by
  fun_induction splitText stop afterBackslash t with
  | case1 => exact List.suffix_rfl
  | case2 t text rest hrest ih =>
    rw [hrest] at ih
    exact ih.trans (List.suffix_append ['\\', '\x7b', '\x7b', '\x7b', '\x7b'] t)
  | case3 t _ text rest hrest ih =>
    rw [hrest] at ih
    exact ih.trans (List.suffix_append ['\\', '\x7b', '\x7b'] t)
  | case4 t _ ih => exact ih.trans (List.suffix_cons _ t)
  | case5 t _ text rest hrest ih =>
    rw [hrest] at ih
    exact ih.trans (List.suffix_cons _ t)
  | case6 => exact List.suffix_rfl
  | case7 afterBackslash c t _ text rest hrest _ _ _ ih =>
    rw [hrest] at ih
    exact ih.trans (List.suffix_cons c t)

end Stencil.Template
