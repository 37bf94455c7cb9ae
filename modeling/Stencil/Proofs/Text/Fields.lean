import Mathlib.Data.List.TakeWhile
import Stencil.Text.Basic

/-!
# Texts in pieces

A text that is joined from pieces without the separator is split into the same pieces. What is
deleted from a text or dropped at its ends is told from the characters that stand there.
-/

namespace Stencil.Text
variable {separator : Char} {p : Char → Bool} {t u piece : Text} {pieces : List Text}

/-! ## Separators -/

theorem fields_of_not_mem (h : separator ∉ t) : fields separator t = [t] := by
  induction t with
  | nil => rfl
  | cons c t ih =>
    simp only [List.mem_cons, not_or] at h
    rw [fields, if_neg (Ne.symm h.1), ih h.2]

theorem fields_append (h : separator ∉ piece) (t : Text) :
    fields separator (piece ++ separator :: t) = piece :: fields separator t := by
  induction piece with
  | nil => rw [List.nil_append, fields, if_pos rfl]
  | cons c piece ih =>
    simp only [List.mem_cons, not_or] at h
    rw [List.cons_append, fields, if_neg (Ne.symm h.1), ih h.2]

theorem fields_cons_of_ne {c : Char} (hc : c ≠ separator)
    (h : fields separator t = piece :: pieces) :
    fields separator (c :: t) = (c :: piece) :: pieces := by
  rw [fields, if_neg hc, h]

/-- A separator ends one list of pieces and starts the next. -/
theorem fields_append_separator (separator : Char) (t u : Text) :
    fields separator (t ++ separator :: u) = fields separator t ++ fields separator u := by
  induction t with
  | nil => simp [fields]
  | cons c t ih =>
    by_cases hc : c = separator
    · rw [List.cons_append, fields, if_pos hc, ih, fields, if_pos hc, List.cons_append]
    · obtain ⟨piece, pieces, hpieces⟩ := List.exists_cons_of_ne_nil (fields_ne_nil separator t)
      rw [hpieces, List.cons_append] at ih
      rw [List.cons_append, fields_cons_of_ne hc ih, fields_cons_of_ne hc hpieces,
        List.cons_append]

/-- Splitting undoes joining. -/
theorem fields_join (hne : pieces ≠ []) (h : ∀ piece ∈ pieces, separator ∉ piece) :
    fields separator (join [separator] pieces) = pieces := by
  induction pieces with
  | nil => exact absurd rfl hne
  | cons piece pieces ih =>
    have hpiece := h piece List.mem_cons_self
    cases pieces with
    | nil => exact fields_of_not_mem hpiece
    | cons next rest =>
      have hrest := ih (List.cons_ne_nil _ _) fun t ht => h t (List.mem_cons_of_mem _ ht)
      rw [join, List.append_assoc, List.singleton_append, fields_append hpiece, hrest]
      exact List.cons_ne_nil _ _

/-- A text that is joined ends as its last piece does. -/
theorem getLast?_join (hlast : pieces.getLast? = some piece) (hne : piece ≠ []) (separator : Text) :
    (join separator pieces).getLast? = piece.getLast? := by
  induction pieces with
  | nil => cases hlast
  | cons first pieces ih =>
    cases pieces with
    | nil =>
      obtain rfl := Option.some.inj hlast
      rfl
    | cons next rest =>
      have hrest := ih (by rwa [List.getLast?_cons_cons] at hlast)
      rw [join, List.getLast?_append, hrest, List.getLast?_eq_some_getLast hne]
      · rfl
      · exact List.cons_ne_nil _ _

theorem splitOnce?_eq_some_iff {before rest : Text} :
    splitOnce? separator t = some (before, rest) ↔
      t = before ++ separator :: rest ∧ separator ∉ before := by
  constructor
  · intro h
    induction t generalizing before with
    | nil => cases h
    | cons c t ih =>
      rw [splitOnce?] at h
      split at h
      · next hc =>
        obtain ⟨rfl, rfl⟩ := Prod.mk.inj (Option.some.inj h)
        exact ⟨by rw [hc, List.nil_append], List.not_mem_nil⟩
      · next hc =>
        obtain ⟨⟨before', rest'⟩, hsplit, heq⟩ := Option.map_eq_some_iff.mp h
        obtain ⟨rfl, rfl⟩ := Prod.mk.inj heq
        obtain ⟨rfl, hmem⟩ := ih hsplit
        exact ⟨rfl, List.not_mem_cons_of_ne_of_not_mem (Ne.symm hc) hmem⟩
  · rintro ⟨rfl, h⟩
    exact splitOnce?_append before rest h

/-! ## Deletion -/

/-- The text without a character. -/
def delete (c : Char) (t : Text) : Text := t.filter (· ≠ c)

section
variable {c d : Char}

@[simp] theorem delete_nil (c : Char) : delete c [] = [] := rfl

@[simp] theorem delete_cons_self (c : Char) (t : Text) : delete c (c :: t) = delete c t := by
  simp [delete]

theorem delete_cons_of_ne (h : d ≠ c) (t : Text) : delete c (d :: t) = d :: delete c t := by
  simp [delete, h]

@[simp] theorem delete_append (c : Char) (t u : Text) :
    delete c (t ++ u) = delete c t ++ delete c u := List.filter_append t u

/-- Other characters stay. -/
theorem mem_delete_iff (h : d ≠ c) : d ∈ delete c t ↔ d ∈ t := by
  simp [delete, h]

theorem delete_of_not_mem (h : c ∉ t) : delete c t = t := by
  apply List.filter_eq_self.mpr
  intro d hd
  apply decide_eq_true
  rintro rfl
  exact h hd

end

/-! ## Ends -/

theorem dropEndWhile_append (ht : ∀ c ∈ t.getLast?, p c = false) (hu : ∀ c ∈ u, p c = true) :
    dropEndWhile p (t ++ u) = t := by
  have hhead : ∀ c ∈ t.reverse.head?, p c = false := by
    rwa [List.head?_reverse]
  have hkept : t.reverse.dropWhile p = t.reverse := by
    cases hrev : t.reverse with
    | nil => rfl
    | cons c rest =>
      rw [hrev] at hhead
      rw [List.dropWhile_cons, hhead c rfl, if_neg Bool.false_ne_true]
  rw [dropEndWhile, List.reverse_append,
    List.dropWhile_append_of_pos fun c hc => hu c (List.mem_reverse.mp hc), hkept,
    List.reverse_reverse]

/-- What is dropped at the end of a text is made of such characters. -/
theorem exists_dropped (p : Char → Bool) (t : Text) :
    ∃ u, t = dropEndWhile p t ++ u ∧ ∀ c ∈ u, p c = true := by
  refine ⟨(t.reverse.takeWhile p).reverse, ?_, ?_⟩
  · rw [dropEndWhile, ← List.reverse_append, List.takeWhile_append_dropWhile, List.reverse_reverse]
  · intro c hc
    exact List.mem_takeWhile_imp (List.mem_reverse.mp hc)

/-- What is trimmed away are the blanks around a text that neither starts nor ends with one. -/
theorem trim_append {before after : Text} (hbefore : ∀ c ∈ before, isBlank c = true)
    (hafter : ∀ c ∈ after, isBlank c = true) (hhead : ∀ c ∈ t.head?, isBlank c = false)
    (hlast : ∀ c ∈ t.getLast?, isBlank c = false) : trim (before ++ t ++ after) = t := by
  have hstart : trimStart (before ++ (t ++ after)) = (t ++ after).dropWhile isBlank :=
    List.dropWhile_append_of_pos hbefore
  have hend : trimEnd (t ++ after) = t := dropEndWhile_append hlast hafter
  rw [List.append_assoc, trim, hstart]
  cases t with
  | nil =>
    rw [List.nil_append, List.dropWhile_eq_nil_iff.mpr hafter]
    rfl
  | cons c t =>
    rw [List.cons_append, List.dropWhile_cons, hhead c rfl, if_neg Bool.false_ne_true]
    exact hend

theorem trim_of_ends (hhead : ∀ c ∈ t.head?, isBlank c = false)
    (hlast : ∀ c ∈ t.getLast?, isBlank c = false) : trim t = t := by
  have htrim := trim_append (t := t) (List.forall_mem_nil _) (List.forall_mem_nil _) hhead hlast
  rwa [List.nil_append, List.append_nil] at htrim

theorem head?_trim (t : Text) : ∀ c ∈ (trim t).head?, isBlank c = false := by
  intro c hc
  obtain ⟨u, hsplit, -⟩ := exists_dropped isBlank (trimStart t)
  have hfirst := List.head?_dropWhile_not isBlank t
  have hhead : (trimStart t).head? = some c := by
    rw [hsplit, List.head?_append, ← trimEnd, ← trim, hc, Option.some_or]
  rwa [← trimStart, hhead] at hfirst

theorem getLast?_trim (t : Text) : ∀ c ∈ (trim t).getLast?, isBlank c = false := by
  intro c hc
  rw [trim, trimEnd, dropEndWhile, List.getLast?_reverse] at hc
  have hfirst := List.head?_dropWhile_not isBlank (trimStart t).reverse
  rwa [hc] at hfirst

@[simp] theorem trim_trim (t : Text) : trim (trim t) = trim t :=
  trim_of_ends (head?_trim t) (getLast?_trim t)

/-- A text that is its own trimming does not end with a blank. -/
theorem getLast?_of_trim (h : trim t = t) : ∀ c ∈ t.getLast?, isBlank c = false := by
  rw [← h]
  exact getLast?_trim t

theorem length_trim_le (t : Text) : (trim t).length ≤ t.length := by
  obtain ⟨u, hsplit, -⟩ := exists_dropped isBlank (trimStart t)
  have hend : trim t <+: trimStart t := ⟨u, hsplit.symm⟩
  exact hend.length_le.trans (List.dropWhile_suffix isBlank).length_le

end Stencil.Text
