import Stencil.Proofs.Template.Leftover

/-!
# The marks that close tags

Whatever reads a tag has met the mark that closes it. Main statements: a text without that mark
holds no tag and no raw block.
-/

namespace Stencil.Template
variable {t rest : Text}

theorem token?_occurs {word : Text} (h : token? word t = some rest) : word <:+: t := by
  have hskip : skip t = word ++ rest := Text.eq_append_of_afterPrefix? h
  have hword : word <:+: skip t := hskip ▸ (List.prefix_append word rest).isInfix
  exact hword.trans (skip_suffix t).isInfix

theorem tilde_suffix (t : Text) : (tilde t).2 <:+ t := by
  unfold tilde
  split
  · next h => exact token?_suffix h
  · exact List.suffix_rfl

theorem opened?_suffix {mark : Text} {trim : Bool} (h : opened? mark t = some (trim, rest)) :
    rest <:+ t := by
  obtain ⟨after, hmark, h⟩ := Option.map_eq_some_iff.mp h
  have hrest : (tilde after).2 = rest := congrArg Prod.snd h
  exact hrest ▸ (tilde_suffix after).trans (afterPrefix?_suffix hmark)

theorem closed?_occurs {mark : Text} {trim : Bool} (h : closed? mark t = some (trim, rest)) :
    mark <:+: t := by
  unfold closed? at h
  obtain ⟨after, hmark, -⟩ := Option.map_eq_some_iff.mp h
  exact (token?_occurs hmark).trans (tilde_suffix t).isInfix

/-- A tag whose inside is read from its start has its closing mark. -/
theorem between?_closes {inside : Text → Option (WithFaults Tag × Text)} {read : TagReading × Text}
    (hinside : ∀ t tag rest, inside t = some (tag, rest) → rest <:+ t)
    (h : between? t inside = some read) : closeMark <:+: t := by
  simp only [between?, Option.bind_eq_bind, Option.bind_eq_some_iff, Prod.exists] at h
  obtain ⟨trim, start, hopen, tag, after, htag, trimAfter, rest, hclose, -⟩ := h
  have hafter : after <:+ t := (hinside _ _ _ htag).trans (opened?_suffix hopen)
  exact (closed?_occurs hclose).trans hafter.isInfix

theorem otherwise?_closes {read : TagReading × Text} (h : otherwise? t = some read) :
    closeMark <:+: t := by
  refine between?_closes (fun t tag rest h => ?_) h
  obtain ⟨after, hword, h⟩ := Option.map_eq_some_iff.mp h
  cases h
  rcases Option.or_eq_some_iff.mp hword with hword | ⟨-, hword⟩
  · exact token?_suffix hword
  · exact token?_suffix hword

theorem expression?_closes {read : TagReading × Text} (h : expression? t = some read) :
    closeMark <:+: t := by
  unfold expression? at h
  split at h
  · exact absurd h (by simp)
  · exact between?_closes (fun _ _ _ h => content?_suffix h) h

theorem tripleBraces?_closes {read : TagReading × Text} (h : tripleBraces? t = some read) :
    closeMark <:+: t := by
  simp only [tripleBraces?, Option.bind_eq_bind, Option.bind_eq_some_iff, Prod.exists] at h
  obtain ⟨start, hopen, tag, after, htag, rest, hclose, -⟩ := h
  have hafter : after <:+ t := (content?_suffix htag).trans (afterPrefix?_suffix hopen)
  have hmark : closeMark <:+: '\x7d' :: closeMark := (List.suffix_cons _ _).isInfix
  exact hmark.trans ((token?_occurs hclose).trans hafter.isInfix)

theorem innerBraces?_closes {read : TagReading × Text} (h : innerBraces? t = some read) :
    closeMark <:+: t := by
  refine between?_closes (fun t tag rest h => ?_) h
  simp only [Option.bind_eq_bind, Option.bind_eq_some_iff, Option.some.injEq, Prod.mk.injEq,
    Prod.exists] at h
  obtain ⟨start, hopen, tag', after, htag, closing, hclose, -, rfl⟩ := h
  exact (token?_suffix hclose).trans ((content?_suffix htag).trans (token?_suffix hopen))

theorem ampersand?_closes {read : TagReading × Text} (h : ampersand? t = some read) :
    closeMark <:+: t := by
  refine between?_closes (fun t tag rest h => ?_) h
  obtain ⟨start, hmark, htag⟩ := Option.bind_eq_some_iff.mp h
  exact (valueContent?_suffix htag).trans (token?_suffix hmark)

theorem foldlM_token?_suffix {marks : List Text}
    (h : marks.foldlM (fun t mark => token? mark t) t = some rest) : rest <:+ t := by
  induction marks generalizing t with
  | nil =>
    cases h
    exact List.suffix_rfl
  | cons mark marks ih =>
    rw [List.foldlM_cons] at h
    obtain ⟨after, hmark, h⟩ := Option.bind_eq_some_iff.mp h
    exact (ih h).trans (token?_suffix hmark)

theorem blockOpening?_closes {marks : List Text}
    {head? : Text → Option (WithFaults Head × Text)} {read : TagReading × Text}
    (hhead : ∀ t value rest, head? t = some (value, rest) → rest <:+ t)
    (h : blockOpening? marks head? t = some read) : closeMark <:+: t := by
  refine between?_closes (fun t tag rest h => ?_) h
  simp only [Option.bind_eq_bind, Option.bind_eq_some_iff, Option.some.injEq, Prod.mk.injEq,
    Prod.exists] at h
  obtain ⟨after, hmarks, value, closing, hvalue, -, rfl⟩ := h
  exact (hhead _ _ _ hvalue).trans (foldlM_token?_suffix hmarks)

theorem splitFirst?_occurs {piece before : Text}
    (h : Text.splitFirst? piece t = some (before, rest)) : piece <:+: t := by
  induction t generalizing before with
  | nil =>
    obtain ⟨after, hpiece, -⟩ := Option.map_eq_some_iff.mp h
    exact ⟨[], after, (Text.eq_append_of_afterPrefix? hpiece).symm⟩
  | cons c t ih =>
    unfold Text.splitFirst? at h
    split at h
    · next after hpiece => exact ⟨[], after, (Text.eq_append_of_afterPrefix? hpiece).symm⟩
    · obtain ⟨⟨before', after⟩, hlater, h⟩ := Option.map_eq_some_iff.mp h
      cases h
      exact (ih hlater).trans (List.suffix_cons c t).isInfix

theorem comment?_closes {read : TagReading × Text} (h : comment? t = some read) :
    closeMark <:+: t := by
  simp only [comment?, Option.bind_eq_bind, Option.bind_eq_some_iff] at h
  obtain ⟨inner, hopen, h⟩ := h
  have hinner : inner <:+: t := (afterPrefix?_suffix hopen).isInfix
  refine List.IsInfix.trans ?_ hinner
  split at h
  · next before after hdashes =>
    obtain ⟨start, hstart, hend⟩ := Option.bind_eq_some_iff.mp hdashes
    have hmark : closeMark <:+: ['-', '-'] ++ closeMark := (List.suffix_append _ _).isInfix
    have hstart' : skip start <:+ inner := (skip_suffix start).trans (token?_suffix hstart)
    exact hmark.trans ((splitFirst?_occurs hend).trans hstart'.isInfix)
  · simp only [Option.bind_eq_some_iff, Option.map_eq_some_iff, Prod.exists] at h
    obtain ⟨after, ⟨before, after', hend, -⟩, -⟩ := h
    exact splitFirst?_occurs hend

theorem directive?_closes {read : TagReading × Text} (h : directive? t = some read) :
    closeMark <:+: t := by
  refine between?_closes (fun t tag rest h => ?_) h
  simp only [Option.bind_eq_bind, Option.bind_eq_some_iff, Option.some.injEq, Prod.mk.injEq,
    Prod.exists] at h
  obtain ⟨after, hmark, start, closing, hstart, -, rfl⟩ := h
  exact (blockStart?_suffix hstart).trans (token?_suffix hmark)

theorem inclusion?_closes {read : TagReading × Text} (h : inclusion? t = some read) :
    closeMark <:+: t := by
  refine between?_closes (fun t tag rest h => ?_) h
  simp only [Option.bind_eq_bind, Option.bind_eq_some_iff, Option.some.injEq, Prod.mk.injEq,
    Prod.exists] at h
  obtain ⟨after, hmark, start, closing, hstart, -, rfl⟩ := h
  exact (inclusionStart?_suffix hstart).trans (token?_suffix hmark)

theorem closing?_closes {kind : BlockKind} {read : TagReading × Text}
    (h : closing? kind t = some read) : closeMark <:+: t := by
  refine between?_closes (fun t tag rest h => ?_) h
  obtain ⟨after, hmark, h⟩ := Option.bind_eq_some_iff.mp h
  refine List.IsSuffix.trans ?_ (token?_suffix hmark)
  dsimp only at h
  split at h
  · obtain ⟨⟨name, closing⟩, hname, h⟩ := Option.bind_eq_some_iff.mp h
    cases h
    exact templateName?_suffix hname
  · obtain ⟨⟨name, closing⟩, hname, h⟩ := Option.bind_eq_some_iff.mp h
    cases h
    exact identifier?_suffix hname

theorem freeTag?_closes {read : TagReading × Text} (h : freeTag? t = some read) :
    closeMark <:+: t := by
  obtain ⟨reader, hreader, h⟩ := List.exists_of_findSome?_eq_some h
  simp only [List.mem_cons, List.not_mem_nil, or_false] at hreader
  rcases hreader with rfl | rfl | rfl | rfl | rfl | rfl | rfl | rfl | rfl | rfl
  · exact expression?_closes h
  · exact tripleBraces?_closes h
  · exact innerBraces?_closes h
  · exact ampersand?_closes h
  · exact blockOpening?_closes (fun _ _ _ h => blockHead?_suffix h) h
  · exact comment?_closes h
  · exact directive?_closes h
  · exact blockOpening?_closes (fun _ _ _ h => blockHead?_suffix h) h
  · exact inclusion?_closes h
  · exact blockOpening?_closes (fun _ _ _ h => inclusionHead?_suffix h) h

theorem boundTag?_closes {blocks : List OpenBlock} {read : TagReading × Text}
    (h : boundTag? blocks t = some read) : closeMark <:+: t := by
  unfold boundTag? at h
  split at h
  · exact absurd h (by simp)
  · rcases Option.or_eq_some_iff.mp h with h | ⟨-, h⟩
    · split at h
      · exact otherwise?_closes h
      · exact absurd h (by simp)
    · exact closing?_closes h

theorem rawBlock?_closes {before : Text} {read : List Piece × Text × Text}
    (h : rawBlock? before t = some read) : closeMark <:+: t := by
  simp only [rawBlock?, rawOpening?, Option.bind_eq_bind, Option.bind_eq_some_iff,
    Prod.exists] at h
  obtain ⟨opening, after, hread, -⟩ := h
  obtain ⟨trim, start, hopen, block, inner, hblock, trimAfter, rest, hclose, -⟩ := hread
  have hmark : closeMark <:+: rawCloseMark := ⟨[], closeMark, rfl⟩
  have hinner : inner <:+ t := (blockHead?_suffix hblock).trans (opened?_suffix hopen)
  exact hmark.trans ((closed?_occurs hclose).trans hinner.isInfix)

end Stencil.Template
