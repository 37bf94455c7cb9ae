import Stencil.Template.Piece

/-!
# What readers leave

Every reader of the grammar leaves an end of the text that it was given: it reads from the start,
and what it leaves is there unchanged.
-/

namespace Stencil.Template
variable {t rest : Text}

theorem afterPrefix?_suffix {opening : Text} (h : Text.afterPrefix? opening t = some rest) :
    rest <:+ t := by
  rw [Text.eq_append_of_afterPrefix? h]
  exact List.suffix_append opening rest

theorem skip_suffix (t : Text) : skip t <:+ t := List.dropWhile_suffix _

theorem token?_suffix {word : Text} (h : token? word t = some rest) : rest <:+ t :=
  (afterPrefix?_suffix h).trans (skip_suffix t)

/-! ## Names and paths -/

theorem word?_suffix {name : Text} (h : word? t = some (name, rest)) : rest <:+ t := by
  unfold word? at h
  dsimp only at h
  split at h
  · exact absurd h (by simp)
  · simp only [Option.some.injEq, Prod.mk.injEq] at h
    rw [← h.2]
    exact List.dropWhile_suffix _

theorem identifier?_suffix {name : Text} (h : identifier? t = some (name, rest)) : rest <:+ t :=
  (word?_suffix h).trans (skip_suffix t)

theorem separator?_suffix (h : separator? t = some rest) : rest <:+ t := by
  unfold separator? at h
  split at h
  · cases h
    exact List.suffix_cons _ _
  · cases h
    exact List.suffix_cons _ _
  · exact absurd h (by simp)

theorem item?_suffix {name : Text} (h : item? t = some (name, rest)) : rest <:+ t := by
  unfold item? at h
  split at h
  · next inner =>
    split at h
    · next c after hdrop =>
      simp only [Option.some.injEq, Prod.mk.injEq] at h
      have hafter : c :: after <:+ inner := hdrop ▸ List.dropWhile_suffix _
      rw [← h.2]
      exact ((List.suffix_cons c after).trans hafter).trans (List.suffix_cons _ inner)
    · exact absurd h (by simp)
  · exact word?_suffix h

theorem bind_separator?_suffix {opening : Text}
    (h : (Text.afterPrefix? opening t).bind separator? = some rest) : rest <:+ t := by
  obtain ⟨after, hopening, hseparator⟩ := Option.bind_eq_some_iff.mp h
  exact (separator?_suffix hseparator).trans (afterPrefix?_suffix hopening)

theorem afterCurrent_suffix (t : Text) : afterCurrent t <:+ t := by
  unfold afterCurrent
  split
  · next h => exact bind_separator?_suffix h
  · cases h : Text.afterPrefix? ['.', '/'] t with
    | none => exact List.suffix_rfl
    | some rest => exact afterPrefix?_suffix h

theorem ups_suffix (fuel : Nat) (t : Text) : (ups fuel t).2 <:+ t := by
  induction fuel generalizing t with
  | zero => exact List.suffix_rfl
  | succ fuel ih =>
    unfold ups
    split
    · next h => exact (ih _).trans (bind_separator?_suffix h)
    · exact List.suffix_rfl

theorem moreItems_suffix (fuel : Nat) (t : Text) : (moreItems fuel t).2 <:+ t := by
  induction fuel generalizing t with
  | zero => exact List.suffix_rfl
  | succ fuel ih =>
    unfold moreItems
    split
    · next h =>
      obtain ⟨after, hseparator, hitem⟩ := Option.bind_eq_some_iff.mp h
      exact (ih _).trans ((item?_suffix hitem).trans (separator?_suffix hseparator))
    · exact List.suffix_rfl

theorem rootMark_suffix (t : Text) : (rootMark t).2 <:+ t := by
  unfold rootMark
  split
  · next h => exact bind_separator?_suffix h
  · exact List.suffix_rfl

theorem variableStart_suffix (t : Text) : (variableStart t).2 <:+ t := by
  unfold variableStart
  split
  · exact List.suffix_cons _ _
  · exact List.suffix_rfl

theorem path?_suffix {path : Path} (h : path? t = some (path, rest)) : rest <:+ t := by
  simp only [path?, Option.bind_eq_bind, Option.bind_eq_some_iff, Option.some.injEq,
    Prod.mk.injEq, Prod.exists] at h
  obtain ⟨name, start, hitem, -, rfl⟩ := h
  have hstart : (variableStart (rootMark (afterCurrent t)).2).2 <:+ t :=
    (variableStart_suffix _).trans ((rootMark_suffix _).trans (afterCurrent_suffix t))
  exact (moreItems_suffix _ _).trans ((item?_suffix hitem).trans ((ups_suffix _ _).trans hstart))

/-! ## Literals -/

theorem hexadecimal_take?_suffix {count value n : Nat}
    (h : Hexadecimal.take? count value t = some (n, rest)) : rest <:+ t := by
  induction count generalizing value t with
  | zero =>
    cases h
    exact List.suffix_rfl
  | succ count ih =>
    cases t with
    | nil => exact absurd h (by simp [Hexadecimal.take?])
    | cons c t =>
      simp only [Hexadecimal.take?, Option.bind_eq_bind, Option.bind_eq_some_iff] at h
      obtain ⟨digit, -, h⟩ := h
      exact (ih h).trans (List.suffix_cons c t)

theorem stringEnd?_suffix {quote : Char} (fuel : Nat) (h : stringEnd? quote fuel t = some rest) :
    rest <:+ t := by
  induction fuel generalizing t with
  | zero => exact absurd h (by simp [stringEnd?])
  | succ fuel ih =>
    unfold stringEnd? at h
    split at h
    · next heq => exact absurd heq (by simp)
    · exact absurd h (by simp)
    · next fuel' inner heq =>
      cases heq
      simp only [Option.bind_eq_bind, Option.bind_eq_some_iff, Prod.exists] at h
      obtain ⟨n, after, hdigits, h⟩ := h
      have hinner : rest <:+ inner := (ih h).trans (hexadecimal_take?_suffix hdigits)
      exact (hinner.trans (List.suffix_cons _ _)).trans (List.suffix_cons _ _)
    · next fuel' c inner _ heq =>
      cases heq
      split at h
      · exact ((ih h).trans (List.suffix_cons _ _)).trans (List.suffix_cons _ _)
      · exact absurd h (by simp)
    · next fuel' c inner _ _ heq =>
      cases heq
      split at h
      · cases h
        exact List.suffix_cons _ _
      · split at h
        · exact absurd h (by simp)
        · exact (ih h).trans (List.suffix_cons _ _)

theorem stringLiteral?_suffix (h : stringLiteral? t = some rest) : rest <:+ t := by
  unfold stringLiteral? at h
  split at h
  · exact (stringEnd?_suffix _ h).trans (List.suffix_cons _ _)
  · exact (stringEnd?_suffix _ h).trans (List.suffix_cons _ _)
  · exact absurd h (by simp)

theorem getD_afterPrefix?_suffix (opening t : Text) :
    (Text.afterPrefix? opening t).getD t <:+ t := by
  cases h : Text.afterPrefix? opening t with
  | none => exact List.suffix_rfl
  | some rest => exact afterPrefix?_suffix h

theorem afterPower_suffix (t : Text) : afterPower t <:+ t := by
  unfold afterPower
  split
  · next inner =>
    dsimp only
    split
    · exact List.suffix_rfl
    · have hdigits := getD_afterPrefix?_suffix ['-'] inner
      exact ((List.dropWhile_suffix _).trans hdigits).trans (List.suffix_cons _ _)
  · exact List.suffix_rfl

theorem numberLiteral?_suffix (h : numberLiteral? t = some rest) : rest <:+ t := by
  unfold numberLiteral? at h
  dsimp only at h
  split at h
  · exact absurd h (by simp)
  · split at h
    · exact absurd h (by simp)
    · cases h
      refine (afterPower_suffix _).trans ((List.dropWhile_suffix _).trans ?_)
      refine (getD_afterPrefix?_suffix _ _).trans ((List.dropWhile_suffix _).trans ?_)
      exact getD_afterPrefix?_suffix _ _

theorem wordLiteral?_suffix (h : wordLiteral? t = some rest) : rest <:+ t := by
  have hfind : ∀ word, (Text.afterPrefix? word t).filter (fun rest => !startsSymbol rest) =
      some rest → rest <:+ t := by
    intro word hword
    exact afterPrefix?_suffix (Option.filter_eq_some_iff.mp hword).1
  unfold wordLiteral? at h
  simp only [Option.or_eq_some_iff] at h
  rcases h with h | ⟨-, h | ⟨-, h⟩⟩
  · exact hfind _ h
  · exact hfind _ h
  · exact hfind _ h

/-- The readers of literals, of what is inside arrays and objects, and of members leave an end of
the text, with this fuel. -/
structure LiteralsSuffix (fuel : Nat) : Prop where
  literal {t rest : Text} (h : literal? fuel t = some rest) : rest <:+ t
  arrayEnd {t rest : Text} (h : arrayEnd? fuel t = some rest) : rest <:+ t
  itemsEnd {t rest : Text} (h : itemsEnd? fuel t = some rest) : rest <:+ t
  objectEnd {t rest : Text} (h : objectEnd? fuel t = some rest) : rest <:+ t
  member {t rest : Text} (h : member? fuel t = some rest) : rest <:+ t
  membersEnd {t rest : Text} (h : membersEnd? fuel t = some rest) : rest <:+ t

namespace LiteralsSuffix
variable {fuel : Nat}

theorem literal_succ (hfuel : LiteralsSuffix fuel) (h : literal? (fuel + 1) t = some rest) :
    rest <:+ t := by
  unfold literal? at h
  split at h
  · exact (hfuel.arrayEnd h).trans (List.suffix_cons _ _)
  · exact (hfuel.objectEnd h).trans (List.suffix_cons _ _)
  · simp only [Option.or_eq_some_iff] at h
    rcases h with h | ⟨-, h | ⟨-, h⟩⟩
    · exact stringLiteral?_suffix h
    · exact numberLiteral?_suffix h
    · exact wordLiteral?_suffix h

theorem arrayEnd_succ (hfuel : LiteralsSuffix fuel) (h : arrayEnd? (fuel + 1) t = some rest) :
    rest <:+ t := by
  rw [arrayEnd?] at h
  refine (hfuel.itemsEnd h).trans ?_
  cases hfirst : literal? fuel (skip t) with
  | none => exact List.suffix_rfl
  | some after => exact (hfuel.literal hfirst).trans (skip_suffix t)

theorem itemsEnd_succ (hfuel : LiteralsSuffix fuel) (h : itemsEnd? (fuel + 1) t = some rest) :
    rest <:+ t := by
  rw [itemsEnd?] at h
  split at h
  · next after hitem =>
    obtain ⟨inner, hcomma, hvalue⟩ := Option.bind_eq_some_iff.mp hitem
    have hinner : after <:+ inner := (hfuel.literal hvalue).trans (skip_suffix inner)
    exact (hfuel.itemsEnd h).trans (hinner.trans (token?_suffix hcomma))
  · exact token?_suffix h

theorem objectEnd_succ (hfuel : LiteralsSuffix fuel) (h : objectEnd? (fuel + 1) t = some rest) :
    rest <:+ t := by
  rw [objectEnd?] at h
  refine (hfuel.membersEnd h).trans ?_
  cases hfirst : member? fuel t with
  | none => exact List.suffix_rfl
  | some after => exact hfuel.member hfirst

theorem member_succ (hfuel : LiteralsSuffix fuel) (h : member? (fuel + 1) t = some rest) :
    rest <:+ t := by
  simp only [member?, Option.bind_eq_bind, Option.bind_eq_some_iff] at h
  obtain ⟨afterName, hname, afterColon, hcolon, hvalue⟩ := h
  have hafter : afterColon <:+ t :=
    (token?_suffix hcolon).trans ((stringLiteral?_suffix hname).trans (skip_suffix t))
  exact ((hfuel.literal hvalue).trans (skip_suffix _)).trans hafter

theorem membersEnd_succ (hfuel : LiteralsSuffix fuel) (h : membersEnd? (fuel + 1) t = some rest) :
    rest <:+ t := by
  rw [membersEnd?] at h
  split at h
  · next after hitem =>
    obtain ⟨inner, hcomma, hvalue⟩ := Option.bind_eq_some_iff.mp hitem
    exact (hfuel.membersEnd h).trans ((hfuel.member hvalue).trans (token?_suffix hcomma))
  · exact token?_suffix h

end LiteralsSuffix

theorem literals_suffix (fuel : Nat) : LiteralsSuffix fuel := by
  induction fuel with
  | zero =>
    constructor <;> simp [literal?, arrayEnd?, itemsEnd?, objectEnd?, member?, membersEnd?]
  | succ fuel ih =>
    exact ⟨ih.literal_succ, ih.arrayEnd_succ, ih.itemsEnd_succ, ih.objectEnd_succ, ih.member_succ,
      ih.membersEnd_succ⟩

/-! ## Operands -/

/-- The readers of operands, nested calls, calls by name, lists of operands and options leave an
end of the text, with this fuel. -/
structure OperandsSuffix (fuel : Nat) : Prop where
  operand {t rest : Text} {operand : WithFaults Operand}
    (h : operand? fuel t = some (operand, rest)) : rest <:+ t
  nestedCall {t rest : Text} {operand : WithFaults Operand}
    (h : nestedCall? fuel t = some (operand, rest)) : rest <:+ t
  namedCall {t rest : Text} {call : WithFaults (Text × Operands)}
    (h : namedCall? fuel t = some (call, rest)) : rest <:+ t
  operands (read : Operands) (t : Text) : (operands fuel read t).2 <:+ t
  option {t rest : Text} {option : WithFaults (Text × Operand)}
    (h : option? fuel t = some (option, rest)) : rest <:+ t

namespace OperandsSuffix
variable {fuel : Nat} {operand : WithFaults Operand}

theorem operand_succ (hfuel : OperandsSuffix fuel)
    (h : operand? (fuel + 1) t = some (operand, rest)) : rest <:+ t := by
  rw [operand?] at h
  dsimp only at h
  refine List.IsSuffix.trans ?_ (skip_suffix t)
  split at h
  · exact absurd h (by simp)
  · split at h
    · next after hliteral =>
      have hafter := (literals_suffix _).literal hliteral
      split at h
      · cases h
        exact hafter
      · cases h
        exact hafter
    · split at h
      · next path after hpath =>
        cases h
        exact path?_suffix hpath
      · exact hfuel.nestedCall h

theorem nestedCall_succ (hfuel : OperandsSuffix fuel)
    (h : nestedCall? (fuel + 1) t = some (operand, rest)) : rest <:+ t := by
  simp only [nestedCall?, Option.bind_eq_bind, Option.bind_eq_some_iff] at h
  obtain ⟨inner, hopen, h⟩ := h
  refine List.IsSuffix.trans ?_ (token?_suffix hopen)
  split at h
  · next hcall =>
    simp only [Option.bind_some, Option.bind_eq_some_iff, Option.some.injEq,
      Prod.mk.injEq] at h
    obtain ⟨closing, hclose, -, rfl⟩ := h
    exact (token?_suffix hclose).trans (hfuel.namedCall hcall)
  · simp only [Option.bind_eq_some_iff, Option.map_eq_some_iff, Option.some.injEq,
      Prod.mk.injEq, Prod.exists] at h
    obtain ⟨read, after, ⟨path, after', hpath, -, rfl⟩, closing, hclose, -, rfl⟩ := h
    exact (token?_suffix hclose).trans ((path?_suffix hpath).trans (skip_suffix inner))

theorem namedCall_succ (hfuel : OperandsSuffix fuel) {call : WithFaults (Text × Operands)}
    (h : namedCall? (fuel + 1) t = some (call, rest)) : rest <:+ t := by
  simp only [namedCall?, Option.bind_eq_bind, Option.bind_eq_some_iff, Prod.exists] at h
  obtain ⟨name, after, hname, h⟩ := h
  split at h
  · exact absurd h (by simp)
  · simp only [Option.some.injEq, Prod.mk.injEq] at h
    rw [← h.2]
    exact (hfuel.operands _ _).trans (identifier?_suffix hname)

theorem operands_succ (hfuel : OperandsSuffix fuel) (read : Operands) (t : Text) :
    (Template.operands (fuel + 1) read t).2 <:+ t := by
  rw [Template.operands]
  split
  · next h => exact (hfuel.operands _ _).trans (hfuel.option h)
  · split
    · next h => exact (hfuel.operands _ _).trans (hfuel.operand h)
    · exact List.suffix_rfl

theorem option_succ (hfuel : OperandsSuffix fuel) {option : WithFaults (Text × Operand)}
    (h : option? (fuel + 1) t = some (option, rest)) : rest <:+ t := by
  simp only [option?, Option.bind_eq_bind, Option.bind_eq_some_iff, Option.some.injEq,
    Prod.mk.injEq, Prod.exists] at h
  obtain ⟨name, after, hname, inner, hequals, read, closing, hvalue, -, rfl⟩ := h
  have hinner : inner <:+ t := (token?_suffix hequals).trans (identifier?_suffix hname)
  exact (hfuel.operand hvalue).trans hinner

end OperandsSuffix

theorem operands_suffix (fuel : Nat) : OperandsSuffix fuel := by
  induction fuel with
  | zero => constructor <;> simp [operand?, nestedCall?, namedCall?, operands, option?]
  | succ fuel ih =>
    exact ⟨ih.operand_succ, ih.nestedCall_succ, ih.namedCall_succ, ih.operands_succ,
      ih.option_succ⟩

theorem nestedCall?_suffix {fuel : Nat} {operand : WithFaults Operand}
    (h : nestedCall? fuel t = some (operand, rest)) : rest <:+ t :=
  (operands_suffix fuel).nestedCall h

/-! ## The inside of tags -/

theorem valueContent?_suffix {tag : WithFaults Tag} (h : valueContent? t = some (tag, rest)) :
    rest <:+ t := by
  unfold valueContent? at h
  split at h
  · next hcall =>
    cases h
    exact nestedCall?_suffix hcall
  · obtain ⟨⟨path, after⟩, hpath, h⟩ := Option.map_eq_some_iff.mp h
    cases h
    exact (path?_suffix hpath).trans (skip_suffix t)

theorem content?_suffix {tag : WithFaults Tag} (h : content? t = some (tag, rest)) :
    rest <:+ t := by
  unfold content? at h
  split at h
  · next hcall =>
    cases h
    exact (operands_suffix _).namedCall hcall
  · exact valueContent?_suffix h

theorem blockNames?_suffix {names : List Text} (h : blockNames? t = some (names, rest)) :
    rest <:+ t := by
  simp only [blockNames?, Option.bind_eq_bind, Option.bind_eq_some_iff, Prod.exists] at h
  obtain ⟨afterAs, has, afterBar, hbar, first, afterFirst, hfirst, h⟩ := h
  have hafter : afterFirst <:+ t := (identifier?_suffix hfirst).trans
    ((token?_suffix hbar).trans (token?_suffix has))
  split at h
  · next hsecond =>
    simp only [Option.some.injEq, Prod.mk.injEq] at h
    obtain ⟨closing, hclose, -, rfl⟩ := h
    exact (token?_suffix hclose).trans ((identifier?_suffix hsecond).trans hafter)
  · simp only [Option.some.injEq, Prod.mk.injEq] at h
    obtain ⟨closing, hclose, -, rfl⟩ := h
    exact (token?_suffix hclose).trans hafter

theorem withOperands_suffix (name t : Text) : (withOperands name t).2 <:+ t := by
  change (operands (operandFuel t) ⟨[], []⟩ t).2 <:+ t
  exact (operands_suffix _).operands _ t

theorem blockStart?_suffix {start : BlockStart} (h : blockStart? t = some (start, rest)) :
    rest <:+ t := by
  simp only [blockStart?, Option.bind_eq_bind, Option.bind_eq_some_iff, Prod.exists] at h
  obtain ⟨name, after, hname, h⟩ := h
  have hafter : (withOperands name after).2 <:+ t :=
    (withOperands_suffix name after).trans (identifier?_suffix hname)
  split at h
  · next hnames =>
    cases h
    exact (blockNames?_suffix hnames).trans hafter
  · cases h
    exact hafter

theorem templateName?_suffix {name : Text} (h : templateName? t = some (name, rest)) :
    rest <:+ t := by
  unfold templateName? at h
  dsimp only at h
  refine List.IsSuffix.trans ?_ (skip_suffix t)
  split at h
  · cases h
    exact List.dropWhile_suffix _
  · split at h
    · next inner hinner =>
      rw [hinner]
      split at h
      · next c after hdrop =>
        split at h
        · exact absurd h (by simp)
        · cases h
          have hrest : c :: rest <:+ inner := hdrop ▸ List.dropWhile_suffix _
          exact ((List.suffix_cons c rest).trans hrest).trans (List.suffix_cons _ inner)
      · exact absurd h (by simp)
    · exact absurd h (by simp)

theorem target?_suffix {read : WithFaults (Text × Target)} (h : target? t = some (read, rest)) :
    rest <:+ t := by
  unfold target? at h
  split at h
  · next hname =>
    cases h
    exact templateName?_suffix hname
  · split at h
    · next hcall =>
      cases h
      exact nestedCall?_suffix hcall
    · obtain ⟨⟨path, after⟩, hpath, h⟩ := Option.map_eq_some_iff.mp h
      cases h
      exact (path?_suffix hpath).trans (skip_suffix t)

theorem inclusionStart?_suffix {start : InclusionStart}
    (h : inclusionStart? t = some (start, rest)) : rest <:+ t := by
  simp only [inclusionStart?, Option.bind_eq_bind, Option.bind_eq_some_iff, Option.some.injEq,
    Prod.mk.injEq, Prod.exists] at h
  obtain ⟨read, after, htarget, -, rfl⟩ := h
  exact (withOperands_suffix _ after).trans (target?_suffix htarget)

theorem blockHead?_suffix {head : BlockStart → Head} {read : WithFaults Head}
    (h : blockHead? head t = some (read, rest)) : rest <:+ t := by
  obtain ⟨⟨start, after⟩, hstart, h⟩ := Option.map_eq_some_iff.mp h
  cases h
  exact blockStart?_suffix hstart

theorem inclusionHead?_suffix {read : WithFaults Head}
    (h : inclusionHead? t = some (read, rest)) : rest <:+ t := by
  obtain ⟨⟨start, after⟩, hstart, h⟩ := Option.map_eq_some_iff.mp h
  cases h
  exact inclusionStart?_suffix hstart

end Stencil.Template
