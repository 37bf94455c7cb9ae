import Stencil.Template.Piece
import Stencil.Template.Scope

/-!
# Variables in double braces

A tag that holds nothing but a name is the value at that name, whatever follows the tag. Main
statement: the readers of tags, tried in their order, settle on this reading.
-/

namespace Stencil.Template

/-- A name that stands for a variable of the data: characters of names, and none of the two words
that mean something else where a value may stand alone. -/
structure IsVariable (name : Text) : Prop where
  nonempty : name ≠ []
  symbols : ∀ c ∈ name, isSymbol c = true
  not_this : name ≠ "this".toList
  not_else : name ≠ "else".toList

instance (name : Text) : Decidable (IsVariable name) :=
  decidable_of_iff
    (name ≠ [] ∧ name.all isSymbol = true ∧ name ≠ "this".toList ∧ name ≠ "else".toList)
    ⟨fun ⟨h₁, h₂, h₃, h₄⟩ => ⟨h₁, List.all_eq_true.mp h₂, h₃, h₄⟩,
      fun ⟨h₁, h₂, h₃, h₄⟩ => ⟨h₁, List.all_eq_true.mpr h₂, h₃, h₄⟩⟩

/-- The path to the member of a name. -/
def Path.ofName (name : Text) : Path := ⟨name, [.named name]⟩

theorem evaluate_ofName (members : Members) (name : Text) :
    (Path.ofName name).evaluate (.ofData (.object members)) = .ok (members.get? name) := rfl

/-- The tag for the value at a name. -/
def variableReading (name : Text) : TagReading := ⟨.value (.path (.ofName name)), false, false, []⟩

/-! ## At a closing brace

What stands there is no operand and no further step of a path. -/

section
variable (t : Text)

theorem literal?_brace (fuel : Nat) : literal? fuel ('\x7d' :: t) = none := by
  cases fuel <;> rfl

theorem path?_brace : path? ('\x7d' :: t) = none := rfl

theorem nestedCall?_brace (fuel : Nat) : nestedCall? fuel ('\x7d' :: t) = none := by
  cases fuel <;> rfl

theorem option?_brace (fuel : Nat) : option? fuel ('\x7d' :: t) = none := by
  cases fuel <;> rfl

theorem operand?_brace (fuel : Nat) : operand? fuel ('\x7d' :: t) = none := by
  cases fuel with
  | zero => rfl
  | succ fuel =>
    have hskip : skip ('\x7d' :: t) = '\x7d' :: t := rfl
    have hkeyword : startsKeyword ('\x7d' :: t) = false := rfl
    simp [operand?, hskip, hkeyword, literal?_brace, path?_brace, nestedCall?_brace]

theorem operands_brace (fuel : Nat) (read : Operands) :
    operands fuel read ('\x7d' :: t) = (⟨read, []⟩, '\x7d' :: t) := by
  cases fuel with
  | zero => rfl
  | succ fuel => simp [operands, option?_brace, operand?_brace]

theorem moreItems_brace (fuel : Nat) : moreItems fuel ('\x7d' :: t) = ([], '\x7d' :: t) := by
  cases fuel <;> rfl

end

/-! ## At a name -/

theorem ne_of_isSymbol {c d : Char} (hc : isSymbol c = true) (hd : isSymbol d = false) : c ≠ d := by
  rintro rfl
  rw [hc] at hd
  exact absurd hd (by simp)

theorem isSpace_of_isSymbol {c : Char} (hc : isSymbol c = true) : isSpace c = false := by
  have h₁ := ne_of_isSymbol hc (d := ' ') (by decide)
  have h₂ := ne_of_isSymbol hc (d := '\t') (by decide)
  have h₃ := ne_of_isSymbol hc (d := '\n') (by decide)
  have h₄ := ne_of_isSymbol hc (d := '\r') (by decide)
  simp [isSpace, h₁, h₂, h₃, h₄]

section
variable {c : Char} (hc : isSymbol c = true) (t : Text)
include hc

theorem skip_symbol : skip (c :: t) = c :: t :=
  List.dropWhile_cons_of_neg (by simp [isSpace_of_isSymbol hc])

/-- No mark that begins with something else than a name stands there. -/
theorem afterPrefix?_symbol {d : Char} (mark : Text) (hd : isSymbol d = false) :
    Text.afterPrefix? (d :: mark) (c :: t) = none := by
  simp [Text.afterPrefix?, (ne_of_isSymbol hc hd).symm]

theorem token?_symbol {d : Char} (mark : Text) (hd : isSymbol d = false) :
    token? (d :: mark) (c :: t) = none := by
  rw [token?, skip_symbol hc, afterPrefix?_symbol hc t mark hd]

theorem separator?_symbol : separator? (c :: t) = none := by
  have hdot := ne_of_isSymbol hc (d := '.') (by decide)
  have hslash := ne_of_isSymbol hc (d := '/') (by decide)
  unfold separator?
  split
  · next h => exact absurd (List.cons.inj h).1 hdot
  · next h => exact absurd (List.cons.inj h).1 hslash
  · rfl

theorem tilde_symbol : tilde (c :: t) = (false, c :: t) := by
  rw [tilde, token?_symbol hc t [] (by decide)]

theorem closed?_symbol : closed? closeMark (c :: t) = none := by
  have htoken : token? closeMark (c :: t) = none := token?_symbol hc t ['\x7d'] (by decide)
  simp [closed?, tilde_symbol hc, htoken]

end

/-! ## A name before the mark that closes a tag -/

/-- A word at the start of a name and the mark that closes a tag is the start of the name. -/
theorem name_of_afterPrefix? {name word after rest : Text} (hword : '\x7d' ∉ word)
    (hafter : Text.afterPrefix? word (name ++ (closeMark ++ rest)) = some after) :
    ∃ left, name = word ++ left ∧ after = left ++ (closeMark ++ rest) := by
  have heq := Text.eq_append_of_afterPrefix? hafter
  rcases List.append_eq_append_iff.mp heq with ⟨more, hmore, hmark⟩ | ⟨left, hleft, hrest⟩
  · cases more with
    | nil => exact ⟨[], by simpa using hmore.symm, by simpa using hmark.symm⟩
    | cons d more =>
      have hd : '\x7d' = d := (List.cons.inj hmark).1
      exact absurd (by simp [hmore, ← hd]) hword
  · exact ⟨left, hleft, hrest⟩

theorem closed?_closeMark (rest : Text) :
    closed? closeMark (closeMark ++ rest) = some (false, rest) := by
  have htilde : tilde (closeMark ++ rest) = (false, closeMark ++ rest) := rfl
  have htoken : token? closeMark (closeMark ++ rest) = some rest :=
    Text.afterPrefix?_append closeMark rest
  simp [closed?, htilde, htoken]

namespace IsVariable
variable {name : Text} (h : IsVariable name) (rest : Text)
include h

theorem exists_cons : ∃ c tail, name = c :: tail ∧ isSymbol c = true := by
  cases name with
  | nil => exact absurd rfl h.nonempty
  | cons c tail => exact ⟨c, tail, rfl, h.symbols c List.mem_cons_self⟩

theorem skip_append : skip (name ++ rest) = name ++ rest := by
  obtain ⟨c, tail, rfl, hc⟩ := h.exists_cons
  exact skip_symbol hc (tail ++ rest)

theorem word?_append : word? (name ++ (closeMark ++ rest)) = some (name, closeMark ++ rest) := by
  have htake : (name ++ (closeMark ++ rest)).takeWhile isSymbol = name := by
    rw [List.takeWhile_append_of_pos h.symbols]
    exact List.append_nil name
  have hdrop : (name ++ (closeMark ++ rest)).dropWhile isSymbol = closeMark ++ rest := by
    rw [List.dropWhile_append_of_pos h.symbols]
    rfl
  simp [word?, htake, hdrop, h.nonempty]

theorem identifier?_append :
    identifier? (name ++ (closeMark ++ rest)) = some (name, closeMark ++ rest) := by
  rw [identifier?, h.skip_append, h.word?_append]

theorem item?_append : item? (name ++ (closeMark ++ rest)) = some (name, closeMark ++ rest) := by
  obtain ⟨c, tail, hname, hc⟩ := h.exists_cons
  rw [← h.word?_append, hname]
  unfold item?
  split
  · next heq => exact absurd (List.cons.inj heq).1 (ne_of_isSymbol hc (by decide))
  · rfl

/-- No step of a path ends inside the name or at its end. -/
theorem separator?_after_word (word : Text) (hword : '\x7d' ∉ word) :
    (Text.afterPrefix? word (name ++ (closeMark ++ rest))).bind separator? = none := by
  cases hafter : Text.afterPrefix? word (name ++ (closeMark ++ rest)) with
  | none => rfl
  | some after =>
    obtain ⟨left, hname, rfl⟩ := name_of_afterPrefix? hword hafter
    cases left with
    | nil => rfl
    | cons d left =>
      have hd : isSymbol d = true := h.symbols d (by simp [hname])
      exact separator?_symbol hd (left ++ (closeMark ++ rest))

theorem afterCurrent_append :
    afterCurrent (name ++ (closeMark ++ rest)) = name ++ (closeMark ++ rest) := by
  have hthis := h.separator?_after_word rest "this".toList (by decide)
  obtain ⟨c, tail, hname, hc⟩ := h.exists_cons
  have hdot : Text.afterPrefix? ['.', '/'] (name ++ (closeMark ++ rest)) = none := by
    rw [hname]
    exact afterPrefix?_symbol hc _ _ (by decide)
  simp only [afterCurrent, hthis, hdot, Option.getD_none]

theorem rootMark_append :
    rootMark (name ++ (closeMark ++ rest)) = ([], name ++ (closeMark ++ rest)) := by
  simp only [rootMark, h.separator?_after_word rest "@root".toList (by decide)]

theorem variableStart_append :
    variableStart (name ++ (closeMark ++ rest)) = ([], name ++ (closeMark ++ rest)) := by
  obtain ⟨c, tail, rfl, hc⟩ := h.exists_cons
  unfold variableStart
  split
  · next heq => exact absurd (List.cons.inj heq).1 (ne_of_isSymbol hc (by decide))
  · rfl

theorem ups_append (fuel : Nat) :
    ups fuel (name ++ (closeMark ++ rest)) = ([], name ++ (closeMark ++ rest)) := by
  cases fuel with
  | zero => rfl
  | succ fuel => simp [ups, h.separator?_after_word rest ['.', '.'] (by decide)]

/-- The name is a path of one step. -/
theorem path?_append :
    path? (name ++ (closeMark ++ rest)) = some (.ofName name, closeMark ++ rest) := by
  have hmore (fuel : Nat) : moreItems fuel (closeMark ++ rest) = ([], closeMark ++ rest) :=
    moreItems_brace ('\x7d' :: rest) fuel
  have hconsumed : consumed (name ++ (closeMark ++ rest)) (closeMark ++ rest) = name := by
    simp [consumed]
  have hsegments : namedSegments name = [.named name] := if_neg h.not_this
  simp [path?, h.afterCurrent_append, h.rootMark_append, h.variableStart_append, h.ups_append,
    h.item?_append, hmore, hconsumed, hsegments, Path.ofName]

theorem token?_append {d : Char} (mark : Text) (hd : isSymbol d = false) :
    token? (d :: mark) (name ++ rest) = none := by
  obtain ⟨c, tail, rfl, hc⟩ := h.exists_cons
  exact token?_symbol hc (tail ++ rest) mark hd

theorem tilde_append : tilde (name ++ rest) = (false, name ++ rest) := by
  rw [tilde, h.token?_append rest [] (by decide)]

theorem nestedCall?_append (fuel : Nat) : nestedCall? fuel (name ++ rest) = none := by
  cases fuel with
  | zero => rfl
  | succ fuel => simp [nestedCall?, h.token?_append rest [] (d := '(') (by decide)]

/-- Without operands a name is no call. -/
theorem namedCall?_append (fuel : Nat) : namedCall? fuel (name ++ (closeMark ++ rest)) = none := by
  cases fuel with
  | zero => rfl
  | succ fuel =>
    have hoperands : operands fuel ⟨[], []⟩ (closeMark ++ rest) =
        (⟨⟨[], []⟩, []⟩, closeMark ++ rest) := operands_brace ('\x7d' :: rest) fuel _
    simp [namedCall?, h.identifier?_append, hoperands]

theorem content?_append : content? (name ++ (closeMark ++ rest)) =
    some (⟨.value (.path (.ofName name)), []⟩, closeMark ++ rest) := by
  simp [content?, valueContent?, h.namedCall?_append, h.nestedCall?_append, h.skip_append,
    h.path?_append]

theorem opened?_append : opened? openMark (openMark ++ (name ++ rest)) =
    some (false, name ++ rest) := by
  simp [opened?, h.tilde_append]

/-- The tag is not the one between the parts of a block, even when its name begins like that. -/
theorem otherwise?_append : otherwise? (openMark ++ (name ++ (closeMark ++ rest))) = none := by
  have hcaret : token? ['^'] (name ++ (closeMark ++ rest)) = none :=
    h.token?_append (closeMark ++ rest) [] (by decide)
  simp only [otherwise?, between?, h.opened?_append, hcaret, Option.or_none, Option.bind_eq_bind,
    Option.bind_some]
  cases hword : token? "else".toList (name ++ (closeMark ++ rest)) with
  | none => rfl
  | some after =>
    rw [token?, h.skip_append] at hword
    obtain ⟨left, hname, rfl⟩ := name_of_afterPrefix? (by decide) hword
    -- Either the name is the word itself, or it goes on where the closing mark should stand.
    cases left with
    | nil => exact absurd (by simpa using hname) h.not_else
    | cons d left =>
      have hd : isSymbol d = true := h.symbols d (by simp [hname])
      simp [closed?_symbol hd]

/-- A name in double braces is read as the value at the name. -/
theorem freeTag?_append : freeTag? (openMark ++ (name ++ (closeMark ++ rest))) =
    some (variableReading name, rest) := by
  have hread : expression? (openMark ++ (name ++ (closeMark ++ rest))) =
      some (variableReading name, rest) := by
    simp [expression?, h.otherwise?_append, between?, h.opened?_append, h.content?_append,
      closed?_closeMark, variableReading]
  simp [freeTag?, hread]

end IsVariable

end Stencil.Template
