import Stencil.CommandLine
import Stencil.Proofs.Fallible

/-!
# The option for an output

Main statement: a command line with the option for an output and its path, wherever they stand,
asks for what it asks for without these two words, apart from the output. The reader of the longer
line runs ahead of the other by one setting that is still pending or already set; each word that
both read keeps them so.
-/

namespace Stencil.CommandLine
open Fallible

/-- The words for the option, to which no value is joined. -/
def outputOptions : List Text := ["--output".toList, "-o".toList]

def Settings.addOutput (settings : Settings) (path : Text) : Settings :=
  { settings with output := some path }

theorem Settings.set_addOutput {settings set' : Settings} {path value : Text} {p : Parameter}
    (hfresh : settings.output = none) (h : (settings.addOutput path).set value p = .ok set') :
    ∃ set, settings.set value p = .ok set ∧ set.output = none ∧ set' = set.addOutput path := by
  cases p with
  | config =>
    obtain ⟨config, hconfig, rfl⟩ := map_eq_ok_iff.mp h
    exact ⟨{ settings with config }, map_eq_ok_iff.mpr ⟨config, hconfig, rfl⟩, hfresh, rfl⟩
  | context =>
    obtain ⟨context, hcontext, rfl⟩ := map_eq_ok_iff.mp h
    exact ⟨{ settings with context }, map_eq_ok_iff.mpr ⟨context, hcontext, rfl⟩, hfresh, rfl⟩
  | assignment =>
    cases h
    exact ⟨_, rfl, hfresh, rfl⟩
  | output =>
    -- This is the second output.
    have hrepeated : (settings.addOutput path).set value .output = .error .repeated := rfl
    exact absurd (hrepeated.symm.trans h) (by simp)
  | format =>
    rw [Settings.set] at h ⊢
    split at h
    · exact absurd h (by simp)
    · next hnone =>
      obtain ⟨format, hformat, rfl⟩ := map_eq_ok_iff.mp h
      rw [if_neg (show ¬settings.format.isSome from hnone)]
      exact ⟨{ settings with format := some format }, map_eq_ok_iff.mpr ⟨format, hformat, rfl⟩,
        hfresh, rfl⟩

namespace State

def addOutput (s : State) (path : Text) : State := { s with settings := s.settings.addOutput path }

/-- The first of two states has the setting of an output in addition. -/
structure Adds (path : Text) (s' s : State) : Prop where
  fresh : s.settings.output = none
  eq : s' = s.addOutput path

/-- The first of two states has an output in addition once what is pending is set. Both await a
value, or neither does. -/
structure Ahead (path : Text) (s' s : State) : Prop where
  literal : s'.literal = s.literal
  full : s'.full = s.full
  settle : ∀ t', s'.settle = .ok t' → ∃ t, s.settle = .ok t ∧ Adds path t' t
  awaits : ∀ p, s'.pending = .parameter p none → Adds path s' s
  awaits_of : ∀ p, s.pending = .parameter p none → s'.pending = .parameter p none

variable {path : Text} {s' s t' : State} {command : Option CommandName}

theorem Adds.ahead (h : Adds path s' s) : Ahead path s' s := by
  have hadds := h
  obtain ⟨hfresh, rfl⟩ := h
  refine ⟨rfl, rfl, fun t' hsettle => ?_, fun _ _ => hadds, fun _ hawaits => hawaits⟩
  have hpending : (s.addOutput path).pending = s.pending := rfl
  rw [State.settle] at hsettle ⊢
  rw [hpending] at hsettle
  cases hwhat : s.pending with
  | nothing =>
    simp only [hwhat] at hsettle ⊢
    cases hsettle
    exact ⟨s, rfl, hadds⟩
  | parameter p value =>
    cases value with
    | none => simp [hwhat] at hsettle
    | some value =>
      simp only [hwhat] at hsettle ⊢
      obtain ⟨set', hset', rfl⟩ := map_eq_ok_iff.mp hsettle
      obtain ⟨set, hset, hset_fresh, rfl⟩ := Settings.set_addOutput hfresh hset'
      exact ⟨_, map_eq_ok_iff.mpr ⟨set, hset, rfl⟩, hset_fresh, rfl⟩
  | operand value =>
    simp only [hwhat] at hsettle ⊢
    obtain ⟨operand, hoperand, rfl⟩ := map_eq_ok_iff.mp hsettle
    exact ⟨_, map_eq_ok_iff.mpr ⟨operand, hoperand, rfl⟩, hfresh, rfl⟩

/-! ## Each word that both read -/

theorem Ahead.flag (h : Ahead path s' s) {f : Flag} (hread : s'.flag command f = .ok t') :
    ∃ t, s.flag command f = .ok t ∧ Adds path t' t := by
  obtain ⟨r', hr', hflag⟩ := bind_eq_ok_iff.mp hread
  obtain ⟨r, hr, hfresh, rfl⟩ := h.settle r' hr'
  cases f with
  | verbose =>
    cases hset : r.settings.verbose with
    | true => simp [addOutput, Settings.addOutput, hset] at hflag
    | false =>
      simp only [addOutput, Settings.addOutput, hset, Bool.false_eq_true, if_false,
        pure_eq_ok_iff] at hflag
      refine ⟨{ r with settings := { r.settings with verbose := true } }, ?_, hfresh, hflag.symm⟩
      simp [State.flag, hr, hset, bind, pure, Except.bind, Except.pure]
  | noColor =>
    cases hset : r.settings.noColor with
    | true => simp [addOutput, Settings.addOutput, hset] at hflag
    | false =>
      simp only [addOutput, Settings.addOutput, hset, Bool.false_eq_true, if_false,
        pure_eq_ok_iff] at hflag
      refine ⟨{ r with settings := { r.settings with noColor := true } }, ?_, hfresh, hflag.symm⟩
      simp [State.flag, hr, hset, bind, pure, Except.bind, Except.pure]
  | help => exact absurd hflag (throw_ne_ok _ _)
  | version => exact absurd hflag (throw_ne_ok _ _)

theorem Ahead.parameter (h : Ahead path s' s) {p : Parameter} {value : Option Text}
    (hread : s'.parameter p value = .ok t') :
    ∃ t, s.parameter p value = .ok t ∧ Adds path t' t := by
  obtain ⟨r', hr', hset'⟩ := bind_eq_ok_iff.mp hread
  obtain ⟨r, hr, hfresh, rfl⟩ := h.settle r' hr'
  cases value with
  | none =>
    cases hset'
    exact ⟨_, bind_eq_ok_iff.mpr ⟨r, hr, rfl⟩, hfresh, rfl⟩
  | some value =>
    obtain ⟨set', hset', ht'⟩ := bind_eq_ok_iff.mp hset'
    obtain ⟨set, hset, hset_fresh, rfl⟩ := Settings.set_addOutput hfresh hset'
    exact ⟨_, bind_eq_ok_iff.mpr ⟨r, hr, bind_eq_ok_iff.mpr ⟨set, hset, rfl⟩⟩, hset_fresh,
      (pure_eq_ok_iff.mp ht').symm⟩

/-- The name of a long option, and the value that is joined to it. -/
def joined (word : Text) : Text × Option Text :=
  match Text.splitOnce? '=' word with
  | some (name, value) => (name, some value)
  | none => (word, none)

theorem long_eq (s : State) (word : Text) :
    s.long command word =
      match longOption? command (joined word).1 with
      | none => .error .unknownArgument
      | some (.flag f) =>
        if (joined word).2.isSome then .error .unexpectedValue else s.flag command f
      | some (.parameter p) => s.parameter p (joined word).2 := rfl

theorem Ahead.long (h : Ahead path s' s) {word : Text} (hread : s'.long command word = .ok t') :
    ∃ t, s.long command word = .ok t ∧ Adds path t' t := by
  rw [long_eq] at hread ⊢
  cases hoption : longOption? command (joined word).1 with
  | none => simp [hoption] at hread
  | some option =>
    rw [hoption] at hread
    cases option with
    | flag f =>
      cases hvalue : (joined word).2.isSome with
      | true => simp [hvalue] at hread
      | false =>
        simp only [hvalue, Bool.false_eq_true, if_false] at hread ⊢
        exact h.flag hread
    | parameter p => exact h.parameter hread

theorem Ahead.short (h : Ahead path s' s) {word : Text} (hread : s'.short command word = .ok t') :
    ∃ t, s.short command word = .ok t ∧ Ahead path t' t := by
  induction word generalizing s' s with
  | nil =>
    cases hread
    exact ⟨s, rfl, h⟩
  | cons c rest ih =>
    rw [State.short] at hread ⊢
    cases hoption : shortOption? command c with
    | none => simp [hoption] at hread
    | some option =>
      rw [hoption] at hread
      cases option with
      | flag f =>
        obtain ⟨r', hr', hrest⟩ := bind_eq_ok_iff.mp hread
        obtain ⟨r, hr, hadds⟩ := h.flag hr'
        obtain ⟨t, ht, hahead⟩ := ih hadds.ahead hrest
        exact ⟨t, bind_eq_ok_iff.mpr ⟨r, hr, ht⟩, hahead⟩
      | parameter p =>
        have hvalue (value : Option Text) (hset : s'.parameter p value = .ok t') :
            ∃ t, s.parameter p value = .ok t ∧ Ahead path t' t := by
          obtain ⟨t, ht, hadds⟩ := h.parameter hset
          exact ⟨t, ht, hadds.ahead⟩
        dsimp only at hread ⊢
        split at hread <;> exact hvalue _ hread

/-- A word is a value where one is awaited, and otherwise an operand. -/
theorem word_of_awaits {s : State} {p : Parameter} (hpending : s.pending = .parameter p none)
    (hliteral : s.literal = false) (word : Text) :
    s.word word = .ok { s with pending := .parameter p (some word) } := by
  simp [State.word, hpending, hliteral]

theorem word_of_not_awaits {s : State}
    (h : ∀ p, s.pending = .parameter p none → s.literal = true) (word : Text) :
    s.word word =
      if s.full then .error .unknownArgument
      else s.settle.bind fun s => .ok { s with pending := .operand word, full := true } := by
  rw [State.word]
  split
  · next p hpending hliteral => exact absurd (h p hpending) (by simp [hliteral])
  · rfl

theorem Ahead.word (h : Ahead path s' s) {word : Text} (hread : s'.word word = .ok t') :
    ∃ t, s.word word = .ok t ∧ Ahead path t' t := by
  by_cases hawaits : ∃ p, s'.pending = .parameter p none ∧ s'.literal = false
  · obtain ⟨p, hpending, hliteral⟩ := hawaits
    obtain ⟨hfresh, rfl⟩ := h.awaits p hpending
    have hread' := word_of_awaits hpending hliteral word
    have hword := word_of_awaits (s := s) hpending hliteral word
    exact ⟨_, hword, Adds.ahead ⟨hfresh, Except.ok.inj (hread.symm.trans hread')⟩⟩
  · have hnot' : ∀ p, s'.pending = .parameter p none → s'.literal = true := fun p hpending => by
      simpa using fun hliteral => hawaits ⟨p, hpending, hliteral⟩
    have hnot : ∀ p, s.pending = .parameter p none → s.literal = true := fun p hpending =>
      h.literal ▸ hnot' p (h.awaits_of p hpending)
    rw [word_of_not_awaits hnot', h.full] at hread
    rw [word_of_not_awaits hnot]
    cases hfull : s.full with
    | true => simp [hfull] at hread
    | false =>
      simp only [hfull, Bool.false_eq_true, if_false] at hread ⊢
      obtain ⟨r', hr', hset⟩ := bind_eq_ok_iff.mp hread
      obtain ⟨r, hr, hfresh, rfl⟩ := h.settle r' hr'
      cases hset
      exact ⟨_, bind_eq_ok_iff.mpr ⟨r, hr, rfl⟩, Adds.ahead ⟨hfresh, rfl⟩⟩

theorem settle_literal (s : State) :
    ({ s with literal := true } : State).settle =
      s.settle.map fun t => { t with literal := true } := by
  obtain ⟨settings, pending, literal, full⟩ := s
  cases pending with
  | nothing => rfl
  | operand value =>
    simp only [State.settle]
    cases CommandLine.path settings.operand value <;> rfl
  | parameter p value =>
    cases value with
    | none => rfl
    | some value =>
      simp only [State.settle]
      cases settings.set value p <;> rfl

/-- The two dashes set nothing. -/
theorem Ahead.dashes (h : Ahead path s' s) :
    Ahead path { s' with literal := true } { s with literal := true } := by
  refine ⟨rfl, h.full, fun t' hsettle => ?_, fun p hawaits => ?_, h.awaits_of⟩
  · rw [settle_literal] at hsettle
    obtain ⟨r', hr', rfl⟩ := map_eq_ok_iff.mp hsettle
    obtain ⟨r, hr, hfresh, rfl⟩ := h.settle r' hr'
    refine ⟨{ r with literal := true }, ?_, hfresh, rfl⟩
    rw [settle_literal, hr]
    rfl
  · obtain ⟨hfresh, rfl⟩ := h.awaits p hawaits
    exact ⟨hfresh, rfl⟩

/-- What a word is to every reader for which words can be options. -/
inductive Form (command : Option CommandName) (word : Text) : Prop
  | dashes : (∀ s : State, s.literal = false →
      s.read command word = .ok { s with literal := true }) → Form command word
  | long (rest : Text) : (∀ s : State, s.literal = false →
      s.read command word = s.long command rest) → Form command word
  | short (c : Char) (rest : Text) : (∀ s : State, s.literal = false →
      s.read command word = s.short command (c :: rest)) → Form command word
  | plain : (∀ s : State, s.literal = false → s.read command word = s.word word) →
      Form command word

theorem form (command : Option CommandName) (word : Text) : Form command word := by
  have hread := fun (s : State) (h : s.literal = false) =>
    (State.read.eq_def command s word).trans (if_neg (by simp [h]))
  split at hread
  · exact .dashes hread
  · exact .long _ hread
  · exact .short _ _ hread
  · exact .plain hread

theorem Ahead.read (h : Ahead path s' s) {word : Text} (hread : s'.read command word = .ok t') :
    ∃ t, s.read command word = .ok t ∧ Ahead path t' t := by
  cases hliteral : s.literal with
  | true =>
    have hread' : ∀ r : State, r.literal = true → r.read command word = r.word word :=
      fun r hr => by rw [State.read.eq_def, hr, if_pos rfl]
    rw [hread' s' (h.literal.trans hliteral)] at hread
    rw [hread' s hliteral]
    exact h.word hread
  | false =>
    have hliteral' := h.literal.trans hliteral
    cases form command word with
    | dashes hform =>
      rw [hform s' hliteral'] at hread
      cases hread
      exact ⟨_, hform s hliteral, h.dashes⟩
    | long rest hform =>
      rw [hform s' hliteral'] at hread
      obtain ⟨t, ht, hadds⟩ := h.long hread
      exact ⟨t, (hform s hliteral).trans ht, hadds.ahead⟩
    | short c rest hform =>
      rw [hform s' hliteral'] at hread
      rw [hform s hliteral]
      exact h.short hread
    | plain hform =>
      rw [hform s' hliteral'] at hread
      rw [hform s hliteral]
      exact h.word hread

theorem Ahead.foldlM {words : List Text} (h : Ahead path s' s)
    (hread : words.foldlM (State.read command) s' = .ok t') :
    ∃ t, words.foldlM (State.read command) s = .ok t ∧ Ahead path t' t := by
  -- Being ahead is the invariant; the states of both readers change with each word.
  induction words generalizing s' s with
  | nil =>
    cases hread
    exact ⟨s, rfl, h⟩
  | cons word words ih =>
    rw [List.foldlM_cons] at hread ⊢
    obtain ⟨r', hr', hrest⟩ := bind_eq_ok_iff.mp hread
    obtain ⟨r, hr, hahead⟩ := h.read hr'
    obtain ⟨t, ht, hdone⟩ := ih hahead hrest
    exact ⟨t, bind_eq_ok_iff.mpr ⟨r, hr, ht⟩, hdone⟩

/-! ## The two words -/

theorem settle_eq_ok {s t : State} (h : s.settle = .ok t) :
    t.pending = .nothing ∧ t.literal = s.literal ∧ t.full = s.full := by
  obtain ⟨settings, pending, literal, full⟩ := s
  cases pending with
  | nothing =>
    cases h
    exact ⟨rfl, rfl, rfl⟩
  | operand value =>
    obtain ⟨operand, -, rfl⟩ := map_eq_ok_iff.mp h
    exact ⟨rfl, rfl, rfl⟩
  | parameter p value =>
    cases value with
    | none => exact absurd h (by simp [State.settle])
    | some value =>
      obtain ⟨set, -, rfl⟩ := map_eq_ok_iff.mp h
      exact ⟨rfl, rfl, rfl⟩

theorem settle_of_awaits {s : State} {p : Parameter} (h : s.pending = .parameter p none) :
    s.settle = .error .invalidValue := by
  rw [State.settle, h]

/-- Where a value is awaited, no option can be read. -/
theorem flag_ne_ok {s : State} {p : Parameter} (h : s.pending = .parameter p none) (f : Flag)
    (t : State) : s.flag command f ≠ .ok t := by
  intro hread
  obtain ⟨r, hr, -⟩ := bind_eq_ok_iff.mp hread
  exact absurd ((settle_of_awaits h).symm.trans hr) (by simp)

theorem parameter_ne_ok {s : State} {p : Parameter} (h : s.pending = .parameter p none)
    (q : Parameter) (value : Option Text) (t : State) : s.parameter q value ≠ .ok t := by
  intro hread
  obtain ⟨r, hr, -⟩ := bind_eq_ok_iff.mp hread
  exact absurd ((settle_of_awaits h).symm.trans hr) (by simp)

theorem long_ne_ok {s : State} {p : Parameter} (h : s.pending = .parameter p none) (word : Text)
    (t : State) : s.long command word ≠ .ok t := by
  rw [long_eq]
  split
  · simp
  · split
    · simp
    · exact flag_ne_ok h _ t
  · exact parameter_ne_ok h _ _ t

theorem short_ne_ok {s : State} {p : Parameter} (h : s.pending = .parameter p none) (c : Char)
    (rest : Text) (t : State) : s.short command (c :: rest) ≠ .ok t := by
  rw [State.short]
  split
  · simp
  · intro hread
    obtain ⟨r, hr, -⟩ := bind_eq_ok_iff.mp hread
    exact flag_ne_ok h _ r hr
  · split <;> exact parameter_ne_ok h _ _ t

/-- After two dashes an awaited value never comes. -/
theorem foldlM_settle_ne_ok {s : State} {p : Parameter} (h : s.pending = .parameter p none)
    (hliteral : s.literal = true) (words : List Text) (t : State) :
    (words.foldlM (State.read command) s >>= settle) ≠ .ok t := by
  cases words with
  | nil =>
    rw [List.foldlM_nil, pure_bind, settle_of_awaits h]
    simp
  | cons word words =>
    have hread : ∀ r, s.read command word ≠ .ok r := by
      intro r hr
      rw [State.read.eq_def, hliteral, if_pos rfl, word_of_not_awaits fun _ _ => hliteral,
        settle_of_awaits h] at hr
      split at hr <;> exact absurd hr (by simp [Except.bind])
    intro hrun
    rw [List.foldlM_cons, bind_assoc] at hrun
    obtain ⟨r, hr, -⟩ := bind_eq_ok_iff.mp hrun
    exact hread r hr

theorem read_outputOption {option : Text} (hoption : option ∈ outputOptions) {s : State}
    (hliteral : s.literal = false) :
    s.read (some .resolve) option = s.parameter .output none := by
  simp only [outputOptions, List.mem_cons, List.not_mem_nil, or_false] at hoption
  rw [State.read.eq_def, hliteral]
  rcases hoption with rfl | rfl
  · rfl
  · rfl

theorem read_outputOption_unknown {option : Text} (hoption : option ∈ outputOptions)
    (hcommand : command ≠ some .resolve) {s : State} (hliteral : s.literal = false) :
    s.read command option = .error .unknownArgument := by
  simp only [outputOptions, List.mem_cons, List.not_mem_nil, or_false] at hoption
  rw [State.read.eq_def, hliteral]
  match command, hcommand with
  | none, _ => rcases hoption with rfl | rfl <;> rfl
  | some .render, _ => rcases hoption with rfl | rfl <;> rfl
  | some .digest, _ => rcases hoption with rfl | rfl <;> rfl

/-- The option and its path put a reader ahead. -/
theorem ahead_of_output {s r t : State} (hr : s.parameter .output none = .ok r)
    (ht : r.read (some .resolve) path = .ok t) (hliteral : s.literal = false)
    (hdone : ¬∃ p, t.pending = .parameter p none ∧ t.literal = true) : Ahead path t s := by
  obtain ⟨a, ha, hpending⟩ := bind_eq_ok_iff.mp hr
  obtain ⟨hnothing, hliteral_eq, hfull_eq⟩ := settle_eq_ok ha
  have hr_eq : { a with pending := .parameter .output none } = r := pure_eq_ok_iff.mp hpending
  have hawaits : r.pending = .parameter .output none := by rw [← hr_eq]
  have hliteral_r : r.literal = false := by
    rw [← hr_eq]
    exact hliteral_eq.trans hliteral
  cases form (some .resolve) path with
  | dashes hform =>
    have ht_eq := Except.ok.inj ((hform r hliteral_r).symm.trans ht)
    exact absurd ⟨.output, by rw [← ht_eq, hawaits], by rw [← ht_eq]⟩ hdone
  | long rest hform =>
    exact absurd ((hform r hliteral_r).symm.trans ht) (long_ne_ok hawaits rest t)
  | short c rest hform =>
    exact absurd ((hform r hliteral_r).symm.trans ht) (short_ne_ok hawaits c rest t)
  | plain hform =>
    have hword := word_of_awaits hawaits hliteral_r path
    have ht_eq := Except.ok.inj (hword.symm.trans ((hform r hliteral_r).symm.trans ht))
    rw [← hr_eq] at ht_eq
    subst ht_eq
    refine ⟨hliteral_eq, hfull_eq, fun t' hsettle => ?_, fun p h => ?_, fun p h => ?_⟩
    · obtain ⟨set, hset, rfl⟩ := map_eq_ok_iff.mp hsettle
      obtain ⟨output, houtput, rfl⟩ := map_eq_ok_iff.mp hset
      rw [CommandLine.path] at houtput
      split at houtput
      · exact absurd houtput (by simp)
      · next hfresh =>
        split at houtput
        · exact absurd houtput (by simp)
        · obtain rfl := Except.ok.inj houtput
          refine ⟨a, ha, by simpa using hfresh, ?_⟩
          rw [addOutput, Settings.addOutput, hnothing]
    · exact absurd h (by simp)
    · exact absurd ((settle_of_awaits h).symm.trans ha) (by simp)

/-- After two dashes there is room for one operand, and two words are none. -/
theorem literal_of_two_words {s r t : State} {word next : Text}
    (hr : s.read command word = .ok r) (ht : r.read command next = .ok t) : s.literal = false := by
  by_contra hne
  have hliteral : s.literal = true := by simpa using hne
  have hword (u : State) (hu : u.literal = true) (w : Text) :
      u.read command w =
        if u.full then .error .unknownArgument
        else u.settle.bind fun u => .ok { u with pending := .operand w, full := true } := by
    rw [State.read.eq_def, hu, if_pos rfl, word_of_not_awaits fun _ _ => hu]
  rw [hword s hliteral] at hr
  split at hr
  · exact absurd hr (by simp)
  · obtain ⟨a, ha, hr⟩ := bind_eq_ok_iff.mp hr
    have hr_eq := Except.ok.inj hr
    have hliteral_r : r.literal = true := by
      rw [← hr_eq]
      exact (settle_eq_ok ha).2.1.trans hliteral
    have hfull : r.full = true := by rw [← hr_eq]
    rw [hword r hliteral_r, if_pos hfull] at ht
    exact absurd ht (by simp)

end State

/-! ## Whole command lines -/

theorem readCommand_dropOutput {command : CommandName} {before after : List Text}
    {option path operand : Text} {set' : Settings} (hoption : option ∈ outputOptions)
    (h : readCommand command (before ++ option :: path :: after) = .ok (set', operand)) :
    command = .resolve ∧ ∃ set, readCommand command (before ++ after) = .ok (set, operand) ∧
      set.output = none ∧ set' = set.addOutput path := by
  obtain ⟨t', hwords, h⟩ := bind_eq_ok_iff.mp h
  obtain ⟨u', hsettle, h⟩ := bind_eq_ok_iff.mp h
  rw [List.foldlM_append] at hwords
  obtain ⟨s, hbefore, hwords⟩ := bind_eq_ok_iff.mp hwords
  rw [List.foldlM_cons] at hwords
  obtain ⟨r, hr, hwords⟩ := bind_eq_ok_iff.mp hwords
  rw [List.foldlM_cons] at hwords
  obtain ⟨t, ht, hafter⟩ := bind_eq_ok_iff.mp hwords
  have hliteral := State.literal_of_two_words hr ht
  have hcommand : command = .resolve := by
    by_contra hne
    have hunknown := State.read_outputOption_unknown hoption
      (fun heq => hne (Option.some.inj heq)) hliteral
    exact absurd (hunknown.symm.trans hr) (by simp)
  subst hcommand
  rw [State.read_outputOption hoption hliteral] at hr
  have hdone : ¬∃ p, t.pending = .parameter p none ∧ t.literal = true := by
    rintro ⟨p, hpending, hliteral_t⟩
    exact State.foldlM_settle_ne_ok hpending hliteral_t after u'
      (bind_eq_ok_iff.mpr ⟨t', hafter, hsettle⟩)
  have hahead := State.ahead_of_output hr ht hliteral hdone
  obtain ⟨v, hv, hahead_v⟩ := hahead.foldlM hafter
  obtain ⟨u, hu, hfresh, rfl⟩ := hahead_v.settle u' hsettle
  have hread : (before ++ after).foldlM (State.read (some .resolve)) .start = .ok v := by
    rw [List.foldlM_append]
    exact bind_eq_ok_iff.mpr ⟨s, hbefore, hv⟩
  have hsame : (u.addOutput path).settings.operand = u.settings.operand := rfl
  cases hoperand : u.settings.operand with
  | none => simp [hsame, hoperand] at h
  | some found =>
    simp only [hsame, hoperand, pure_eq_ok_iff, Prod.mk.injEq] at h
    obtain ⟨rfl, rfl⟩ := h
    refine ⟨rfl, u.settings, ?_, hfresh, rfl⟩
    refine bind_eq_ok_iff.mpr ⟨v, hread, bind_eq_ok_iff.mpr ⟨u, hu, ?_⟩⟩
    rw [hoperand]
    rfl

theorem readWords_dropOutput {after : List Text} {option path : Text}
    (hoption : option ∈ outputOptions) {before : List Text} {s : State} {i : Invocation}
    (h : readWords s (before ++ option :: path :: after) = .ok i) :
    ∃ document source format, i.command = .resolve document source (some path) format ∧
      readWords s (before ++ after) =
        .ok { i with command := .resolve document source none format } := by
  induction before generalizing s with
  | nil =>
    rw [List.nil_append, readWords] at h
    split at h
    · exact absurd h (by simp)
    · next hliteral =>
      have hunknown : s.read none option = .error .unknownArgument :=
        State.read_outputOption_unknown hoption (by simp) (by simpa using hliteral)
      have hdash : option.head? = some '-' ∧ option.length ≠ 1 := by
        simp only [outputOptions, List.mem_cons, List.not_mem_nil, or_false] at hoption
        rcases hoption with rfl | rfl
        · exact ⟨rfl, by decide⟩
        · exact ⟨rfl, by decide⟩
      rw [if_pos (by simp [hdash]), hunknown] at h
      exact absurd h (by simp [bind, Except.bind])
  | cons word before ih =>
    rw [List.cons_append, readWords] at h ⊢
    split at h
    · exact absurd h (by simp)
    · next hliteral =>
      rw [if_neg hliteral]
      split at h
      · next hreads =>
        rw [if_pos hreads]
        obtain ⟨t, ht, hrest⟩ := bind_eq_ok_iff.mp h
        obtain ⟨document, source, format, hcommand, hwords⟩ := ih hrest
        exact ⟨document, source, format, hcommand, bind_eq_ok_iff.mpr ⟨t, ht, hwords⟩⟩
      · next hreads =>
        rw [if_neg hreads]
        cases hname : commandOf? word with
        | none => simp [hname] at h
        | some command =>
          simp only [hname] at h ⊢
          obtain ⟨⟨set', operand⟩, hinner, h⟩ := bind_eq_ok_iff.mp h
          obtain ⟨outer, houter, h⟩ := bind_eq_ok_iff.mp h
          obtain ⟨rfl, set, hset, hfresh, rfl⟩ := readCommand_dropOutput hoption hinner
          obtain rfl := pure_eq_ok_iff.mp h
          refine ⟨operand, set.source, set.format.getD .yaml, rfl, ?_⟩
          refine bind_eq_ok_iff.mpr ⟨(set, operand), hset, bind_eq_ok_iff.mpr ⟨outer, houter, ?_⟩⟩
          simp [Settings.command, Settings.addOutput, hfresh]

/-- A command line with the option for an output asks for the same as without it. -/
theorem parse_dropOutput {before after : List Text} {option path : Text}
    (hoption : option ∈ outputOptions) {i : Invocation}
    (h : parse (before ++ option :: path :: after) = .ok i) :
    ∃ document source format, i.command = .resolve document source (some path) format ∧
      parse (before ++ after) = .ok { i with command := .resolve document source none format } :=
  readWords_dropOutput hoption h

end Stencil.CommandLine
