import Stencil.Proofs.Yaml.BlockNodes
import Stencil.Proofs.Yaml.FlowTokens

/-!
# Nodes of JSON

The grammar reads the tokens of JSON as the node that is the value as it is written, with all
members that an object is given.
-/

namespace Stencil.Yaml

mutual
/-- The node of a value between brackets. -/
def flowNode : Json → Node
  | .null => .scalar none true "null".toList
  | .bool b => .scalar none true (if b then "true".toList else "false".toList)
  | .number n => .scalar none true (Json.printNumber n)
  | .string s => .scalar none false s
  | .array items => .sequence none (flowItemNodes items)
  | .object members => .mapping none (flowMemberNodes members)

def flowItemNodes : List Json → List Node
  | [] => []
  | v :: items => flowNode v :: flowItemNodes items

def flowMemberNodes : List (Text × Json) → List (Node × Node)
  | [] => []
  | (name, v) :: members => (.scalar none false name, flowNode v) :: flowMemberNodes members
end

namespace Source

/-- Whether a token starts a value between brackets. -/
def StartsValue : Token → Prop
  | .scalar .. | .flowSequenceStart | .flowMappingStart => True
  | _ => False

theorem exists_flowTokens (v : Json) : ∃ t rest, flowTokens v = t :: rest ∧ StartsValue t := by
  cases v <;> exact ⟨_, _, rfl, trivial⟩

/-- What the grammar makes of the tokens of a value, whatever follows them. -/
def ReadsFlowNode (handles : Handles) (v : Json) : Prop :=
  ∀ (inBlock unindented : Bool) (rest : List Token) (a : Anchors) ⦃fuel : Nat⦄,
    4 * (flowTokens v).length ≤ fuel →
    node? handles fuel inBlock unindented ⟨flowTokens v ++ rest, a⟩ = some (flowNode v, ⟨rest, a⟩)

/-- What stands in front of an item or a member: a comma, unless it is the first one. -/
def separator (first : Bool) : List Token := if first then [] else [.flowEntry]

section
variable {handles : Handles} {fuel : Nat} {t : Token} {ts : List Token} {a : Anchors}

theorem flowItems?_cons (first : Bool) (ht : StartsValue t) :
    flowItems? handles (fuel + 1) first ⟨separator first ++ t :: ts, a⟩ =
      (node? handles fuel false false ⟨t :: ts, a⟩).bind fun r =>
        (flowItems? handles fuel false r.2).bind fun q => some (r.1 :: q.1, q.2) := by
  cases t <;> first | exact ht.elim | (cases first <;> rfl)

theorem flowEntries?_cons (first : Bool) (name : Text) (ht : StartsValue t) :
    flowEntries? handles (fuel + 3) first
        ⟨separator first ++ .key :: .scalar false name :: .value :: t :: ts, a⟩ =
      (node? handles (fuel + 2) false false ⟨t :: ts, a⟩).bind fun r =>
        (flowEntries? handles (fuel + 2) false r.2).bind fun q =>
          some ((.scalar none false name, r.1) :: q.1, q.2) := by
  cases t <;> first | exact ht.elim | (cases first <;> rfl)

/-- Items are read up to the closing bracket. -/
theorem flowItems?_flowItemTokens {items : List Json} (hne : items ≠ [])
    (hread : ∀ v ∈ items, ReadsFlowNode handles v)
    (hfuel : 4 * (flowItemTokens items).length < fuel) (first : Bool) (rest : List Token)
    (a : Anchors) :
    flowItems? handles fuel first
        ⟨separator first ++ (flowItemTokens items ++ .flowSequenceEnd :: rest), a⟩ =
      some (flowItemNodes items, ⟨rest, a⟩) := by
  induction items generalizing fuel first with
  | nil => exact absurd rfl hne
  | cons v items ih =>
    obtain ⟨hv, hfurther⟩ := List.forall_mem_cons.mp hread
    obtain ⟨t, tokens, htokens, ht⟩ := exists_flowTokens v
    have hlength : 0 < (flowTokens v).length := by rw [htokens]; simp
    cases items with
    | nil =>
      rw [flowItemTokens] at hfuel ⊢
      obtain ⟨fuel, rfl⟩ := Nat.exists_eq_add_of_le' (show 2 ≤ fuel by omega)
      have hnode := hv false false (.flowSequenceEnd :: rest) a
        (show 4 * (flowTokens v).length ≤ fuel + 1 by omega)
      rw [htokens, List.cons_append, flowItems?_cons first ht, ← List.cons_append, ← htokens, hnode]
      rfl
    | cons w items =>
      rw [flowItemTokens, List.length_append, List.length_cons] at hfuel
      obtain ⟨fuel, rfl⟩ := Nat.exists_eq_succ_of_ne_zero (n := fuel) (by omega)
      have hnode := hv false false
        (.flowEntry :: (flowItemTokens (w :: items) ++ .flowSequenceEnd :: rest)) a
        (show 4 * (flowTokens v).length ≤ fuel by omega)
      have hitems := ih (List.cons_ne_nil w items) hfurther
        (show 4 * (flowItemTokens (w :: items)).length < fuel by omega) false
      rw [flowItemTokens, List.append_assoc, List.cons_append, htokens, List.cons_append,
        flowItems?_cons first ht, ← List.cons_append, ← htokens, hnode]
      show (flowItems? handles fuel false ⟨separator false ++
        (flowItemTokens (w :: items) ++ .flowSequenceEnd :: rest), a⟩).bind _ = _
      rw [hitems]
      rfl

/-- Members are read up to the closing brace. -/
theorem flowEntries?_flowMemberTokens {members : Members} (hne : members ≠ [])
    (hread : ∀ m ∈ members, ReadsFlowNode handles m.2)
    (hfuel : 4 * (flowMemberTokens members).length < fuel) (first : Bool) (rest : List Token)
    (a : Anchors) :
    flowEntries? handles fuel first
        ⟨separator first ++ (flowMemberTokens members ++ .flowMappingEnd :: rest), a⟩ =
      some (flowMemberNodes members, ⟨rest, a⟩) := by
  induction members generalizing fuel first with
  | nil => exact absurd rfl hne
  | cons m members ih =>
    obtain ⟨name, v⟩ := m
    obtain ⟨hv, hfurther⟩ := List.forall_mem_cons.mp hread
    obtain ⟨t, tokens, htokens, ht⟩ := exists_flowTokens v
    cases members with
    | nil =>
      simp only [flowMemberTokens, List.length_cons] at hfuel
      obtain ⟨fuel, rfl⟩ := Nat.exists_eq_add_of_le' (show 3 ≤ fuel by omega)
      have hnode := hv false false (.flowMappingEnd :: rest) a
        (show 4 * (flowTokens v).length ≤ fuel + 2 by omega)
      rw [flowMemberTokens, htokens]
      simp only [List.cons_append]
      rw [flowEntries?_cons first name ht, ← List.cons_append, ← htokens, hnode]
      rfl
    | cons m members =>
      simp only [flowMemberTokens, List.length_cons, List.length_append] at hfuel
      obtain ⟨fuel, rfl⟩ := Nat.exists_eq_add_of_le' (show 3 ≤ fuel by omega)
      have hnode := hv false false
        (.flowEntry :: (flowMemberTokens (m :: members) ++ .flowMappingEnd :: rest)) a
        (show 4 * (flowTokens v).length ≤ fuel + 2 by omega)
      have hentries := ih (List.cons_ne_nil m members) hfurther
        (show 4 * (flowMemberTokens (m :: members)).length < fuel + 2 by omega) false
      rw [flowMemberTokens, htokens]
      simp only [List.cons_append, List.append_assoc]
      rw [flowEntries?_cons first name ht, ← List.cons_append, ← htokens, hnode]
      show (flowEntries? handles (fuel + 2) false ⟨separator false ++
        (flowMemberTokens (m :: members) ++ .flowMappingEnd :: rest), a⟩).bind _ = _
      rw [hentries]
      rfl

end

theorem node?_flowSequence (handles : Handles) (fuel : Nat) (inBlock unindented : Bool)
    (ts : List Token) (a : Anchors) :
    node? handles (fuel + 2) inBlock unindented ⟨.flowSequenceStart :: ts, a⟩ =
      (flowItems? handles fuel true ⟨ts, a⟩).map fun r => (.sequence none r.1, r.2) := rfl

theorem node?_flowMapping (handles : Handles) (fuel : Nat) (inBlock unindented : Bool)
    (ts : List Token) (a : Anchors) :
    node? handles (fuel + 2) inBlock unindented ⟨.flowMappingStart :: ts, a⟩ =
      (flowEntries? handles fuel true ⟨ts, a⟩).map fun r => (.mapping none r.1, r.2) := rfl

theorem readsFlowNode_scalar {v : Json} {plain : Bool} {t : Text}
    (htokens : flowTokens v = [.scalar plain t]) (hnode : flowNode v = .scalar none plain t)
    (handles : Handles) : ReadsFlowNode handles v := by
  intro inBlock unindented rest a fuel hfuel
  rw [htokens, List.length_singleton] at hfuel
  obtain ⟨fuel, rfl⟩ := Nat.exists_eq_add_of_le' (show 2 ≤ fuel by omega)
  rw [htokens, hnode]
  rfl

/-- The grammar reads the tokens of a value between brackets as its node. -/
theorem readsFlowNode (handles : Handles) (v : Json) : ReadsFlowNode handles v := by
  induction v using Json.parts_induction with
  | null | bool b | number n | string s => exact readsFlowNode_scalar rfl rfl handles
  | array items ih =>
    intro inBlock unindented rest a fuel hfuel
    rw [flowTokens, List.length_cons, List.length_append, List.length_singleton] at hfuel
    obtain ⟨fuel, rfl⟩ := Nat.exists_eq_add_of_le' (show 3 ≤ fuel by omega)
    rw [flowTokens, List.cons_append, List.append_assoc, List.singleton_append, node?_flowSequence]
    cases items with
    | nil => rfl
    | cons v items =>
      have hitems := flowItems?_flowItemTokens (List.cons_ne_nil v items) ih
        (show 4 * (flowItemTokens (v :: items)).length < fuel + 1 by omega) true rest a
      rw [separator, if_pos rfl, List.nil_append] at hitems
      rw [hitems]
      rfl
  | object members ih =>
    intro inBlock unindented rest a fuel hfuel
    rw [flowTokens, List.length_cons, List.length_append, List.length_singleton] at hfuel
    obtain ⟨fuel, rfl⟩ := Nat.exists_eq_add_of_le' (show 3 ≤ fuel by omega)
    rw [flowTokens, List.cons_append, List.append_assoc, List.singleton_append, node?_flowMapping]
    cases members with
    | nil => rfl
    | cons m members =>
      have hentries := flowEntries?_flowMemberTokens (List.cons_ne_nil m members) ih
        (show 4 * (flowMemberTokens (m :: members)).length < fuel + 1 by omega) true rest a
      rw [separator, if_pos rfl, List.nil_append] at hentries
      rw [hentries]
      rfl

end Source

/-- The document of the tokens of an object is its node, without anchors. -/
theorem Document.ofTokens?_flowTokens (members : Members) :
    Document.ofTokens? (flowTokens (.object members)) =
      some ⟨some (flowNode (.object members)), .empty⟩ := by
  have hread := Source.readsFlowNode standardHandles (.object members) true false [] .empty
    (Nat.le_add_right (4 * (flowTokens (.object members)).length) 4)
  rw [List.append_nil] at hread
  have hroot : Document.root? [] (flowTokens (.object members)) =
      some (⟨some (flowNode (.object members)), .empty⟩, []) := by
    rw [root?, List.nil_append, hread]
    rfl
  have hfirst : Document.first? (flowTokens (.object members)) =
      Document.root? [] (flowTokens (.object members)) := rfl
  rw [Document.ofTokens?, hfirst, hroot]
  rfl

end Stencil.Yaml
