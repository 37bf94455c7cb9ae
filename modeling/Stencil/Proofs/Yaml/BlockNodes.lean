import Stencil.Proofs.Yaml.BlockTokens
import Stencil.Yaml.Document

/-!
# Nodes of a printed value

The grammar reads the tokens of a printed value as the node that is the value as it is written.
-/

namespace Stencil.Yaml

/-- The node of a text. -/
def textNode (t : Text) : Node := .scalar none (Scalar.style t = .plain) t

mutual
/-- The node of a value. -/
def blockNode : Json → Node
  | .string t => textNode t
  | .array items => .sequence none (itemNodes items)
  | .object members => .mapping none (memberNodes members)
  | v => .scalar none true (printLeaf 0 v)

def itemNodes : List Json → List Node
  | [] => []
  | v :: items => blockNode v :: itemNodes items

def memberNodes : List (Text × Json) → List (Node × Node)
  | [] => []
  | (name, v) :: members => (textNode name, blockNode v) :: memberNodes members
end

namespace Source

variable (handles : Handles)

/-- Whether a node starts with the token itself, and not with an anchor, an alias or a tag. -/
def StartsNode : Token → Prop
  | .scalar .. | .flowSequenceStart | .flowMappingStart | .blockSequenceStart | .blockMappingStart
  | .blockEntry => True
  | _ => False

theorem orBlank_of_not_mem {stops : List Token} {t : Token} (ht : t ∉ stops)
    (read : Source → Option (Node × Source)) (rest : List Token) (a : Anchors) :
    orBlank stops read ⟨t :: rest, a⟩ = read ⟨t :: rest, a⟩ := by
  rw [orBlank, if_neg]
  simpa using ht

/-- A value starts with a token of its own. -/
theorem exists_blockTokens (bare : Bool) (v : Json) :
    ∃ t rest, blockTokens bare v = t :: rest ∧ StartsNode t ∧
      t ∉ [.key, .value, .blockEnd] ∧ (bare = false → t ≠ .blockEntry) := by
  rcases isLeaf_or_collection v with hleaf | ⟨item, items, rfl⟩ | ⟨m, members, rfl⟩
  · rw [blockTokens_leaf hleaf]
    cases v <;> exact ⟨_, _, rfl, trivial, by simp [textToken], by simp [textToken]⟩
  · cases bare
    · exact ⟨.blockSequenceStart, _, rfl, trivial, by simp, by simp⟩
    · exact ⟨.blockEntry, _, rfl, trivial, by simp, by simp⟩
  · exact ⟨.blockMappingStart, _, rfl, trivial, by simp, by simp⟩

/-- What the grammar makes of the tokens of a value, whatever follows them. -/
def ReadsNode (v : Json) : Prop :=
  ∀ (unindented : Bool) (rest : List Token) (a : Anchors) ⦃fuel : Nat⦄ ⦃bare : Bool⦄,
    4 * (blockTokens bare v).length ≤ fuel →
    (bare = true → unindented = true ∧ rest.head? ≠ some .blockEntry) →
    node? handles fuel true unindented ⟨blockTokens bare v ++ rest, a⟩ =
      some (blockNode v, ⟨rest, a⟩)

variable {handles}

theorem readsNode_leaf {v : Json} (hleaf : IsLeaf v) : ReadsNode handles v := by
  intro unindented rest a fuel bare hfuel _
  rw [blockTokens_leaf hleaf] at hfuel ⊢
  have hlength : 0 < (leafTokens v).length := by cases v <;> simp [leafTokens]
  obtain ⟨fuel, rfl⟩ := Nat.exists_eq_add_of_le' (show 3 ≤ fuel by omega)
  cases v, hleaf using leaf_cases <;> rfl

theorem items?_itemTokens {items : List Json} (hread : ∀ v ∈ items, ReadsNode handles v)
    {fuel : Nat} (hpos : 0 < fuel) (hfuel : 4 * (itemTokens items).length ≤ fuel + 2)
    {rest : List Token} (hrest : rest.head? ≠ some .blockEntry) (a : Anchors) :
    items? handles fuel ⟨itemTokens items ++ rest, a⟩ = some (itemNodes items, ⟨rest, a⟩) := by
  obtain ⟨fuel, rfl⟩ := Nat.exists_eq_succ_of_ne_zero (Nat.ne_of_gt hpos)
  induction items generalizing fuel with
  | nil =>
    rw [itemTokens, List.nil_append, items?]
    cases rest with
    | nil => rfl
    | cons t rest =>
      have ht : t ≠ .blockEntry := by simpa using hrest
      cases t <;> first | exact absurd rfl ht | rfl
  | cons v items ih =>
    obtain ⟨hv, hfurther⟩ := List.forall_mem_cons.mp hread
    rw [itemTokens, List.length_cons, List.length_append] at hfuel
    obtain ⟨t, tokens, htokens, -, hstop, hentry⟩ := exists_blockTokens false v
    have hlength : 0 < (blockTokens false v).length := by rw [htokens]; simp
    obtain ⟨fuel, rfl⟩ := Nat.exists_eq_succ_of_ne_zero (n := fuel) (by omega)
    have hnode := hv false (itemTokens items ++ rest) a
      (show 4 * (blockTokens false v).length ≤ fuel + 1 by omega) (by simp)
    have hitem : orBlank [.blockEntry, .key, .value, .blockEnd]
        (node? handles (fuel + 1) true false)
        ⟨blockTokens false v ++ (itemTokens items ++ rest), a⟩ =
          some (blockNode v, ⟨itemTokens items ++ rest, a⟩) := by
      rw [htokens, List.cons_append, orBlank_of_not_mem, ← List.cons_append, ← htokens, hnode]
      exact List.not_mem_cons_of_ne_of_not_mem (hentry rfl) hstop
    have hitems := ih hfurther fuel (Nat.succ_pos _) (by omega)
    rw [itemTokens, List.cons_append, List.append_assoc, items?]
    show (orBlank _ _ ⟨blockTokens false v ++ (itemTokens items ++ rest), a⟩).bind _ = _
    rw [hitem, Option.bind_some]
    simp only [hitems]
    rfl

theorem entries?_memberTokens {members : Members} (hread : ∀ m ∈ members, ReadsNode handles m.2)
    {fuel : Nat} (hfuel : 4 * (memberTokens members).length < fuel)
    (rest : List Token) (a : Anchors) :
    entries? handles fuel ⟨memberTokens members ++ .blockEnd :: rest, a⟩ =
      some (memberNodes members, ⟨rest, a⟩) := by
  induction members generalizing fuel with
  | nil =>
    obtain ⟨fuel, rfl⟩ := Nat.exists_eq_succ_of_ne_zero (Nat.ne_of_gt hfuel)
    rfl
  | cons m members ih =>
    obtain ⟨name, v⟩ := m
    obtain ⟨hv, hfurther⟩ := List.forall_mem_cons.mp hread
    simp only [memberTokens, List.length_cons, List.length_append] at hfuel
    obtain ⟨fuel, rfl⟩ := Nat.exists_eq_add_of_le' (show 3 ≤ fuel by omega)
    let after := memberTokens members ++ .blockEnd :: rest
    have hafter : after.head? ≠ some .blockEntry := by
      cases members <;> simp [after, memberTokens]
    have hnode := hv true after a
      (show 4 * (blockTokens (isSimpleName name) v).length ≤ fuel + 2 by omega)
      fun _ => ⟨rfl, hafter⟩
    obtain ⟨t, tokens, htokens, -, hstop, -⟩ := exists_blockTokens (isSimpleName name) v
    have hvalue : orBlank [.key, .value, .blockEnd] (node? handles (fuel + 2) true true)
        ⟨blockTokens (isSimpleName name) v ++ after, a⟩ = some (blockNode v, ⟨after, a⟩) := by
      rw [htokens, List.cons_append, orBlank_of_not_mem hstop, ← List.cons_append, ← htokens, hnode]
    have hentries := ih hfurther (show 4 * (memberTokens members).length < fuel + 2 by omega)
    have hname : orBlank [.key, .value, .blockEnd] (node? handles (fuel + 2) true true)
        ⟨textToken name :: .value :: (blockTokens (isSimpleName name) v ++ after), a⟩ =
          some (textNode name, ⟨.value :: (blockTokens (isSimpleName name) v ++ after), a⟩) :=
      orBlank_of_not_mem (by simp [textToken]) _ _ _
    have hsplit : memberTokens ((name, v) :: members) ++ .blockEnd :: rest =
        .key :: textToken name :: .value :: (blockTokens (isSimpleName name) v ++ after) := by
      simp [memberTokens, after]
    rw [hsplit, entries?]
    show (orBlank _ _ ⟨textToken name :: .value ::
      (blockTokens (isSimpleName name) v ++ after), a⟩).bind _ = _
    rw [hname, Option.bind_some]
    show (orBlank _ _ ⟨blockTokens (isSimpleName name) v ++ after, a⟩).bind _ = _
    rw [hvalue, Option.bind_some]
    show (entries? handles (fuel + 2) ⟨after, a⟩).bind _ = _
    rw [hentries]
    rfl

theorem readsNode_array {items : List Json} (hne : items ≠ [])
    (hread : ∀ v ∈ items, ReadsNode handles v) : ReadsNode handles (.array items) := by
  obtain ⟨item, items, rfl⟩ := List.exists_cons_of_ne_nil hne
  intro unindented rest a fuel bare hfuel hbare
  cases bare with
  | true =>
    obtain ⟨rfl, hrest⟩ := hbare rfl
    have htokens : blockTokens true (.array (item :: items)) = itemTokens (item :: items) := rfl
    rw [htokens] at hfuel ⊢
    have hlength : 0 < (itemTokens (item :: items)).length := by simp [itemTokens]
    obtain ⟨fuel, rfl⟩ := Nat.exists_eq_add_of_le' (show 2 ≤ fuel by omega)
    have hitems := items?_itemTokens hread (show 0 < fuel by omega) (by omega) hrest a
    have hnode : node? handles (fuel + 2) true true ⟨itemTokens (item :: items) ++ rest, a⟩ =
        (items? handles fuel ⟨itemTokens (item :: items) ++ rest, a⟩).map
          fun r => (.sequence none r.1, r.2) := rfl
    rw [hnode, hitems]
    rfl
  | false =>
    have htokens : blockTokens false (.array (item :: items)) ++ rest =
        .blockSequenceStart :: (itemTokens (item :: items) ++ .blockEnd :: rest) := by
      simp [blockTokens]
    have hlength : (blockTokens false (.array (item :: items))).length =
        (itemTokens (item :: items)).length + 2 := by simp [blockTokens]
    obtain ⟨fuel, rfl⟩ := Nat.exists_eq_add_of_le' (show 2 ≤ fuel by omega)
    have hend : (Token.blockEnd :: rest).head? ≠ some .blockEntry := by simp
    have hitems := items?_itemTokens hread (show 0 < fuel by omega) (by omega) hend a
    have hnode (ts : List Token) :
        node? handles (fuel + 2) true unindented ⟨.blockSequenceStart :: ts, a⟩ =
          (items? handles fuel ⟨ts, a⟩).bind fun r =>
            if r.2.tokens.head? = some .blockEnd then some (.sequence none r.1, r.2.next)
            else none := by
      cases unindented <;> rfl
    rw [htokens, hnode, hitems]
    rfl

theorem readsNode_object {members : Members} (hne : members ≠ [])
    (hread : ∀ m ∈ members, ReadsNode handles m.2) : ReadsNode handles (.object members) := by
  obtain ⟨m, members, rfl⟩ := List.exists_cons_of_ne_nil hne
  intro unindented rest a fuel bare hfuel _
  have htokens : blockTokens bare (.object (m :: members)) ++ rest =
      .blockMappingStart :: (memberTokens (m :: members) ++ .blockEnd :: rest) := by
    simp [blockTokens]
  have hlength : (blockTokens bare (.object (m :: members))).length =
      (memberTokens (m :: members)).length + 2 := by simp [blockTokens]
  obtain ⟨fuel, rfl⟩ := Nat.exists_eq_add_of_le' (show 2 ≤ fuel by omega)
  have hentries := entries?_memberTokens hread
    (show 4 * (memberTokens (m :: members)).length < fuel by omega) rest a
  have hnode (ts : List Token) :
      node? handles (fuel + 2) true unindented ⟨.blockMappingStart :: ts, a⟩ =
        (entries? handles fuel ⟨ts, a⟩).map fun r => (.mapping none r.1, r.2) := by
    cases unindented <;> rfl
  rw [htokens, hnode, hentries]
  rfl

/-- The grammar reads the tokens of a value as its node. -/
theorem readsNode (handles : Handles) (v : Json) : ReadsNode handles v := by
  induction v using layout_induction with
  | leaf v h => exact readsNode_leaf h
  | array item items ih => exact readsNode_array (List.cons_ne_nil item items) ih
  | object m members ih => exact readsNode_object (List.cons_ne_nil m members) ih

end Source

/-- The document of a printed mapping has its node, and no anchors. -/
theorem Document.ofText?_print {members : Members} (hv : (Json.object members).Integral) :
    Document.ofText? (print (.object members)) =
      some ⟨some (blockNode (.object members)), .empty⟩ := by
  let tokens := blockTokens false (.object members)
  obtain ⟨t, rest, htokens, hstarts, -, -⟩ := Source.exists_blockTokens false (.object members)
  have hread := Source.readsNode standardHandles (.object members) false [] .empty
    (show 4 * tokens.length ≤ 4 * tokens.length + 4 by omega) (by simp)
  rw [List.append_nil] at hread
  have hroot :
      Document.root? [] tokens = some (⟨some (blockNode (.object members)), .empty⟩, []) := by
    rw [root?, List.nil_append]
    show (Source.node? standardHandles _ true false ⟨tokens, .empty⟩).map _ = _
    rw [hread]
    rfl
  have hfirst : Document.first? tokens = Document.root? [] tokens := by
    rw [show tokens = t :: rest from htokens]
    cases t <;> first | exact hstarts.elim | rfl
  have hne : tokens.isEmpty = false := by
    rw [show tokens = t :: rest from htokens]
    rfl
  have hdocument : Document.ofTokens? tokens =
      some ⟨some (blockNode (.object members)), .empty⟩ := by
    rw [Document.ofTokens?, hne, hfirst, hroot]
    rfl
  rw [Document.ofText?, Token.ofText?_print hv]
  exact hdocument

end Stencil.Yaml
