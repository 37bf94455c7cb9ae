import Stencil.Proofs.Sha256.Digest

/-!
# Digests of streams

Bytes that arrive in pieces are absorbed piece by piece, and what does not fill a block waits for
the next piece. Main statement: however a reader divides the bytes, the digest of the stream is the
digest of all the bytes together, which writes the hash value of the standard; a read that fails
ends the digest with its error.
-/

namespace Stencil.Sha256
variable {stream : Stream} {bytes : List UInt8}

/-- What a stream holds when it has taken in the bytes. -/
structure Stream.Holds (stream : Stream) (bytes : List UInt8) : Prop where
  absorbed : absorb .initial bytes = (stream.state, stream.pending)
  length_eq : stream.length = bytes.length

/-! ## One piece -/

/-- Bytes can be absorbed in two parts, the second one behind what is left of the first. -/
theorem absorb_append (s : State) (xs ys : List UInt8) :
    absorb s (xs ++ ys) = absorb (absorb s xs).1 ((absorb s xs).2 ++ ys) := by
  -- The induction is on the whole blocks of the first part.
  fun_induction absorb s xs with
  | case1 s xs hlong ih =>
    have hfirst : 64 ≤ xs.length := hlong
    have hboth : 64 ≤ (xs ++ ys).length := by
      rw [List.length_append]
      exact Nat.le_add_right_of_le hfirst
    rw [absorb_of_le hboth, List.take_append_of_le_length hfirst,
      List.drop_append_of_le_length hfirst]
    exact ih
  | case2 s xs hshort => rfl

theorem Stream.holds_empty : Stream.empty.Holds [] :=
  ⟨absorb_of_lt (by decide) _, rfl⟩

theorem Stream.Holds.update (h : stream.Holds bytes) (piece : List UInt8) :
    (stream.update piece).Holds (bytes ++ piece) where
  absorbed := by
    rw [absorb_append, h.absorbed]
    rfl
  length_eq := by
    rw [List.length_append, ← h.length_eq]
    rfl

/-- A stream ends with the digest of all that it has taken in. -/
theorem Stream.Holds.finish_eq (h : stream.Holds bytes) : stream.finish = digest bytes := by
  rw [digest, absorb_append, h.absorbed, ← h.length_eq]
  rfl

/-! ## All reads -/

section
variable {ε : Type} {pieces : List (List UInt8)}

theorem digestReads_piece {piece : List UInt8} (hpiece : piece ≠ []) (stream : Stream)
    (reads : List (Read ε)) :
    digestReads stream (.piece piece :: reads) = digestReads (stream.update piece) reads := by
  obtain ⟨b, bytes, rfl⟩ := List.exists_cons_of_ne_nil hpiece
  rw [digestReads]

/-- After the pieces of a reader, the stream holds them one after the other. -/
theorem digestReads_pieces (h : stream.Holds bytes) (hpieces : [] ∉ pieces)
    (reads : List (Read ε)) :
    ∃ after : Stream, after.Holds (bytes ++ pieces.flatten) ∧
      digestReads stream (pieces.map .piece ++ reads) = digestReads after reads := by
  induction pieces generalizing stream bytes with
  | nil =>
    refine ⟨stream, ?_, rfl⟩
    rwa [List.flatten_nil, List.append_nil]
  | cons piece pieces ih =>
    rw [List.mem_cons, not_or] at hpieces
    obtain ⟨hpiece, hpieces⟩ := hpieces
    obtain ⟨after, hafter, hreads⟩ := ih (h.update piece) hpieces
    refine ⟨after, ?_, ?_⟩
    · rwa [List.flatten_cons, ← List.append_assoc]
    · rw [List.map_cons, List.cons_append, digestReads_piece (Ne.symm hpiece), hreads]

end

/-- However the bytes are divided into reads, up to the first empty one, the digest of the stream is
that of the bytes together, and a read that fails before it ends the digest with its error. The
digest writes the hash value of the bytes in 64 lower-case hexadecimal digits. -/
theorem digestReads_standard {ε : Type} :
    (∀ (pieces : List (List UInt8)) (rest : List (Read ε)), [] ∉ pieces →
      digestReads .empty (pieces.map .piece ++ .piece [] :: rest) = .ok (digest pieces.flatten)) ∧
    (∀ (pieces : List (List UInt8)) (e : ε) (rest : List (Read ε)), [] ∉ pieces →
      digestReads .empty (pieces.map .piece ++ .failure e :: rest) = .error e) ∧
    ∀ bytes, WritesHex (digest bytes) 64 (Standard.hash (Standard.bits bytes)).toNat := by
  refine ⟨?_, ?_, writesHex_digest⟩
  · intro pieces rest hpieces
    obtain ⟨after, hafter, hreads⟩ :=
      digestReads_pieces Stream.holds_empty hpieces (.piece [] :: rest)
    rw [hreads, digestReads, hafter.finish_eq, List.nil_append]
  · intro pieces e rest hpieces
    obtain ⟨after, -, hreads⟩ :=
      digestReads_pieces Stream.holds_empty hpieces (.failure e :: rest)
    rw [hreads, digestReads]

/-- Pieces that end before, behind and inside a block, read to the end or up to a failure. -/
theorem digestReads_standard_pieces :
    let pieces : List (List UInt8) := [[0x61], List.replicate 70 0x62, [0x63, 0x64]]
    [] ∉ pieces ∧
      digestReads .empty (pieces.map .piece ++ [.piece [], .failure "late"]) =
        .ok (digest pieces.flatten) ∧
      digestReads .empty (pieces.map .piece ++ [.failure "early", .piece []]) =
        .error "early" := by
  intro pieces
  have hpieces : [] ∉ pieces := by decide
  exact ⟨hpieces, digestReads_standard.1 pieces [.failure "late"] hpieces,
    digestReads_standard.2.1 pieces "early" [.piece []] hpieces⟩

end Stencil.Sha256
