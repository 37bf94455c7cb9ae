import Stencil.Command
import Stencil.Proofs.Sha256.Streaming

/-!
# Digests of files

A file is digested in the pieces that it is read in. Main statement: whatever its size, the command
prints the hash value of the standard of all its bytes, in 64 lower-case hexadecimal digits and a
line end; it fails exactly when the file cannot be read, with the reason for that.
-/

namespace Stencil

namespace Sha256

theorem nil_not_mem_pieces (bytes : List UInt8) : [] ∉ pieces bytes := by
  fun_induction pieces bytes with
  | case1 => exact List.not_mem_nil
  | case2 b bytes ih =>
    rw [List.mem_cons, not_or]
    exact ⟨by simp [readSize], ih⟩

theorem flatten_pieces (bytes : List UInt8) : (pieces bytes).flatten = bytes := by
  fun_induction pieces bytes with
  | case1 => rfl
  | case2 b bytes ih => rw [List.flatten_cons, ih, List.take_append_drop]

/-- The pieces of a file end without an empty one. -/
theorem digestReads_file {ε : Type} (bytes : List UInt8) :
    digestReads .empty ((pieces bytes).map (.piece : List UInt8 → Read ε)) =
      .ok (digest bytes) := by
  obtain ⟨after, hafter, hreads⟩ := digestReads_pieces Stream.holds_empty
    (nil_not_mem_pieces bytes) ([] : List (Read ε))
  rw [List.append_nil] at hreads
  rw [hreads, digestReads, hafter.finish_eq, List.nil_append, flatten_pieces]

end Sha256

namespace Command
variable (engine : Engine) {files : Files} (bindings : List (Text × Json)) {path : Text}

/-- The digest of a file is that of all its bytes. -/
theorem text_digest_of_ok {content : List UInt8} (h : files.read path = .ok content) :
    text engine files bindings (.digest path) = .ok (Sha256.digest content ++ ['\n']) := by
  rw [text, digestFile, h]
  dsimp only
  rw [Sha256.digestReads_file]
  rfl

theorem text_digest_of_error {e : SystemError} (h : files.read path = .error e) :
    text engine files bindings (.digest path) = .error (.undigested path e) := by
  rw [text, digestFile, h]
  rfl

/-- The command prints the hash value of the standard when the file can be read, and only then. -/
theorem text_digest_eq_ok_iff {t : Text} :
    text engine files bindings (.digest path) = .ok t ↔
      ∃ content, files.read path = .ok content ∧ t = Sha256.digest content ++ ['\n'] ∧
        Sha256.WritesHex (Sha256.digest content) 64
          (Sha256.Standard.hash (Sha256.Standard.bits content)).toNat := by
  cases hread : files.read path with
  | error e => simp [text_digest_of_error engine bindings hread]
  | ok content =>
    simp [text_digest_of_ok engine bindings hread, Sha256.writesHex_digest, eq_comm]

end Command
end Stencil
