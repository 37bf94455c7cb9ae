import Mathlib.Data.Nat.Sqrt
import Stencil.Encoding.Sha256
import Stencil.Proofs.Sha256.Standard

/-!
# Compression of a block

The constants of the rounds are the parts of roots that the standard asks for, and the compression
of a block is the standard's, word for word.
-/

namespace Stencil.Sha256
open Standard (Word Words)

/-- The words of a state as vectors of bits. -/
def State.words (s : State) : Words :=
  ⟨s.a.toBitVec, s.b.toBitVec, s.c.toBitVec, s.d.toBitVec, s.e.toBitVec, s.f.toBitVec,
    s.g.toBitVec, s.h.toBitVec⟩

/-! ## Constants -/

theorem root_eq {degree n r : Nat} (hdegree : degree ≠ 0) (hle : r ^ degree ≤ n)
    (hlt : n < (r + 1) ^ degree) : Standard.root degree n = r := by
  refine Nat.findGreatest_eq_iff.mpr ⟨(Nat.le_self_pow hdegree r).trans hle, fun _ => hle, ?_⟩
  intro larger hlarger _
  exact not_le.mpr (hlt.trans_le (Nat.pow_le_pow_left hlarger degree))

/-- A word is the fraction of a root when it is one together with the whole part in front. -/
theorem rootFraction_eq {degree n whole : Nat} {k : UInt32} (hdegree : degree ≠ 0)
    (hle : (whole * 2 ^ 32 + k.toNat) ^ degree ≤ n * 2 ^ (32 * degree))
    (hlt : n * 2 ^ (32 * degree) < (whole * 2 ^ 32 + k.toNat + 1) ^ degree) :
    Standard.rootFraction degree n = k.toBitVec := by
  apply BitVec.eq_of_toNat_eq
  rw [Standard.rootFraction, root_eq hdegree hle hlt, BitVec.toNat_ofNat, Nat.add_comm,
    Nat.add_mul_mod_self_right, Nat.mod_eq_of_lt k.toNat_lt]
  rfl

/-- A number below 324 is prime when no number below 18 divides it. -/
theorem prime_iff {n : Nat} (h : n < 324) :
    n.Prime ↔ 2 ≤ n ∧ ∀ m < 18, 2 ≤ m → m * m ≤ n → ¬m ∣ n := by
  rw [Nat.prime_def_le_sqrt]
  refine and_congr_right fun _ => ⟨?_, ?_⟩
  · intro hall m _ htwo hm
    exact hall m htwo (Nat.le_sqrt.mpr hm)
  · intro hall m htwo hm
    have hsquare := Nat.le_sqrt.mp hm
    refine hall m ?_ htwo hsquare
    by_contra hlarge
    have := Nat.mul_le_mul (not_lt.mp hlarge) (not_lt.mp hlarge)
    omega

theorem primes_eq : Standard.primes =
    [2, 3, 5, 7, 11, 13, 17, 19, 23, 29, 31, 37, 41, 43, 47, 53, 59, 61, 67, 71, 73, 79, 83, 89, 97,
      101, 103, 107, 109, 113, 127, 131, 137, 139, 149, 151, 157, 163, 167, 173, 179, 181, 191,
      193, 197, 199, 211, 223, 227, 229, 233, 239, 241, 251, 257, 263, 269, 271, 277, 281, 283,
      293, 307, 311] := by
  have hfilter : Standard.primes = (List.range 312).filter fun n =>
      2 ≤ n ∧ ∀ m < 18, 2 ≤ m → m * m ≤ n → ¬m ∣ n := by
    apply List.filter_congr
    intro n hn
    have hlt := List.mem_range.mp hn
    exact decide_eq_decide.mpr (prime_iff (by omega))
  rw [hfilter]
  decide +kernel

theorem roundConstants_eq : roundConstants.map UInt32.toBitVec = Standard.roundConstants := by
  -- The roots of these primes are below seven.
  have hroots : ∀ p ∈ Standard.primes.zip roundConstants, ∃ whole < 7,
      (whole * 2 ^ 32 + p.2.toNat) ^ 3 ≤ p.1 * 2 ^ 96 ∧
        p.1 * 2 ^ 96 < (whole * 2 ^ 32 + p.2.toNat + 1) ^ 3 := by
    rw [primes_eq]
    decide +kernel
  have hlength : Standard.primes.length = roundConstants.length := by
    rw [primes_eq]
    rfl
  have hpairs : ∀ p ∈ Standard.primes.zip roundConstants,
      p.2.toBitVec = Standard.rootFraction 3 p.1 := by
    intro p hp
    obtain ⟨whole, -, hle, hlt⟩ := hroots p hp
    exact (rootFraction_eq (by decide) hle hlt).symm
  calc roundConstants.map UInt32.toBitVec
      = ((Standard.primes.zip roundConstants).map Prod.snd).map UInt32.toBitVec := by
        rw [List.map_snd_zip hlength.ge]
    _ = (Standard.primes.zip roundConstants).map fun p => p.2.toBitVec := by
        simp only [List.map_map, Function.comp_def]
    _ = (Standard.primes.zip roundConstants).map fun p => Standard.rootFraction 3 p.1 :=
        List.map_congr_left hpairs
    _ = ((Standard.primes.zip roundConstants).map Prod.fst).map (Standard.rootFraction 3) :=
        by simp only [List.map_map, Function.comp_def]
    _ = Standard.roundConstants := by rw [List.map_fst_zip hlength.le, Standard.roundConstants]

theorem words_initial : State.initial.words = .initial := by
  have hroot {n : Nat} {k : UInt32} (whole : Nat)
      (h : (whole * 2 ^ 32 + k.toNat) ^ 2 ≤ n * 2 ^ 64 ∧
        n * 2 ^ 64 < (whole * 2 ^ 32 + k.toNat + 1) ^ 2) :
      k.toBitVec = Standard.rootFraction 2 n := (rootFraction_eq (by decide) h.1 h.2).symm
  simp only [State.words, Words.initial, Words.mk.injEq]
  exact ⟨hroot 1 (by decide +kernel), hroot 1 (by decide +kernel),
    hroot 2 (by decide +kernel), hroot 2 (by decide +kernel),
    hroot 3 (by decide +kernel), hroot 3 (by decide +kernel),
    hroot 4 (by decide +kernel), hroot 4 (by decide +kernel)⟩

/-! ## Schedule -/

section
variable {block : List UInt8} {message : Nat → Word}

theorem toBitVec_nextWord {n : Nat} {earlier : List UInt32} (hn : 16 ≤ n)
    (h : earlier.map UInt32.toBitVec =
      ((List.range n).map (Standard.schedule message)).reverse) :
    (nextWord earlier).toBitVec = Standard.schedule message n := by
  have hword {i : Nat} (hi : i < n) :
      ((earlier[i]?).getD 0).toBitVec = Standard.schedule message (n - (i + 1)) := by
    have hitem := congrArg (·[i]?) h
    rw [List.getElem?_map, List.getElem?_reverse (by simpa using hi), List.getElem?_map,
      List.length_map, List.length_range, Nat.sub_sub, Nat.add_comm 1 i,
      List.getElem?_range (by omega), Option.map_some] at hitem
    obtain ⟨w, hw, hvalue⟩ := Option.map_eq_some_iff.mp hitem
    rw [hw]
    exact hvalue
  have hsum : (nextWord earlier).toBitVec =
      Standard.lowerSigma1 ((earlier[1]?).getD 0).toBitVec + ((earlier[6]?).getD 0).toBitVec +
        Standard.lowerSigma0 ((earlier[14]?).getD 0).toBitVec +
          ((earlier[15]?).getD 0).toBitVec := rfl
  rw [hsum, hword (by omega), hword (by omega), hword (by omega), hword (by omega)]
  conv_rhs => rw [Standard.schedule, if_neg (by omega)]

theorem toBitVec_extendSchedule {count n : Nat} {words : List UInt32} (hn : 16 ≤ n)
    (h : words.map UInt32.toBitVec = ((List.range n).map (Standard.schedule message)).reverse) :
    (extendSchedule count words).map UInt32.toBitVec =
      ((List.range (n + count)).map (Standard.schedule message)).reverse := by
  induction count generalizing n words with
  | zero => exact h
  | succ count ih =>
    have hnext : (nextWord words :: words).map UInt32.toBitVec =
        ((List.range (n + 1)).map (Standard.schedule message)).reverse := by
      rw [List.map_cons, toBitVec_nextWord hn h, h, List.range_succ, List.map_append,
        List.reverse_append]
      rfl
    rw [extendSchedule, ih (by omega) hnext, Nat.add_right_comm, Nat.add_assoc]

/-- The schedule of a block is the standard's for the sixteen words that its bytes write. -/
theorem toBitVec_schedule
    (h : (wordsOf block).map UInt32.toBitVec = (List.range 16).map message) :
    (schedule block).map UInt32.toBitVec = (List.range 64).map (Standard.schedule message) := by
  have hfirst : (List.range 16).map (Standard.schedule message) = (List.range 16).map message := by
    apply List.map_congr_left
    intro t ht
    rw [Standard.schedule, if_pos (List.mem_range.mp ht)]
  have hstart : (wordsOf block).reverse.map UInt32.toBitVec =
      ((List.range 16).map (Standard.schedule message)).reverse := by
    rw [List.map_reverse, h, hfirst]
  rw [schedule, List.map_reverse, toBitVec_extendSchedule (Nat.le_refl 16) hstart,
    List.reverse_reverse]

/-! ## Rounds -/

/-- Every shift and rotation is by a constant, so that both sides compute to the same. -/
theorem words_round (s : State) (input : UInt32 × UInt32) :
    (round s input).words = Standard.round s.words input.1.toBitVec input.2.toBitVec := rfl

theorem words_foldl_round (s : State) (inputs : List (UInt32 × UInt32)) :
    (inputs.foldl round s).words =
      (inputs.map (Prod.map UInt32.toBitVec UInt32.toBitVec)).foldl
        (fun v input => Standard.round v input.1 input.2) s.words := by
  induction inputs generalizing s with
  | nil => rfl
  | cons input inputs ih =>
    rw [List.foldl_cons, ih, words_round]
    rfl

theorem roundConstants_range :
    Standard.roundConstants = (List.range 64).map fun t => Standard.roundConstants.getD t 0 := by
  have hlength : Standard.roundConstants.length = 64 := by
    rw [← roundConstants_eq]
    rfl
  apply List.ext_getElem
  · rw [hlength, List.length_map, List.length_range]
  · intro t ht _
    rw [List.getElem_map, List.getElem_range, List.getD_eq_getElem?_getD,
      List.getElem?_eq_getElem ht, Option.getD_some]

/-- A block is compressed as the standard says. -/
theorem words_compress (s : State)
    (h : (wordsOf block).map UInt32.toBitVec = (List.range 16).map message) :
    (compress s block).words = Standard.compress s.words message := by
  have hrounds : ((roundConstants.zip (schedule block)).foldl round s).words =
      (List.range 64).foldl (fun v t => Standard.round v (Standard.roundConstants.getD t 0)
        (Standard.schedule message t)) s.words := by
    rw [words_foldl_round, ← List.zip_map, roundConstants_eq, toBitVec_schedule h,
      roundConstants_range, List.zip_map', List.foldl_map, ← roundConstants_range]
  rw [Standard.compress, ← hrounds]
  rfl

end

end Stencil.Sha256
