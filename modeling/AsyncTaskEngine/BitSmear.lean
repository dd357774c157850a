import Mathlib.Algebra.GroupWithZero.Nat
import Mathlib.Data.Nat.Log
import Mathlib.Order.Bounds.Defs

/-!
# Smearing the highest set bit downwards

The cascade `y := y ||| (y >>> k)` with `k = 1, 2, 4, ...` copies every set
bit of a word into all lower positions.  `SmearedBy k x y` describes the word
after the shifts below `k`; one shift doubles `k`, and once `k` reaches the
width the word is `2 ^ (log2 x + 1) - 1`, one less than the least power of two
above `x`.
-/

namespace AsyncTaskEngine

variable {w : Nat}

/-- Bit `i` of `y` says whether one of the `k` bits of `x` from `i` on is set. -/
def SmearedBy (k : Nat) (x y : BitVec w) : Prop :=
  ∀ i, y.getLsbD i = true ↔ ∃ j < k, x.getLsbD (i + j) = true

theorem smearedBy_one (x : BitVec w) : SmearedBy 1 x x := by
  intro i
  constructor
  · intro h
    exact ⟨0, Nat.one_pos, h⟩
  · rintro ⟨j, hj, h⟩
    obtain rfl : j = 0 := by omega
    exact h

/-- One shift of the cascade doubles the window. -/
theorem SmearedBy.double {k : Nat} {x y : BitVec w} (h : SmearedBy k x y) :
    SmearedBy (2 * k) x (y ||| (y >>> k)) := by
  intro i
  simp only [BitVec.getLsbD_or, BitVec.getLsbD_ushiftRight, Bool.or_eq_true]
  rw [h i, h (k + i)]
  constructor
  · rintro (⟨j, hj, hx⟩ | ⟨j, hj, hx⟩)
    · exact ⟨j, by omega, hx⟩
    · refine ⟨k + j, by omega, ?_⟩
      rwa [show i + (k + j) = k + i + j by omega]
  · rintro ⟨j, hj, hx⟩
    by_cases hjk : j < k
    · exact Or.inl ⟨j, hjk, hx⟩
    · refine Or.inr ⟨j - k, by omega, ?_⟩
      rwa [show k + i + (j - k) = i + j by omega]

/-- A window as wide as the word fills every bit below the highest one. -/
theorem SmearedBy.toNat_eq {x y : BitVec w} (h : SmearedBy w x y)
    (hx : x.toNat ≠ 0) : y.toNat = 2 ^ (x.toNat.log2 + 1) - 1 := by
  apply Nat.eq_of_testBit_eq
  intro i
  rw [Nat.testBit_two_pow_sub_one, BitVec.testBit_toNat, Bool.eq_iff_iff, h i,
    decide_eq_true_iff]
  constructor
  · rintro ⟨j, _, hbit⟩
    by_contra hge
    have hlt : x.toNat < 2 ^ (i + j) := by
      refine (Nat.log2_lt hx).mp ?_
      omega
    rw [← BitVec.testBit_toNat, Nat.testBit_lt_two_pow hlt] at hbit
    exact Bool.noConfusion hbit
  · intro hle
    have hlog : x.toNat.log2 < w := (Nat.log2_lt hx).mpr x.isLt
    refine ⟨x.toNat.log2 - i, by omega, ?_⟩
    rw [show i + (x.toNat.log2 - i) = x.toNat.log2 by omega,
      ← BitVec.testBit_toNat]
    exact Nat.testBit_log2 hx

/-- The bit above the highest one is the least power of two above a number. -/
theorem isLeast_two_pow_log2_succ {m : Nat} (hm : m ≠ 0) :
    IsLeast {c : Nat | c.isPowerOfTwo ∧ m < c} (2 ^ (m.log2 + 1)) := by
  constructor
  · exact ⟨⟨m.log2 + 1, rfl⟩, Nat.lt_log2_self⟩
  · rintro c ⟨⟨k, rfl⟩, hlt⟩
    have hk : m.log2 < k := (Nat.log2_lt hm).mpr hlt
    exact Nat.pow_le_pow_right (by omega) hk

end AsyncTaskEngine
