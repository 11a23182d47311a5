import Mathlib.Tactic.Ring

/-!
# Caver.Basic — machine words

The runtime computes with unsigned 64-bit words (`uptr`). Arithmetic wraps;
the lemmas here give the natural numbers behind it where it does not.
-/

namespace Caver

/-- `uptr`. -/
abbrev Uptr := UInt64

theorem toNat_add_of_lt {a b : Uptr} (h : a.toNat + b.toNat < 2 ^ 64) :
    (a + b).toNat = a.toNat + b.toNat := by
  rw [UInt64.toNat_add, Nat.mod_eq_of_lt h]

theorem toNat_mul_of_lt {a b : Uptr} (h : a.toNat * b.toNat < 2 ^ 64) :
    (a * b).toNat = a.toNat * b.toNat := by
  rw [UInt64.toNat_mul, Nat.mod_eq_of_lt h]

/-- Clearing the low bits, as `p & ~(m - 1)` does, subtracts the remainder. -/
theorem and_not_add_and (p m : Uptr) : (p &&& ~~~m) + (p &&& m) = p := by
  rw [← UInt64.toBitVec_inj]
  simp only [UInt64.toBitVec_add, UInt64.toBitVec_and, UInt64.toBitVec_not]
  rw [BitVec.add_eq_or_of_and_eq_zero]
  · ext i
    simp only [BitVec.getElem_or, BitVec.getElem_and, BitVec.getElem_not]
    cases p.toBitVec[i] <;> cases m.toBitVec[i] <;> rfl
  · ext i
    simp only [BitVec.getElem_and, BitVec.getElem_not, BitVec.getElem_zero]
    cases p.toBitVec[i] <;> cases m.toBitVec[i] <;> rfl

theorem toNat_and_not (p m : Uptr) : (p &&& ~~~m).toNat = p.toNat - (p &&& m).toNat := by
  have hsum := and_not_add_and p m
  have hle : (p &&& m).toNat ≤ p.toNat := by
    rw [UInt64.toNat_and]
    exact Nat.and_le_left
  have hdiff : p &&& ~~~m = p - (p &&& m) := by
    rw [← UInt64.add_sub_cancel (p &&& ~~~m) (p &&& m), hsum]
  rw [hdiff, UInt64.toNat_sub_of_le _ _ (UInt64.le_iff_toNat_le.mpr hle)]

end Caver
