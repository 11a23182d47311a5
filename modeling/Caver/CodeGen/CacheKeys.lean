import Mathlib.Data.Nat.Bitwise
import Caver.CodeGen.THTables
import Caver.Runtime.CastTransparency

/-!
# Caver.CodeGen.CacheKeys — what the keys of the verdict cache stand for

A key is the address of a type table with a hash of the target class shifted over
its high half. A hash loses its high half, and the two overlap.

* `computeCacheKey_eq_iff`, `computeCacheKey_eq_zero_iff`: equal keys, and the key
  of an empty cell, by the halves of addresses and hashes.
* `keysInjective_of_halves`: casts whose keys stand for their pairs.
* `computeCacheKey_identifies_iff`: which two pairs are told apart.
-/

namespace Caver.CodeGen

open Caver.Runtime

variable {v v' h h' : Uptr}

/-- The low half of an address or a hash. -/
def lowHalf (w : Uptr) : ℕ := w.toNat % 2 ^ 32

def highHalf (w : Uptr) : ℕ := w.toNat / 2 ^ 32

theorem halves_inj {w w' : Uptr} (hlow : lowHalf w = lowHalf w')
    (hhigh : highHalf w = highHalf w') : w = w' := by
  rw [← UInt64.toNat_inj]
  unfold lowHalf at hlow
  unfold highHalf at hhigh
  omega

/-- A hash is shifted out of the low half. -/
theorem toNat_shiftLeft_half (h : Uptr) : (h <<< 32).toNat = lowHalf h * 2 ^ 32 := by
  have hk : (32 : Uptr).toNat = 32 := rfl
  have hlt := h.toNat_lt
  rw [UInt64.toNat_shiftLeft, hk, Nat.shiftLeft_eq, lowHalf]
  show h.toNat * 2 ^ 32 % 2 ^ 64 = _
  omega

/-- The low half of a key is that of the address. -/
theorem computeCacheKey_low (v h : Uptr) : lowHalf (computeCacheKey v h) = lowHalf v := by
  unfold computeCacheKey
  rw [lowHalf, UInt64.toNat_xor, Nat.xor_mod_two_pow, toNat_shiftLeft_half, Nat.mul_mod_left,
    Nat.xor_zero, lowHalf]

/-- In its high half the hash is laid over the address. -/
theorem computeCacheKey_high (v h : Uptr) :
    highHalf (computeCacheKey v h) = highHalf v ^^^ lowHalf h := by
  unfold computeCacheKey
  rw [highHalf, UInt64.toNat_xor, Nat.xor_div_two_pow, toNat_shiftLeft_half,
    Nat.mul_div_cancel _ (by positivity), highHalf]

theorem computeCacheKey_eq_iff :
    computeCacheKey v h = computeCacheKey v' h' ↔
      lowHalf v = lowHalf v' ∧ highHalf v ^^^ lowHalf h = highHalf v' ^^^ lowHalf h' := by
  rw [← computeCacheKey_low v h, ← computeCacheKey_low v' h', ← computeCacheKey_high v h,
    ← computeCacheKey_high v' h']
  constructor
  · intro heq
    rw [heq]
    exact ⟨rfl, rfl⟩
  · intro heq
    exact halves_inj heq.1 heq.2

theorem computeCacheKey_eq_zero_iff :
    computeCacheKey v h = 0 ↔ lowHalf v = 0 ∧ highHalf v = lowHalf h := by
  have hzero : computeCacheKey 0 0 = 0 := rfl
  have hlow : lowHalf 0 = 0 := rfl
  have hhigh : highHalf 0 = 0 := rfl
  rw [← hzero, computeCacheKey_eq_iff, hlow, hhigh, Nat.xor_zero, Nat.xor_eq_zero_iff]

/-- Keys stand for their pairs if the tables lie in one range of 4 GiB and the hashes of the
targets differ in their low halves. -/
theorem keysInjective_of_halves (cfg : CastConfig) (S : Set Cast)
    (htables : ∀ c ∈ S, ∀ c' ∈ S, ∀ l l', c.located cfg = some (some l) →
      c'.located cfg = some (some l') → highHalf l.containVec = highHalf l'.containVec)
    (hhashes : ∀ c ∈ S, ∀ c' ∈ S, lowHalf c.data.hash = lowHalf c'.data.hash →
      c.data.hash = c'.data.hash) : KeysInjective cfg S := by
  intro c hc c' hc' l l' hl hl' hkey
  rcases computeCacheKey_eq_iff.mp hkey with ⟨hlow, hhigh⟩
  have htable := htables c hc c' hc' l l' hl hl'
  rw [htable] at hhigh
  exact ⟨halves_inj hlow htable, hhashes c hc c' hc' (Nat.xor_right_injective hhigh)⟩

theorem xor_eq_xor_iff (a b c d : ℕ) : a ^^^ c = b ^^^ d ↔ a ^^^ b = c ^^^ d := by
  have hswap : a ^^^ c ^^^ (b ^^^ d) = a ^^^ b ^^^ (c ^^^ d) := by
    rw [Nat.xor_assoc, Nat.xor_assoc, ← Nat.xor_assoc c, Nat.xor_comm c b, Nat.xor_assoc b]
  rw [← Nat.xor_eq_zero_iff, hswap, Nat.xor_eq_zero_iff]

/-- Two pairs of a table and a hash have keys of their own exactly if:

* hashes on one table differ in their low halves, if at all;
* tables whose low halves are equal are not apart as the low halves of the hashes are;
* no key is that of an empty cell: where the low half of a table is zero, its high half is not
  the low half of the hash. -/
theorem computeCacheKey_identifies_iff (v v' h h' : Uptr) :
    ((computeCacheKey v h = computeCacheKey v' h' → v = v' ∧ h = h') ∧
        computeCacheKey v h ≠ 0 ∧ computeCacheKey v' h' ≠ 0) ↔
      (v = v' → h ≠ h' → lowHalf h ≠ lowHalf h') ∧
      (v ≠ v' → lowHalf v = lowHalf v' →
        highHalf v ^^^ highHalf v' ≠ lowHalf h ^^^ lowHalf h') ∧
      (lowHalf v = 0 → highHalf v ≠ lowHalf h) ∧ (lowHalf v' = 0 → highHalf v' ≠ lowHalf h') := by
  have hequal : (computeCacheKey v h = computeCacheKey v' h' → v = v' ∧ h = h') ↔
      (v = v' → h ≠ h' → lowHalf h ≠ lowHalf h') ∧
      (v ≠ v' → lowHalf v = lowHalf v' →
        highHalf v ^^^ highHalf v' ≠ lowHalf h ^^^ lowHalf h') := by
    rw [computeCacheKey_eq_iff]
    by_cases hv : v = v'
    · subst hv
      simp only [true_and, true_implies, ne_eq, not_true_eq_false, false_implies, and_true,
        Nat.xor_right_inj]
      constructor
      · intro hinj hne hlow
        exact hne (hinj hlow)
      · intro hlow heq
        by_contra hne
        exact hlow hne heq
    · simp only [hv, false_and, imp_false, not_and, false_implies, true_and, ne_eq,
        not_false_eq_true, true_implies, xor_eq_xor_iff]
  have hzero : ∀ w k, computeCacheKey w k ≠ 0 ↔ (lowHalf w = 0 → highHalf w ≠ lowHalf k) := by
    intro w k
    rw [ne_eq, computeCacheKey_eq_zero_iff, not_and]
  rw [hequal, hzero, hzero, and_assoc]

/-- The hashes of two names on one table, and a table at a multiple of 4 GiB. -/
theorem computeCacheKey_collides :
    (∃ v n n' : Uptr, v.toNat % 8 = 0 ∧ v.toNat < 2 ^ 47 ∧
      ClassDecls.hashValueWithUniqueness n false ≠ ClassDecls.hashValueWithUniqueness n' false ∧
      computeCacheKey v (ClassDecls.hashValueWithUniqueness n false) =
        computeCacheKey v (ClassDecls.hashValueWithUniqueness n' false)) ∧
    ∃ v n : Uptr, v ≠ 0 ∧ v.toNat % 8 = 0 ∧ v.toNat < 2 ^ 47 ∧
      computeCacheKey v (ClassDecls.hashValueWithUniqueness n false) = 0 := by
  refine ⟨⟨0x400000, 1, 1 + 0x80000000, ?_⟩, ⟨0x200000000, 1, ?_⟩⟩
  · decide
  · decide

end Caver.CodeGen
