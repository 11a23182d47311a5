import Caver.Basic
import Mathlib.Tactic.Ring
import Mathlib.Tactic.Positivity

/-!
# Caver.Sanitizer.SizeClass — sizes and their classes

`SizeClassMap` from `sanitizer_allocator.h`, and the constants of
`SizeClassAllocator64` at the parameters of `cver_allocator.cc`.

* `classSize`, `classId`: the map between sizes and classes.
* `classId_spec`: the chunks of a size's class are large enough for it.
-/

namespace Caver.Sanitizer

/-! ## Constants -/

def kSpaceBeg : Uptr := 0x600000000000
def kSpaceSize : Uptr := 0x80000000000
def kMetadataSize : Uptr := 24
def kNumClasses : Uptr := 53
def kNumClassesRounded : Uptr := 64
def kRegionSize : Uptr := kSpaceSize / kNumClassesRounded
def kMaxSizeLog : Uptr := 17
def kMaxSize : Uptr := 1 <<< kMaxSizeLog

def kMinSizeLog : Uptr := 4
def kMidSizeLog : Uptr := kMinSizeLog + 4
def kMinSize : Uptr := 1 <<< kMinSizeLog
def kMidSize : Uptr := 1 <<< kMidSizeLog
def kMidClass : Uptr := kMidSize / kMinSize
def kS : Uptr := 2
def kM : Uptr := (1 <<< kS) - 1

theorem kMetadataSize_toNat : kMetadataSize.toNat = 24 := rfl

theorem kMaxSize_toNat : kMaxSize.toNat = 2 ^ 17 := by decide

/-! ## The size class map -/

/-- `SizeClassMap::Size`. -/
def classSize (classId : Uptr) : Uptr :=
  if classId ≤ kMidClass then kMinSize * classId
  else
    let classId := classId - kMidClass
    let t := kMidSize <<< (classId >>> kS)
    t + (t >>> kS) * (classId &&& kM)

/-- `SizeClassMap::ClassID`. -/
def classId (size : Uptr) : Uptr :=
  if size ≤ kMidSize then (size + kMinSize - 1) >>> kMinSizeLog
  else if size > kMaxSize then 0
  else
    let l := size.log2
    let hbits := (size >>> (l - kS)) &&& kM
    let lbits := size &&& ((1 <<< (l - kS)) - 1)
    let l1 := l - kMidSizeLog
    kMidClass + (l1 <<< kS) + hbits + (if lbits > 0 then 1 else 0)

/-- Every class but 0 has chunks of a positive size. -/
theorem classSize_bounds {c : Uptr} (hc : c.toNat < 64) (h0 : c ≠ 0) :
    16 ≤ (classSize c).toNat ∧ (classSize c).toNat < 2 ^ 20 := by
  have hall : ∀ n : Fin 64, n.val ≠ 0 → 16 ≤ (classSize (UInt64.ofNat n.val)).toNat ∧
      (classSize (UInt64.ofNat n.val)).toNat < 2 ^ 20 := by
    decide
  have h := hall ⟨c.toNat, hc⟩ (by
    intro h
    apply h0
    exact UInt64.toNat_inj.mp h)
  simpa using h

/-- Above the middle class there are four classes for each power of two. -/
theorem classSize_mid (i : Fin 11) (h : Fin 4) :
    (classSize (UInt64.ofNat (16 + 4 * i + h))).toNat = 2 ^ (i.val + 8) + 2 ^ (i.val + 6) * h := by
  revert i h
  decide

/-- The constants that `ClassID` computes from the logarithm of a size. -/
theorem classId_consts (l : Fin 18) (hl : 8 ≤ l.val) :
    (kMidClass + ((UInt64.ofNat l - kMidSizeLog) <<< kS)).toNat = 16 + 4 * (l - 8) ∧
      (UInt64.ofNat l - kS).toNat % 64 = l - 2 ∧
      ((1 : Uptr) <<< (UInt64.ofNat l - kS) - 1).toNat = 2 ^ (l.val - 2) - 1 := by
  revert l
  decide

/-- The class of a size above the middle, from its leading bits. -/
theorem classId_large {size : Uptr} (hlo : 256 < size.toNat) (hhi : size.toNat ≤ 2 ^ 17) :
    ∃ i, i < 10 ∧ 2 ^ (i + 8) ≤ size.toNat ∧ size.toNat < 2 ^ (i + 9) ∧
      (classId size).toNat = 16 + 4 * i + size.toNat / 2 ^ (i + 6) % 4 +
        if size.toNat % 2 ^ (i + 6) = 0 then 0 else 1 := by
  have hn : size.toNat ≠ 0 := by omega
  have hmid : ¬ size ≤ kMidSize := by
    rw [UInt64.le_iff_toNat_le]
    have hk : kMidSize.toNat = 256 := by decide
    omega
  have hmax : ¬ size > kMaxSize := by
    rw [gt_iff_lt, UInt64.lt_iff_toNat_lt]
    have hk := kMaxSize_toNat
    omega
  -- `l` is the place of the leading bit: the base of the class, the shift and the mask depend on it
  obtain ⟨l, hl⟩ : ∃ l, size.toNat.log2 = l := ⟨_, rfl⟩
  have hlog : size.log2 = UInt64.ofNat l := by
    rw [← hl]
    exact (UInt64.ofNat_toNat (x := size.log2)).symm
  rcases (Nat.log2_eq_iff hn).mp hl with ⟨hlo', hhi'⟩
  have hl8 : 8 ≤ l := by
    rw [← hl, Nat.le_log2 hn]
    omega
  have hl18 : l < 18 := by
    rw [← hl, Nat.log2_lt hn]
    omega
  rcases classId_consts ⟨l, hl18⟩ hl8 with ⟨hbase, hshift, hmask⟩
  -- the two bits behind the leading one, and what is below them
  have hhbits : ((size >>> (UInt64.ofNat l - kS)) &&& kM).toNat = size.toNat / 2 ^ (l - 2) % 4 := by
    rw [UInt64.toNat_and, UInt64.toNat_shiftRight, hshift, Nat.shiftRight_eq_div_pow]
    exact Nat.and_two_pow_sub_one_eq_mod _ 2
  have hlbits : (size &&& ((1 <<< (UInt64.ofNat l - kS)) - 1)).toNat =
      size.toNat % 2 ^ (l - 2) := by
    rw [UInt64.toNat_and, hmask]
    exact Nat.and_two_pow_sub_one_eq_mod _ (l - 2)
  refine ⟨l - 8, by omega, ?_, ?_, ?_⟩
  · rwa [Nat.sub_add_cancel hl8]
  · rwa [show l - 8 + 9 = l + 1 by omega]
  · rw [show l - 8 + 6 = l - 2 by omega]
    simp only [classId, if_neg hmid, if_neg hmax, hlog]
    simp only [gt_iff_lt, UInt64.lt_iff_toNat_lt, hlbits]
    split
    · next hpos =>
      have hne : size.toNat % 2 ^ (l - 2) ≠ 0 := by
        simpa [Nat.pos_iff_ne_zero] using hpos
      rw [if_neg hne]
      simp only [UInt64.toNat_add, hhbits, hbase]
      simp
      omega
    · next hzero =>
      have heq : size.toNat % 2 ^ (l - 2) = 0 := by
        simpa using hzero
      rw [if_pos heq]
      simp only [UInt64.toNat_add, hhbits, hbase]
      simp
      omega

/-- The class of a size up to the middle one: 16 bytes a class. -/
theorem classId_small {size : Uptr} (hmid : size.toNat ≤ 256) :
    (classId size).toNat = (size.toNat + 15) / 16 := by
  have hle : size ≤ kMidSize := UInt64.le_iff_toNat_le.mpr hmid
  have hsum : (size + kMinSize - 1).toNat = size.toNat + 15 := by
    have hadd : (size + kMinSize).toNat = size.toNat + 16 := by
      rw [toNat_add_of_lt]
      · rfl
      · have hk : kMinSize.toNat = 16 := by decide
        omega
    rw [UInt64.toNat_sub_of_le, hadd]
    · rfl
    · rw [UInt64.le_iff_toNat_le, hadd]
      exact Nat.le_add_left 1 (size.toNat + 15)
  simp only [classId, if_pos hle]
  rw [UInt64.toNat_shiftRight, hsum, Nat.shiftRight_eq_div_pow]
  rfl

/-- A number between `4 * P` and `8 * P`, rounded up to a multiple of `P`. -/
theorem le_quarters {n P h : ℕ} (hlo : 4 * P ≤ n) (hhi : n < 8 * P)
    (hh : h = n / P % 4 + if n % P = 0 then 0 else 1) :
    n ≤ 4 * P + P * h ∧ h ≤ 4 ∧ (n = 4 * P → h = 0) := by
  have hpos : 0 < P := by omega
  have hdiv := Nat.div_add_mod n P
  have hmod := Nat.mod_lt n hpos
  have hq4 : 4 ≤ n / P := (Nat.le_div_iff_mul_le hpos).mpr hlo
  have hq8 : n / P < 8 := (Nat.div_lt_iff_lt_mul hpos).mpr hhi
  generalize n / P = q at *
  generalize n % P = r at *
  have hq : q = 4 ∨ q = 5 ∨ q = 6 ∨ q = 7 := by omega
  rcases hq with rfl | rfl | rfl | rfl <;> split at hh <;> subst hh <;>
    exact ⟨by omega, by omega, fun hn => by omega⟩

/-- The chunks of a class above the middle: `h` quarters of a power of two more
than that power. -/
theorem classSize_quarters {i h P : ℕ} (hi : i < 10) (h4 : h ≤ 4) (h9 : i = 9 → h = 0)
    (hP : 2 ^ (i + 6) = P) :
    (classSize (UInt64.ofNat (16 + 4 * i + h))).toNat = 4 * P + P * h := by
  have hP8 : 2 ^ (i + 8) = 4 * P := by
    rw [← hP]
    ring
  have hP9 : 2 ^ (i + 9) = 8 * P := by
    rw [← hP]
    ring
  rcases Nat.lt_or_ge h 4 with hlt | hge
  · rw [classSize_mid ⟨i, by omega⟩ ⟨h, hlt⟩, hP8, hP]
  · -- four quarters are the next power
    obtain rfl : h = 4 := by omega
    have hmid := classSize_mid ⟨i + 1, by omega⟩ 0
    rw [show 16 + 4 * i + 4 = 16 + 4 * (i + 1) + 0 by ring]
    refine hmid.trans ?_
    show 2 ^ (i + 9) + 2 ^ (i + 7) * 0 = 4 * P + P * 4
    omega

/-- The class of a size that the primary allocator serves: the chunks of that
class are large enough. -/
theorem classId_spec {size : Uptr} (h0 : size ≠ 0) (hmax : size ≤ kMaxSize) :
    (classId size).toNat < 53 ∧ classId size ≠ 0 ∧ size ≤ classSize (classId size) := by
  have hzero := UInt64.toNat_zero
  have h0' : size.toNat ≠ 0 := fun h => h0 (UInt64.toNat_inj.mp h)
  have hmax' : size.toNat ≤ 2 ^ 17 := UInt64.le_iff_toNat_le.mp hmax
  rw [UInt64.le_iff_toNat_le]
  by_cases hmid : size.toNat ≤ 256
  · have hcls := classId_small hmid
    have hsmall : ∀ n : Fin 17, (classSize (UInt64.ofNat n.val)).toNat = 16 * n.val := by
      decide
    have hsize : (classSize (classId size)).toNat = 16 * (classId size).toNat := by
      have h := hsmall ⟨(classId size).toNat, by omega⟩
      simpa using h
    refine ⟨by omega, ?_, by omega⟩
    intro hz
    rw [hz] at hcls
    omega
  · obtain ⟨i, hi, hlo, hhi, hcls⟩ := classId_large (by omega) hmax'
    obtain ⟨P, hP⟩ : ∃ P, 2 ^ (i + 6) = P := ⟨_, rfl⟩
    obtain ⟨h, hh⟩ : ∃ h, h = size.toNat / P % 4 + if size.toNat % P = 0 then 0 else 1 := ⟨_, rfl⟩
    rw [show 2 ^ (i + 8) = 4 * P by rw [← hP]; ring] at hlo
    rw [show 2 ^ (i + 9) = 8 * P by rw [← hP]; ring] at hhi
    rw [hP] at hcls
    rcases le_quarters hlo hhi hh with ⟨hn, h4, hexact⟩
    -- the last class has the largest size only
    have h9 : i = 9 → h = 0 := by
      intro h9
      have hP15 : P = 2 ^ 15 := by rw [← hP, h9]
      exact hexact (by omega)
    have hcls' : (classId size).toNat = 16 + 4 * i + h := by omega
    have hof : classId size = UInt64.ofNat (16 + 4 * i + h) := by
      rw [← hcls', UInt64.ofNat_toNat]
    have hcs := classSize_quarters hi h4 h9 hP
    rw [← hof] at hcs
    refine ⟨by omega, ?_, by omega⟩
    intro hz
    rw [hz] at hcls'
    omega

end Caver.Sanitizer
