import Caver.Sanitizer.SizeClass

/-!
# Caver.Sanitizer.Primary — the address arithmetic of `SizeClassAllocator64`

The functions of the primary allocator that turn a pointer into a block and
the address of its metadata record. They read nothing but the amount of memory
mapped in each region.

* A region holds the chunks of one size class from its start upwards, and
  their records, 24 bytes each, from its end downwards.
* `chunkBeg c i`, `recordBeg c i`: where chunk `i` of class `c` and its record
  start.
* `Served` pointers are those that `getBlockBegin` answers. Nothing in it asks
  whether the pointer lies in the allocator's space at all.
* `getBlockBeginAndMetaData_agrees`: for every address, the lookup that casts
  use answers as `getBlockBegin` and `getMetaData` together.
-/

namespace Caver.Sanitizer

/-! ## The functions -/

/-- `RegionInfo`: the bytes allocated and mapped for user memory and for
metadata. -/
structure RegionInfo where
  allocatedUser : ℕ
  allocatedMeta : ℕ
  mappedUser : ℕ
  mappedMeta : ℕ
deriving DecidableEq, Repr

/-- The regions, by size class. -/
abbrev Regions := ℕ → RegionInfo

/-- `PointerIsMine`. -/
def pointerIsMine (p : Uptr) : Bool := p / kSpaceSize == kSpaceBeg / kSpaceSize

/-- `GetSizeClass`. -/
def getSizeClass (p : Uptr) : Uptr := (p / kRegionSize) % kNumClassesRounded

/-- `GetChunkIdx`: a 32-bit division where the offset fits. -/
def getChunkIdx (chunk size : Uptr) : Uptr :=
  let offset := chunk % kRegionSize
  if offset >>> 32 ≠ 0 then offset / size
  else (offset.toUInt32 / size.toUInt32).toUInt64

/-- `GetBlockBegin`; 0 is the null pointer. -/
def getBlockBegin (regions : Regions) (p : Uptr) : Uptr :=
  let classId := getSizeClass p
  let size := classSize classId
  if size = 0 then 0
  else
    let chunkIdx := getChunkIdx p size
    let regBeg := p &&& ~~~(kRegionSize - 1)
    let beg := chunkIdx * size
    let nextBeg := beg + size
    if classId ≥ kNumClasses then 0
    else if (regions classId.toNat).mappedUser ≥ nextBeg.toNat then regBeg + beg
    else 0

/-- `GetMetaData`. -/
def getMetaData (p : Uptr) : Uptr :=
  let classId := getSizeClass p
  let size := classSize classId
  let chunkIdx := getChunkIdx p size
  kSpaceBeg + kRegionSize * (classId + 1) - (1 + chunkIdx) * kMetadataSize

/-- `GetBlockBeginAndMetaData`: the block and `*ppMetaData` after the call,
`ppMetaData` before it. -/
def getBlockBeginAndMetaData (regions : Regions) (p ppMetaData : Uptr) : Uptr × Uptr :=
  let classId := getSizeClass p
  let size := classSize classId
  if size = 0 then (0, ppMetaData)
  else
    let chunkIdx := getChunkIdx p size
    let regBeg := p &&& ~~~(kRegionSize - 1)
    let beg := chunkIdx * size
    let nextBeg := beg + size
    if classId ≥ kNumClasses then (0, ppMetaData)
    else if (regions classId.toNat).mappedUser ≥ nextBeg.toNat then
      (regBeg + beg,
        kSpaceBeg + kRegionSize * (classId + 1) - (1 + chunkIdx) * kMetadataSize)
    else (0, ppMetaData)

/-! ## Chunks and records -/

/-- The chunk size of a class, as a number. -/
def chunkSize (c : ℕ) : ℕ := (classSize (UInt64.ofNat c)).toNat

/-- Where chunk `i` of class `c` starts. -/
def chunkBeg (c i : ℕ) : ℕ := 0x600000000000 + c * 2 ^ 37 + i * chunkSize c

/-- Where the record of chunk `i` of class `c` starts. -/
def recordBeg (c i : ℕ) : ℕ := 0x600000000000 + (c + 1) * 2 ^ 37 - (1 + i) * 24

/-- The size class that a pointer's bits name. -/
def classOf (p : Uptr) : ℕ := p.toNat / 2 ^ 37 % 64

/-- The chunk of that class that a pointer's offset falls in. -/
def chunkOf (p : Uptr) : ℕ := p.toNat % 2 ^ 37 / chunkSize (classOf p)

/-- The class is in use, and its user memory is mapped up to the end of the
pointer's chunk. -/
def Served (regions : Regions) (p : Uptr) : Prop :=
  0 < classOf p ∧ classOf p < 53 ∧
    (chunkOf p + 1) * chunkSize (classOf p) ≤ (regions (classOf p)).mappedUser

instance (regions : Regions) (p : Uptr) : Decidable (Served regions p) :=
  inferInstanceAs (Decidable (_ ∧ _ ∧ _))

theorem chunkSize_bounds {c : ℕ} (h0 : 0 < c) (hc : c < 64) :
    16 ≤ chunkSize c ∧ chunkSize c < 2 ^ 20 := by
  have hn : (UInt64.ofNat c).toNat = c := by
    rw [UInt64.toNat_ofNat']
    omega
  refine classSize_bounds (by omega) ?_
  intro h
  rw [h] at hn
  have hz := UInt64.toNat_zero
  omega

theorem kRegionSize_toNat : kRegionSize.toNat = 2 ^ 37 := by decide

theorem getSizeClass_toNat (p : Uptr) : (getSizeClass p).toNat = classOf p := by
  unfold getSizeClass classOf
  rw [UInt64.toNat_mod, UInt64.toNat_div, kRegionSize_toNat]
  rfl

theorem getSizeClass_eq (p : Uptr) : getSizeClass p = UInt64.ofNat (classOf p) := by
  rw [← getSizeClass_toNat, UInt64.ofNat_toNat]

theorem classOf_lt (p : Uptr) : classOf p < 64 := Nat.mod_lt _ (by decide)

/-- Both divisions of `GetChunkIdx` compute the quotient. -/
theorem getChunkIdx_toNat {p size : Uptr} (hsize : size.toNat < 2 ^ 20) :
    (getChunkIdx p size).toNat = p.toNat % 2 ^ 37 / size.toNat := by
  have hoff : (p % kRegionSize).toNat = p.toNat % 2 ^ 37 := by
    rw [UInt64.toNat_mod, kRegionSize_toNat]
  unfold getChunkIdx
  dsimp only
  split
  · rw [UInt64.toNat_div, hoff]
  · next hhigh =>
    -- the offset fits into 32 bits, so nothing is cut off
    have hsmall : p.toNat % 2 ^ 37 < 2 ^ 32 := by
      rw [ne_eq, not_not, ← UInt64.toNat_inj, UInt64.toNat_shiftRight, hoff,
        Nat.shiftRight_eq_div_pow] at hhigh
      have hzero : p.toNat % 2 ^ 37 / 2 ^ 32 = 0 := hhigh
      omega
    rw [UInt32.toNat_toUInt64, UInt32.toNat_div, UInt64.toNat_toUInt32, UInt64.toNat_toUInt32, hoff,
      Nat.mod_eq_of_lt hsmall, Nat.mod_eq_of_lt (show size.toNat < 2 ^ 32 by omega)]

theorem getChunkIdx_class (p : Uptr) :
    (getChunkIdx p (classSize (getSizeClass p))).toNat = chunkOf p := by
  have hsize : (classSize (getSizeClass p)).toNat = chunkSize (classOf p) := by
    rw [getSizeClass_eq]
    rfl
  by_cases h0 : classOf p = 0
  · rw [getChunkIdx_toNat, hsize]
    · rfl
    · rw [hsize, h0]
      decide
  · rw [getChunkIdx_toNat, hsize]
    · rfl
    · rw [hsize]
      exact (chunkSize_bounds (Nat.pos_of_ne_zero h0) (classOf_lt p)).2

theorem classSize_getSizeClass (p : Uptr) :
    (classSize (getSizeClass p)).toNat = chunkSize (classOf p) := by
  rw [getSizeClass_eq]
  rfl

theorem chunkOf_mul_le (p : Uptr) : chunkOf p * chunkSize (classOf p) ≤ p.toNat % 2 ^ 37 :=
  Nat.div_mul_le_self _ _

/-- The start of the pointer's chunk within its region. -/
theorem chunkOffset_toNat (p : Uptr) :
    (getChunkIdx p (classSize (getSizeClass p)) * classSize (getSizeClass p)).toNat =
      chunkOf p * chunkSize (classOf p) := by
  have hmul := chunkOf_mul_le p
  rw [toNat_mul_of_lt, getChunkIdx_class, classSize_getSizeClass]
  rw [getChunkIdx_class, classSize_getSizeClass]
  omega

/-- The tests that both block functions make. -/
theorem guard_eq {α : Type} (regions : Regions) (p : Uptr) (a b : α) :
    (if classSize (getSizeClass p) = 0 then b
      else if getSizeClass p ≥ kNumClasses then b
      else if (regions (getSizeClass p).toNat).mappedUser ≥
          (getChunkIdx p (classSize (getSizeClass p)) * classSize (getSizeClass p) +
            classSize (getSizeClass p)).toNat then a
      else b) = if Served regions p then a else b := by
  by_cases h0 : classOf p = 0
  · -- class 0 has no chunks
    have hz : classSize (getSizeClass p) = 0 := by
      rw [getSizeClass_eq, h0]
      decide
    have hns : ¬ Served regions p := by
      intro hs
      have hpos := hs.1
      omega
    rw [if_pos hz, if_neg hns]
  · have hpos : 0 < classOf p := Nat.pos_of_ne_zero h0
    have hbounds := chunkSize_bounds hpos (classOf_lt p)
    have hmul := chunkOf_mul_le p
    have hne : classSize (getSizeClass p) ≠ 0 := by
      intro h
      have hsize := classSize_getSizeClass p
      rw [h] at hsize
      have hz := UInt64.toNat_zero
      omega
    -- the tests one by one, in numbers
    have hclass : getSizeClass p ≥ kNumClasses ↔ 53 ≤ classOf p := by
      rw [ge_iff_le, UInt64.le_iff_toNat_le, getSizeClass_toNat]
      exact Iff.rfl
    have hmapped : (regions (getSizeClass p).toNat).mappedUser ≥
        (getChunkIdx p (classSize (getSizeClass p)) * classSize (getSizeClass p) +
          classSize (getSizeClass p)).toNat ↔
        (chunkOf p + 1) * chunkSize (classOf p) ≤ (regions (classOf p)).mappedUser := by
      rw [ge_iff_le, toNat_add_of_lt, chunkOffset_toNat, classSize_getSizeClass,
        getSizeClass_toNat, Nat.succ_mul]
      rw [chunkOffset_toNat, classSize_getSizeClass]
      omega
    have hserved : Served regions p ↔ ¬ getSizeClass p ≥ kNumClasses ∧
        (regions (getSizeClass p).toNat).mappedUser ≥
          (getChunkIdx p (classSize (getSizeClass p)) * classSize (getSizeClass p) +
            classSize (getSizeClass p)).toNat := by
      rw [hclass, hmapped]
      unfold Served
      constructor
      · intro h
        exact ⟨by omega, h.2.2⟩
      · intro h
        exact ⟨hpos, by omega, h.2⟩
    -- in the order of the source
    rw [if_neg hne]
    by_cases hc : getSizeClass p ≥ kNumClasses
    · have hns : ¬ Served regions p := fun hs => (hserved.mp hs).1 hc
      rw [if_pos hc, if_neg hns]
    · rw [if_neg hc]
      simp only [hserved, hc, not_false_eq_true, true_and]

theorem getBlockBegin_toNat (regions : Regions) (p : Uptr) :
    (getBlockBegin regions p).toNat =
      if Served regions p then p.toNat - p.toNat % 2 ^ 37 + chunkOf p * chunkSize (classOf p)
      else 0 := by
  have hguard := guard_eq regions p ((p &&& ~~~(kRegionSize - 1)) +
    getChunkIdx p (classSize (getSizeClass p)) * classSize (getSizeClass p)) 0
  rw [show getBlockBegin regions p = _ from hguard]
  split
  · next hs =>
    have hreg : (p &&& ~~~(kRegionSize - 1)).toNat = p.toNat - p.toNat % 2 ^ 37 := by
      rw [toNat_and_not, UInt64.toNat_and]
      congr 1
      exact Nat.and_two_pow_sub_one_eq_mod p.toNat 37
    have hmul := chunkOf_mul_le p
    have hp := p.toNat_lt
    rw [toNat_add_of_lt, hreg, chunkOffset_toNat]
    rw [hreg, chunkOffset_toNat]
    omega
  · rfl

/-- The two functions agree on the block; the record comes with it. -/
theorem getBlockBeginAndMetaData_eq (regions : Regions) (p ppMetaData : Uptr) :
    getBlockBeginAndMetaData regions p ppMetaData =
      (getBlockBegin regions p, if Served regions p then getMetaData p else ppMetaData) := by
  have hguard := guard_eq regions p ((p &&& ~~~(kRegionSize - 1)) +
    getChunkIdx p (classSize (getSizeClass p)) * classSize (getSizeClass p), getMetaData p)
    (0, ppMetaData)
  have hbeg := guard_eq regions p ((p &&& ~~~(kRegionSize - 1)) +
    getChunkIdx p (classSize (getSizeClass p)) * classSize (getSizeClass p)) 0
  rw [show getBlockBeginAndMetaData regions p ppMetaData = _ from hguard,
    show getBlockBegin regions p = _ from hbeg]
  split <;> rfl

/-- The record of the chunk that a pointer falls in. -/
theorem getMetaData_toNat {p : Uptr} (h0 : 0 < classOf p) :
    (getMetaData p).toNat = recordBeg (classOf p) (chunkOf p) := by
  have hlt := classOf_lt p
  have hi : chunkOf p < 2 ^ 33 := by
    have h := Nat.div_le_div_left (chunkSize_bounds h0 hlt).1 (by decide) (a := p.toNat % 2 ^ 37)
    unfold chunkOf
    omega
  have hb : kSpaceBeg.toNat = 0x600000000000 := rfl
  -- no product and no sum overflows
  have hcls : (getSizeClass p + 1).toNat = classOf p + 1 := by
    rw [toNat_add_of_lt, getSizeClass_toNat, UInt64.toNat_one]
    rw [getSizeClass_toNat, UInt64.toNat_one]
    omega
  have hreg : (kRegionSize * (getSizeClass p + 1)).toNat = (classOf p + 1) * 2 ^ 37 := by
    rw [toNat_mul_of_lt, hcls, kRegionSize_toNat, Nat.mul_comm]
    rw [hcls, kRegionSize_toNat]
    omega
  have hend : (kSpaceBeg + kRegionSize * (getSizeClass p + 1)).toNat =
      0x600000000000 + (classOf p + 1) * 2 ^ 37 := by
    rw [toNat_add_of_lt, hreg, hb]
    rw [hreg, hb]
    omega
  have hidx : (1 + getChunkIdx p (classSize (getSizeClass p))).toNat = 1 + chunkOf p := by
    rw [toNat_add_of_lt, getChunkIdx_class, UInt64.toNat_one]
    rw [getChunkIdx_class, UInt64.toNat_one]
    omega
  have hrec : ((1 + getChunkIdx p (classSize (getSizeClass p))) * kMetadataSize).toNat =
      (1 + chunkOf p) * 24 := by
    rw [toNat_mul_of_lt, hidx, kMetadataSize_toNat]
    rw [hidx, kMetadataSize_toNat]
    omega
  unfold getMetaData recordBeg
  dsimp only
  rw [UInt64.toNat_sub_of_le, hend, hrec]
  rw [UInt64.le_iff_toNat_le, hend, hrec]
  omega

/-! ## The two lookups agree -/

/-- A served pointer has a block, and the two have their class and chunk in
common. -/
theorem Served.classOf_getBlockBegin {regions : Regions} {p : Uptr} (hs : Served regions p) :
    classOf (getBlockBegin regions p) = classOf p ∧
      chunkOf (getBlockBegin regions p) = chunkOf p ∧ getBlockBegin regions p ≠ 0 := by
  have hbeg := getBlockBegin_toNat regions p
  have hle := chunkOf_mul_le p
  have h0 := hs.1
  have hpos := (chunkSize_bounds h0 (classOf_lt p)).1
  rw [if_pos hs] at hbeg
  -- the block is in the pointer's region, so the bits above the offset are the same
  have hcls : classOf (getBlockBegin regions p) = classOf p := by
    unfold classOf at h0 hbeg hle ⊢
    omega
  have hoff : (getBlockBegin regions p).toNat % 2 ^ 37 = chunkOf p * chunkSize (classOf p) := by
    omega
  have hidx : chunkOf (getBlockBegin regions p) = chunkOf p := by
    rw [chunkOf, hcls, hoff]
    exact Nat.mul_div_left _ (by omega)
  refine ⟨hcls, hidx, ?_⟩
  intro hz
  unfold classOf at h0
  rw [hz, UInt64.toNat_zero] at hbeg
  omega

theorem getBlockBegin_ne_zero_iff (regions : Regions) (p : Uptr) :
    getBlockBegin regions p ≠ 0 ↔ Served regions p := by
  constructor
  · intro hne
    by_contra hs
    apply hne
    rw [← UInt64.toNat_inj, getBlockBegin_toNat, if_neg hs]
    rfl
  · intro hs
    exact hs.classOf_getBlockBegin.2.2

/-- The lookup that casts use returns what `GetBlockBegin` and `GetMetaData`
return, and writes nothing where there is no block. -/
theorem getBlockBeginAndMetaData_agrees (regions : Regions) (p ppMetaData : Uptr) :
    (getBlockBeginAndMetaData regions p ppMetaData).1 = getBlockBegin regions p ∧
      (getBlockBegin regions p ≠ 0 →
        (getBlockBeginAndMetaData regions p ppMetaData).2 =
            getMetaData (getBlockBegin regions p) ∧
          getMetaData (getBlockBegin regions p) = getMetaData p) ∧
      (getBlockBegin regions p = 0 →
        (getBlockBeginAndMetaData regions p ppMetaData).2 = ppMetaData) := by
  rw [getBlockBeginAndMetaData_eq]
  refine ⟨rfl, ?_, ?_⟩
  · intro hne
    have hs := (getBlockBegin_ne_zero_iff regions p).mp hne
    rcases hs.classOf_getBlockBegin with ⟨hcls, hidx, -⟩
    -- the record is determined by the class and the chunk
    have hmeta : getMetaData (getBlockBegin regions p) = getMetaData p := by
      have h0 : 0 < classOf (getBlockBegin regions p) := by
        rw [hcls]
        exact hs.1
      rw [← UInt64.toNat_inj, getMetaData_toNat h0, getMetaData_toNat hs.1, hcls, hidx]
    rw [hmeta]
    exact ⟨if_pos hs, rfl⟩
  · intro hz
    have hns : ¬ Served regions p := by
      rw [← getBlockBegin_ne_zero_iff, hz]
      exact fun h => h rfl
    exact if_neg hns

end Caver.Sanitizer
