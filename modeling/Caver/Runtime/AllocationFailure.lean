import Caver.Runtime.BlockMoves

/-!
# Caver.Runtime.AllocationFailure — null from the allocator below

* `allocate_null_iff`: within the limit on sizes, the combined allocator returns
  null for the largest alignment only, where the size of the mapping wraps.
* `reportsFailure_iff`: `cverAllocate` does not return that null. It asks for its
  record, which is not mapped.
-/

namespace Caver.Runtime

open Caver.Core Caver.Sanitizer

/-- A call with an alignment of its own. -/
inductive AlignedCall where
  | memalign
  | alignedAlloc
  | cverAllocate (zeroise : Bool)
deriving DecidableEq, Repr

def AlignedCall.run (choice : Choice) (size alignment : Uptr) : AlignedCall → HeapM Uptr
  | .memalign => Runtime.memalign choice alignment size
  | .alignedAlloc => Runtime.alignedAlloc choice alignment size
  | .cverAllocate zeroise => Runtime.cverAllocate choice size alignment zeroise

variable {s : HeapState} {choice : Choice} {size alignment : Uptr}

/-- Powers of two pass the checks for them. -/
theorem isPowerOfTwo_of (hal : alignment.toNat.isPowerOfTwo) : isPowerOfTwo alignment = true := by
  have hne : alignment.toNat ≠ 0 := by
    rcases hal with ⟨k, hk⟩
    rw [hk]
    exact Nat.two_pow_pos k |>.ne'
  unfold isPowerOfTwo
  rw [beq_iff_eq, ← UInt64.toNat_inj, UInt64.toNat_and, UInt64.toNat_sub_of_le, UInt64.toNat_one]
  · exact (Nat.and_sub_one_eq_zero_iff_isPowerOfTwo hne).mpr hal
  · rw [UInt64.le_iff_toNat_le, UInt64.toNat_one]
    omega

/-- The next multiple of the largest alignment. -/
theorem roundUp_largest (h0 : size ≠ 0) (hsize : size.toNat ≤ 2 ^ 33) :
    roundUp size 0x8000000000000000 = 0x8000000000000000 := by
  have hpos : 0 < size.toNat := Nat.pos_of_ne_zero fun hz => h0 (UInt64.toNat_inj.mp hz)
  have hbig : (0x8000000000000000 : Uptr).toNat = 2 ^ 63 := by decide
  have hsum : (size + 0x8000000000000000 - 1).toNat = size.toNat + 2 ^ 63 - 1 := by
    rw [UInt64.toNat_sub_of_le, toNat_add_of_lt, hbig, UInt64.toNat_one]
    · rw [hbig]
      omega
    · rw [UInt64.le_iff_toNat_le, toNat_add_of_lt, hbig, UInt64.toNat_one]
      · omega
      · rw [hbig]
        omega
  have hlow : ((size + 0x8000000000000000 - 1) &&& (0x8000000000000000 - 1)).toNat =
      (size.toNat + 2 ^ 63 - 1) % 2 ^ 63 := by
    rw [UInt64.toNat_and, hsum]
    exact Nat.and_two_pow_sub_one_eq_mod _ 63
  rw [← UInt64.toNat_inj, roundUp, toNat_and_not, hlow, hsum, hbig]
  omega

/-- Within the limit, the combined allocator returns null exactly for the
largest alignment. -/
theorem allocate_null_iff (hr : RegionsOk s.regions) (hflag : s.mayReturnNull = true)
    (hsize : ¬ size > kMaxAllowedMallocSize) (hal : alignment.toNat.isPowerOfTwo) :
    (∃ s', allocate choice size alignment s = some (0, s')) ↔ alignment = 0x8000000000000000 := by
  have hlimit : size.toNat ≤ 2 ^ 33 := by
    rw [gt_iff_lt, UInt64.lt_iff_toNat_lt, kMaxAllowedMallocSize_toNat] at hsize
    omega
  have hbig : (0x8000000000000000 : Uptr).toNat = 2 ^ 63 := by decide
  constructor
  · rintro ⟨s', hrun⟩
    rcases hal with ⟨k, hk⟩
    have hlt := alignment.toNat_lt
    rw [hk] at hlt
    have hk64 : k < 64 := (Nat.pow_lt_pow_iff_right (by decide)).mp hlt
    by_cases hk63 : k = 63
    · rw [← UInt64.toNat_inj, hk, hk63, hbig]
    · -- a smaller alignment leaves room for the size
      have hle : alignment.toNat ≤ 2 ^ 62 := by
        rw [hk]
        exact Nat.pow_le_pow_right (by decide) (by omega)
      exact absurd rfl ((allocate_ne_zero hr choice hlimit hle).elim hrun)
  · rintro rfl
    obtain ⟨n, hn⟩ : ∃ n, (if size = 0 then 1 else size) = n := ⟨_, rfl⟩
    have hone := UInt64.toNat_one
    have hn0 : n ≠ 0 ∧ n.toNat ≤ 2 ^ 33 := by
      rw [← hn]
      split
      · exact ⟨by decide, by omega⟩
      · next h => exact ⟨h, hlimit⟩
    have hwrap : ¬ n + 0x8000000000000000 < n := by
      rw [UInt64.lt_iff_toNat_lt, toNat_add_of_lt]
      · omega
      · rw [hbig]
        omega
    have h8 : (0x8000000000000000 : Uptr) > 8 := by decide
    have hpow : isPowerOfTwo 0x8000000000000000 = true := by decide
    have hcan : ¬ canAllocate 0x8000000000000000 0x8000000000000000 = true := by decide
    -- the size of the mapping wraps
    have hmap : mapSizeFor 0x8000000000000000 0x8000000000000000 < 0x8000000000000000 := by decide
    unfold mapSizeFor at hmap
    have hsec : secondaryAllocate choice.mapBeg 0x8000000000000000 0x8000000000000000 s =
        some (0, s) := by
      refine eval_of_wp ?_
      simp only [secondaryAllocate, wp_bind, wp_check]
      refine ⟨hpow, ?_⟩
      rw [if_pos hmap]
      simp [allocatorReturnNull, hflag]
    refine ⟨s, eval_of_wp ?_⟩
    simp only [allocate, hn]
    rw [if_neg hwrap, if_pos h8, wp_bind, roundUpTo, wp_bind, wp_check]
    refine ⟨hpow, ?_⟩
    rw [wp_pure, roundUp_largest hn0.1 hn0.2, if_neg hcan, wp_bind, wp_eval hsec, wp_bind,
      wp_check, wp_pure]
    exact ⟨by decide, rfl, rfl⟩

/-- Where the combined allocator has returned null, a call returns it and leaves
everything as it is exactly if it has not asked that allocator at all. -/
theorem reportsFailure_iff (hrun : HeapRun s) (hflag : s.mayReturnNull = true)
    (hal : alignment.toNat.isPowerOfTwo) {s' : HeapState}
    (hnull : allocate choice size alignment s = some (0, s')) (call : AlignedCall) :
    call.run choice size alignment s = some (0, s) ↔ size > kMaxAllowedMallocSize := by
  have hpow := isPowerOfTwo_of hal
  have hmemalign : Runtime.memalign choice alignment size s =
      cverAllocate choice size alignment false s := by
    have hcheck : (alignment &&& (alignment - 1) == 0) = true := hpow
    rw [Runtime.memalign, cverReallocate_null, check, hcheck]
    rfl
  -- each of the calls is an allocation
  have hcall : ∃ zeroise, call.run choice size alignment s =
      cverAllocate choice size alignment zeroise s := by
    cases call with
    | memalign => exact ⟨false, hmemalign⟩
    | alignedAlloc => exact ⟨false, hmemalign⟩
    | cverAllocate zeroise => exact ⟨zeroise, rfl⟩
  rcases hcall with ⟨zeroise, hcall⟩
  rw [hcall]
  constructor
  · intro hzero
    by_contra hsize
    rw [cverAllocate_null hrun.blocks hsize hnull] at hzero
    exact absurd hzero (by simp)
  · intro hsize
    refine eval_of_wp ?_
    simp [cverAllocate, hsize, allocatorReturnNull, hflag]

/-- A size that the limit refuses, where the allocator below would refuse it
too. -/
theorem reportsFailure_large :
    AlignedCall.run ⟨0, 0⟩ 0xffffffffffffffff 16 .memalign (initialHeap (fun _ => 0) true) =
      some (0, initialHeap (fun _ => 0) true) := by
  have hnull : allocate ⟨0, 0⟩ 0xffffffffffffffff 16 (initialHeap (fun _ => 0) true) =
      some (0, initialHeap (fun _ => 0) true) := rfl
  exact (reportsFailure_iff (.init (fun _ => 0) true) rfl ⟨4, by decide⟩ hnull .memalign).mpr
    (by decide)

/-- 16 bytes at the largest alignment: null comes back, and its record is
written. -/
theorem reportsFailure_largest_alignment :
    allocate ⟨0, 0⟩ 16 0x8000000000000000 (initialHeap (fun _ => 0) true) =
        some (0, initialHeap (fun _ => 0) true) ∧
      AlignedCall.run ⟨0, 0⟩ 16 0x8000000000000000 .memalign (initialHeap (fun _ => 0) true) =
        none :=
  ⟨rfl, rfl⟩

end Caver.Runtime
