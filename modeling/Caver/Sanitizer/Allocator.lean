import Caver.Core.Prog
import Caver.Sanitizer.Region
import Mathlib.Logic.Function.Basic

/-!
# Caver.Sanitizer.Allocator — the combined allocator

`CombinedAllocator` over the primary allocator and `LargeMmapAllocator`, as
programs over `HeapState`.

* What the free lists and the kernel choose is an argument (`Choice`): a chunk
  of the class that is not out, and an address for a new mapping. A run with
  another choice does not exist, so it fails.
* A failing program has also failed a `CHECK` or followed a wild pointer.
* `allocate_spec`: a block is a chunk that was free and is large enough, or a
  new mapping outside the primary space.
-/

namespace Caver.Sanitizer

open Caver.Core

/-! ## State -/

/-- A `Header` of `LargeMmapAllocator`, with its own address. -/
structure LargeChunk where
  header : Uptr
  mapBeg : Uptr
  mapSize : Uptr
  size : Uptr
deriving DecidableEq, Repr

/-- The state of the allocator. Memory is read and written by words. -/
structure HeapState where
  mem : Uptr → Uptr
  regions : Regions
  /-- The chunks that are in no free list. -/
  out : Uptr → Bool
  /-- `chunks_`. The lookups do not depend on its order. -/
  large : List LargeChunk
  /-- `common_flags()->allocator_may_return_null`. -/
  mayReturnNull : Bool

abbrev HeapM := Prog HeapState

/-- What is decided outside the code: the chunk that a free list gives out, and
where the kernel maps new memory. -/
structure Choice where
  chunk : ℕ
  mapBeg : Uptr

/-! ## Memory -/

def loadWord (a : Uptr) : HeapM Uptr := do return (← get).mem a

def storeWord (a v : Uptr) : HeapM PUnit :=
  modify fun s => { s with mem := Function.update s.mem a v }

/-- `internal_memset`. -/
def memset (beg v n : Uptr) : HeapM PUnit :=
  modify fun s => { s with
    mem := fun a => if beg.toNat ≤ a.toNat ∧ a.toNat < beg.toNat + n.toNat then v else s.mem a }

/-- `internal_memcpy`. -/
def memcpy (dst src n : Uptr) : HeapM PUnit :=
  modify fun s => { s with
    mem := fun a =>
      if dst.toNat ≤ a.toNat ∧ a.toNat < dst.toNat + n.toNat then s.mem (src + (a - dst))
      else s.mem a }

/-! ## Helpers -/

def kPageSize : Uptr := 4096

theorem kPageSize_toNat : kPageSize.toNat = 4096 := rfl

/-- `AllocatorReturnNull`. -/
def allocatorReturnNull : HeapM Uptr := do
  check (← get).mayReturnNull
  return 0

def isPowerOfTwo (x : Uptr) : Bool := x &&& (x - 1) == 0

def isAligned (a alignment : Uptr) : Bool := a &&& (alignment - 1) == 0

/-- `RoundUpTo` without its check. -/
def roundUp (size boundary : Uptr) : Uptr := (size + boundary - 1) &&& ~~~(boundary - 1)

def roundUpTo (size boundary : Uptr) : HeapM Uptr := do
  check (isPowerOfTwo boundary)
  return roundUp size boundary

/-! ## The primary allocator and its cache -/

/-- `CanAllocate`. -/
def canAllocate (size alignment : Uptr) : Bool := size ≤ kMaxSize && alignment ≤ kMaxSize

/-- `SizeClassAllocatorLocalCache::Allocate`: some carved chunk of the class
that is in a free list. -/
def cacheAllocate (chunk : ℕ) (classId : Uptr) : HeapM Uptr := do
  check (classId != 0 && classId < kNumClasses)
  let s ← get
  let p := UInt64.ofNat (chunkBeg classId.toNat chunk)
  check (decide (Carved s.regions classId.toNat chunk) && !s.out p)
  modify fun s => { s with out := Function.update s.out p true }
  return p

/-- `SizeClassAllocatorLocalCache::Deallocate`. -/
def cacheDeallocate (classId p : Uptr) : HeapM PUnit := do
  check (classId != 0 && classId < kNumClasses)
  modify fun s => { s with out := Function.update s.out p false }

/-- `PopulateFreeList` of a class. -/
def populate (classId : ℕ) : HeapM PUnit := do
  check (0 < classId && classId < 53)
  match populateFreeList classId ((← get).regions classId) with
  | none => failure
  | some r => modify fun s => { s with regions := Function.update s.regions classId r }

/-! ## The secondary allocator -/

/-- A mapping that the kernel can return: page-aligned user space outside the
primary space, and apart from the other mappings. -/
def mappable (large : List LargeChunk) (mapBeg mapSize : Uptr) : Bool :=
  isAligned mapBeg kPageSize && mapBeg != 0 && mapBeg.toNat + mapSize.toNat ≤ 2 ^ 47 &&
    (mapBeg.toNat + mapSize.toNat ≤ 0x600000000000 || 0x680000000000 ≤ mapBeg.toNat) &&
    large.all fun h => mapBeg.toNat + mapSize.toNat ≤ h.mapBeg.toNat ||
      h.mapBeg.toNat + h.mapSize.toNat ≤ mapBeg.toNat

/-- `MmapOrDie`. -/
def mmapOrDie (mapBeg mapSize : Uptr) : HeapM Uptr := do
  check (mappable (← get).large mapBeg mapSize)
  return mapBeg

/-- `GetHeader`. -/
def getHeader (p : Uptr) : HeapM Uptr := do
  check (isAligned p kPageSize)
  return p - kPageSize

/-- `GetUser`. -/
def getUser (header : Uptr) : HeapM Uptr := do
  check (isAligned header kPageSize)
  return header + kPageSize

/-- The fields behind a header pointer. Elsewhere the access faults. -/
def readHeader (header : Uptr) : HeapM LargeChunk := do
  match (← get).large.find? (·.header == header) with
  | none => failure
  | some h => return h

def kMaxNumChunks : ℕ := 2 ^ 18

/-- `LargeMmapAllocator::Allocate`. -/
def secondaryAllocate (mapBeg size alignment : Uptr) : HeapM Uptr := do
  check (isPowerOfTwo alignment)
  let mapSize := roundUp size kPageSize + kPageSize
  let mapSize := if alignment > kPageSize then mapSize + alignment else mapSize
  if mapSize < size then allocatorReturnNull
  else do
    let mapBeg ← mmapOrDie mapBeg mapSize
    let mapEnd := mapBeg + mapSize
    let res := mapBeg + kPageSize
    let res :=
      if res &&& (alignment - 1) ≠ 0 then res + (alignment - (res &&& (alignment - 1))) else res
    check (res &&& (alignment - 1) == 0)
    check (res + size ≤ mapEnd)
    let h ← getHeader res
    -- the header is written: outside of the new mapping this faults
    check (mapBeg ≤ h && h.toNat + kPageSize.toNat ≤ mapEnd.toNat)
    check ((← get).large.length < kMaxNumChunks)
    modify fun s => { s with large := s.large ++ [⟨h, mapBeg, mapSize, size⟩] }
    return res

/-- `LargeMmapAllocator::Deallocate`. -/
def secondaryDeallocate (p : Uptr) : HeapM PUnit := do
  let h ← getHeader p
  let c ← readHeader h
  modify fun s => { s with large := s.large.erase c }

/-- One round of the loop of `LargeMmapAllocator::GetBlockBegin`. -/
def nearer (p nearest : Uptr) (h : LargeChunk) : Uptr :=
  if p < h.header then nearest
  else if p - h.header < p - nearest then h.header
  else nearest

/-- The loop: the last header at or before `p`. -/
def nearestChunk (large : List LargeChunk) (p : Uptr) : Uptr := large.foldl (nearer p) 0

/-- `LargeMmapAllocator::GetBlockBegin`. -/
def secondaryGetBlockBegin (p : Uptr) : HeapM Uptr := do
  let nearest := nearestChunk (← get).large p
  if nearest = 0 then return 0
  else do
    let h ← readHeader nearest
    check (nearest ≥ h.mapBeg && nearest < h.mapBeg + h.mapSize && nearest ≤ p)
    if h.mapBeg + h.mapSize ≤ p then return 0 else getUser nearest

/-- `LargeMmapAllocator::GetMetaData`: behind the header. The header page of
anything but a live chunk is not mapped, and accesses to it fault. -/
def secondaryGetMetaData (p : Uptr) : HeapM Uptr := do
  let h ← getHeader p
  let _ ← readHeader h
  return h + 32

/-- `LargeMmapAllocator::GetActuallyAllocatedSize`. -/
def secondaryGetActuallyAllocatedSize (p : Uptr) : HeapM Uptr := do
  let h ← getHeader p
  let c ← readHeader h
  return roundUp c.size kPageSize

/-! ## The combination -/

/-- `CombinedAllocator::Allocate`; the runtime never asks for cleared memory. -/
def allocate (choice : Choice) (size alignment : Uptr) : HeapM Uptr := do
  let size := if size = 0 then 1 else size
  if size + alignment < size then allocatorReturnNull
  else do
    let size ← if alignment > 8 then roundUpTo size alignment else pure size
    let res ←
      if canAllocate size alignment then cacheAllocate choice.chunk (classId size)
      else secondaryAllocate choice.mapBeg size alignment
    check (!(alignment > 8) || res &&& (alignment - 1) == 0)
    return res

/-- `CombinedAllocator::Deallocate`. -/
def deallocate (p : Uptr) : HeapM PUnit := do
  if p = 0 then return ()
  else if pointerIsMine p then cacheDeallocate (getSizeClass p) p
  else secondaryDeallocate p

/-- `CombinedAllocator::GetBlockBegin`. -/
def combinedGetBlockBegin (p : Uptr) : HeapM Uptr := do
  if pointerIsMine p then return getBlockBegin (← get).regions p
  else secondaryGetBlockBegin p

/-- `CombinedAllocator::GetMetaData`. -/
def combinedGetMetaData (p : Uptr) : HeapM Uptr := do
  if pointerIsMine p then return getMetaData p
  else secondaryGetMetaData p

/-- `CombinedAllocator::GetActuallyAllocatedSize`. -/
def getActuallyAllocatedSize (p : Uptr) : HeapM Uptr := do
  if pointerIsMine p then return classSize (getSizeClass p)
  else secondaryGetActuallyAllocatedSize p

/-! ## What the operations do -/

/-- The header is in its mapping; its page and the user memory behind it are
outside the primary space. -/
structure LargeChunk.Ok (h : LargeChunk) : Prop where
  aligned : isAligned h.header kPageSize = true
  mapped : h.mapBeg ≤ h.header ∧ h.header < h.mapBeg + h.mapSize
  size_pos : 0 < h.size.toNat
  user_space : h.header.toNat + 4096 + h.size.toNat ≤ 2 ^ 47
  outside : h.header.toNat + 4096 + h.size.toNat ≤ 0x600000000000 ∨
    0x680000000000 ≤ h.header.toNat

/-- What an allocation of `size` bytes does when it returns `p`: nothing, or
it takes a free chunk, or it adds a mapping. -/
inductive Allocated (s : HeapState) (size p : Uptr) : HeapState → Prop
  | null : p = 0 → Allocated s size p s
  | chunk (c i : ℕ) : Carved s.regions c i → p.toNat = chunkBeg c i → s.out p = false →
      size.toNat ≤ chunkSize c → Allocated s size p { s with out := Function.update s.out p true }
  | mapping (h : LargeChunk) : h.Ok → p.toNat = h.header.toNat + 4096 →
      size.toNat ≤ h.size.toNat → isAligned p kPageSize = true →
      Allocated s size p { s with large := s.large ++ [h] }

variable {s : HeapState}

theorem wlp_readHeader {Q : LargeChunk → HeapState → Prop} (header : Uptr) :
    wlp (readHeader header) Q s ↔
      ∀ h, s.large.find? (·.header == header) = some h → Q h s := by
  unfold readHeader
  rw [wlp_bind, wlp_get]
  cases s.large.find? (·.header == header) with
  | none => simp
  | some h => simp

theorem readHeader_eval {header : Uptr} {h : LargeChunk}
    (hfind : s.large.find? (fun h => h.header == header) = some h) :
    readHeader header s = some (h, s) := by
  refine eval_of_wp ?_
  unfold readHeader
  rw [wp_bind, wp_get, hfind, wp_pure]
  exact ⟨rfl, rfl⟩

theorem wlp_allocatorReturnNull {Q : Uptr → HeapState → Prop} (h : Q 0 s) :
    wlp allocatorReturnNull Q s := by
  simp only [allocatorReturnNull, wlp_bind, wlp_get, wlp_check, wlp_pure]
  exact fun _ => h

theorem le_roundUp {size b : Uptr} (hb : 0 < b.toNat) (h : size.toNat + b.toNat < 2 ^ 64) :
    size.toNat ≤ (roundUp size b).toNat := by
  have hsum : (size + b - 1).toNat = size.toNat + b.toNat - 1 := by
    rw [UInt64.toNat_sub_of_le, toNat_add_of_lt h, UInt64.toNat_one]
    rw [UInt64.le_iff_toNat_le, toNat_add_of_lt h, UInt64.toNat_one]
    omega
  have hlow : ((size + b - 1) &&& (b - 1)).toNat ≤ b.toNat - 1 := by
    rw [UInt64.toNat_and]
    refine Nat.and_le_right.trans ?_
    rw [UInt64.toNat_sub_of_le, UInt64.toNat_one]
    rw [UInt64.le_iff_toNat_le, UInt64.toNat_one]
    omega
  unfold roundUp
  rw [toNat_and_not, hsum]
  omega

theorem isAligned_iff (a : Uptr) : isAligned a kPageSize = true ↔ a.toNat % 4096 = 0 := by
  unfold isAligned
  rw [beq_iff_eq, ← UInt64.toNat_inj, UInt64.toNat_and]
  show a.toNat &&& (2 ^ 12 - 1) = 0 ↔ a.toNat % 4096 = 0
  rw [Nat.and_two_pow_sub_one_eq_mod]

theorem cacheAllocate_spec (hr : RegionsOk s.regions) (chunk : ℕ) (size : Uptr) (h0 : size ≠ 0)
    (hmax : size ≤ kMaxSize) :
    wlp (cacheAllocate chunk (classId size)) (Allocated s size) s := by
  simp only [cacheAllocate, wlp_bind, wlp_check, wlp_get, wlp_modify, wlp_pure, Bool.and_eq_true,
    Bool.not_eq_true', decide_eq_true_eq]
  rintro - ⟨hcarved, hout⟩
  rcases classId_spec h0 hmax with ⟨hlt, -, hle⟩
  refine .chunk _ chunk hcarved (hcarved.fits hr).chunkBeg_toNat hout ?_
  unfold chunkSize
  rw [UInt64.ofNat_toNat]
  exact UInt64.le_iff_toNat_le.mp hle

theorem roundUp_le {size b : Uptr} (hb : 0 < b.toNat) (h : size.toNat + b.toNat < 2 ^ 64) :
    (roundUp size b).toNat ≤ size.toNat + b.toNat - 1 := by
  have hsum : (size + b - 1).toNat = size.toNat + b.toNat - 1 := by
    rw [UInt64.toNat_sub_of_le, toNat_add_of_lt h, UInt64.toNat_one]
    rw [UInt64.le_iff_toNat_le, toNat_add_of_lt h, UInt64.toNat_one]
    omega
  unfold roundUp
  rw [UInt64.toNat_and, hsum]
  exact Nat.and_le_left

/-- What `isPowerOfTwo` accepts besides powers of two is null. -/
theorem isPowerOfTwo_le {x : Uptr} (h : isPowerOfTwo x = true) : x.toNat ≤ 2 ^ 63 := by
  by_cases h0 : x = 0
  · subst h0
    decide
  have hn : x.toNat ≠ 0 := fun hz => h0 (UInt64.toNat_inj.mp hz)
  have hand : x.toNat &&& (x.toNat - 1) = 0 := by
    unfold isPowerOfTwo at h
    rw [beq_iff_eq, ← UInt64.toNat_inj, UInt64.toNat_and, UInt64.toNat_sub_of_le,
      UInt64.toNat_one] at h
    · exact h
    · rw [UInt64.le_iff_toNat_le, UInt64.toNat_one]
      omega
  rcases (Nat.and_sub_one_eq_zero_iff_isPowerOfTwo hn).mp hand with ⟨k, hk⟩
  have hlt := x.toNat_lt
  rw [hk] at hlt ⊢
  have hk64 : k < 64 := (Nat.pow_lt_pow_iff_right (by decide)).mp hlt
  exact Nat.pow_le_pow_right (by decide) (Nat.le_of_lt_succ hk64)

/-- The alignment step moves an address by less than the alignment. -/
theorem alignStep_bounds {x a : Uptr} (ha : a ≠ 0) (h : x.toNat + a.toNat < 2 ^ 64) {r : Uptr}
    (hr : (if x &&& (a - 1) ≠ 0 then x + (a - (x &&& (a - 1))) else x) = r) :
    r = x ∨ x.toNat < r.toNat ∧ r.toNat < x.toNat + a.toNat := by
  have ha' : 1 ≤ a.toNat := Nat.one_le_iff_ne_zero.mpr fun hz => ha (UInt64.toNat_inj.mp hz)
  split at hr
  · next hne =>
    right
    obtain ⟨low, hlow⟩ : ∃ n, (x &&& (a - 1)) = n := ⟨_, rfl⟩
    have hlt : low.toNat ≤ a.toNat - 1 := by
      rw [← hlow, UInt64.toNat_and]
      refine Nat.and_le_right.trans ?_
      rw [UInt64.toNat_sub_of_le, UInt64.toNat_one]
      rwa [UInt64.le_iff_toNat_le, UInt64.toNat_one]
    have hpos : 0 < low.toNat := by
      refine Nat.pos_of_ne_zero fun hz => hne ?_
      rw [hlow]
      exact UInt64.toNat_inj.mp hz
    have hsub : (a - low).toNat = a.toNat - low.toNat := by
      rw [UInt64.toNat_sub_of_le]
      rw [UInt64.le_iff_toNat_le]
      omega
    rw [← hr, hlow, toNat_add_of_lt (by omega), hsub]
    omega
  · exact Or.inl hr.symm

/-- At alignment 0 the step leads to the null pointer. -/
theorem alignStep_zero {x r : Uptr}
    (hr : (if x &&& (0 - 1) ≠ 0 then x + (0 - (x &&& (0 - 1))) else x) = r) : r = 0 := by
  have hand : x &&& (0 - 1) = x := by
    rw [show (0 - 1 : Uptr) = -1 by decide]
    exact UInt64.and_neg_one
  rw [hand] at hr
  split at hr
  · rw [← hr, UInt64.zero_sub, UInt64.add_right_neg]
  · next h0 =>
    rw [ne_eq, not_not] at h0
    rw [← hr, h0]

/-- The mapping that `LargeMmapAllocator` has made for a block of `size` bytes
at `p`: a page with the header, and behind it the pages of the block. -/
structure MappedFor (s : HeapState) (size p : Uptr) (h : LargeChunk) : Prop where
  size_eq : h.size = size
  user : p.toNat = h.header.toNat + 4096
  page : isAligned p kPageSize = true
  header : h.mapBeg.toNat ≤ h.header.toNat
  rounded : size.toNat ≤ (roundUp size kPageSize).toNat
  pages : p.toNat + (roundUp size kPageSize).toNat ≤ h.mapBeg.toNat + h.mapSize.toNat
  mappable : mappable s.large h.mapBeg h.mapSize = true

/-- `map_size`: the pages of the block, one for the header, and room for the
alignment. -/
def mapSizeFor (size alignment : Uptr) : Uptr :=
  if alignment > kPageSize then roundUp size kPageSize + kPageSize + alignment
  else roundUp size kPageSize + kPageSize

theorem secondaryAllocate_mapped (mapBeg size alignment : Uptr) :
    wlp (secondaryAllocate mapBeg size alignment)
      (fun p s' => (p = 0 ∧ s' = s ∧ mapSizeFor size alignment < size) ∨
        ∃ h, MappedFor s size p h ∧ s' = { s with large := s.large ++ [h] }) s := by
  simp only [secondaryAllocate, wlp_bind, wlp_check, wlp_get, wlp_modify, wlp_pure, wlp_ite,
    mmapOrDie, getHeader]
  intro hpow
  -- room for the header page, and for the alignment
  obtain ⟨mapSize, hmapSize⟩ : ∃ n, (if alignment > kPageSize then
    roundUp size kPageSize + kPageSize + alignment else roundUp size kPageSize + kPageSize) = n :=
    ⟨_, rfl⟩
  rw [mapSizeFor, hmapSize]
  split
  · next hsize => exact wlp_allocatorReturnNull (Or.inl ⟨rfl, rfl, hsize⟩)
  · next hsize =>
    intro hmap
    have hk := kPageSize_toNat
    have hmap' := hmap
    simp only [Sanitizer.mappable, Bool.and_eq_true, Bool.or_eq_true, decide_eq_true_eq,
      isAligned_iff] at hmap'
    rcases hmap' with ⟨⟨⟨⟨hbegpage, -⟩, huser⟩, -⟩, -⟩
    have hend : (mapBeg + mapSize).toNat = mapBeg.toNat + mapSize.toNat :=
      toNat_add_of_lt (by omega)
    -- what the kernel maps is too small for any of the sums to wrap
    have hsize' := UInt64.le_iff_toNat_le.mp (UInt64.not_lt.mp hsize)
    have hpos : 0 < kPageSize.toNat := by decide
    have hle : size.toNat ≤ (roundUp size kPageSize).toNat := le_roundUp hpos (by omega)
    have hge : (roundUp size kPageSize).toNat ≤ size.toNat + kPageSize.toNat - 1 :=
      roundUp_le hpos (by omega)
    have hfirst : (mapBeg + kPageSize).toNat = mapBeg.toNat + 4096 :=
      toNat_add_of_lt (by omega)
    -- the first aligned address after the header page
    obtain ⟨res, hres⟩ : ∃ r, (if mapBeg + kPageSize &&& (alignment - 1) ≠ 0 then
        mapBeg + kPageSize + (alignment - (mapBeg + kPageSize &&& (alignment - 1)))
      else mapBeg + kPageSize) = r := ⟨_, rfl⟩
    rw [hres]
    intro _ _ hpage hheader _
    simp only [Bool.and_eq_true, decide_eq_true_eq, hk, hend, UInt64.le_iff_toNat_le] at hheader
    rcases hheader with ⟨hlo, hhi⟩
    have hsub : (res - kPageSize).toNat + 4096 = res.toNat := by
      have hlt := res.toNat_lt
      rw [UInt64.toNat_sub, hk] at hhi ⊢
      omega
    refine Or.inr ⟨⟨res - kPageSize, mapBeg, mapSize, size⟩,
      ⟨rfl, hsub.symm, hpage, hlo, hle, ?_, hmap⟩, rfl⟩
    show res.toNat + (roundUp size kPageSize).toNat ≤ mapBeg.toNat + mapSize.toNat
    rw [isAligned_iff] at hpage
    by_cases ha : alignment = 0
    · -- the header of the null pointer is not in the mapping
      subst ha
      have hres0 := alignStep_zero hres
      rw [hres0, UInt64.toNat_zero] at hsub
      omega
    have hpow' := isPowerOfTwo_le hpow
    have hstep := alignStep_bounds ha (by omega) hres
    by_cases hbig : alignment > kPageSize
    · rw [if_pos hbig] at hmapSize
      have hsum : mapSize.toNat = (roundUp size kPageSize).toNat + 4096 + alignment.toNat := by
        rw [← hmapSize, toNat_add_of_lt, toNat_add_of_lt, hk]
        · omega
        · rw [toNat_add_of_lt, hk]
          · omega
          · omega
      rcases hstep with hstep | ⟨-, hstep⟩
      · rw [hstep, hfirst]
        omega
      · omega
    · -- the address is already aligned, since the step is less than a page
      rw [if_neg hbig] at hmapSize
      have hsmall : alignment.toNat ≤ 4096 := UInt64.le_iff_toNat_le.mp (UInt64.not_lt.mp hbig)
      have hsum : mapSize.toNat = (roundUp size kPageSize).toNat + 4096 := by
        rw [← hmapSize, toNat_add_of_lt, hk]
        omega
      rcases hstep with hstep | ⟨hlt, hlt'⟩
      · rw [hstep, hfirst]
        omega
      · omega

/-- The header of a new mapping. -/
theorem MappedFor.ok {size p : Uptr} {h : LargeChunk} (hm : MappedFor s size p h) (h0 : size ≠ 0) :
    h.Ok := by
  have huser := hm.user
  have hpages := hm.pages
  have hrounded := hm.rounded
  have hheader := hm.header
  have hpage := hm.page
  have hmap := hm.mappable
  have hpos : 0 < size.toNat := Nat.pos_of_ne_zero fun hz => h0 (UInt64.toNat_inj.mp hz)
  simp only [Sanitizer.mappable, Bool.and_eq_true, Bool.or_eq_true, decide_eq_true_eq] at hmap
  rcases hmap with ⟨⟨⟨-, hend⟩, hout⟩, -⟩
  have hsum : (h.mapBeg + h.mapSize).toNat = h.mapBeg.toNat + h.mapSize.toNat :=
    toNat_add_of_lt (by omega)
  rw [isAligned_iff] at hpage
  refine ⟨?_, ⟨UInt64.le_iff_toNat_le.mpr hheader, ?_⟩, ?_, ?_, ?_⟩
  · rw [isAligned_iff]
    omega
  · rw [UInt64.lt_iff_toNat_lt, hsum]
    omega
  all_goals
    rw [hm.size_eq]
    omega

theorem secondaryAllocate_spec (mapBeg : Uptr) {size : Uptr} (h0 : size ≠ 0) (alignment : Uptr) :
    wlp (secondaryAllocate mapBeg size alignment) (Allocated s size) s := by
  refine (secondaryAllocate_mapped mapBeg size alignment).mono ?_
  rintro p s' (⟨hp, rfl, -⟩ | ⟨h, hm, rfl⟩)
  · exact .null hp
  · exact .mapping h (hm.ok h0) hm.user (by rw [hm.size_eq]) hm.page

/-- A block for a larger size is one for the size. -/
theorem Allocated.mono {size size' p : Uptr} {s' : HeapState} (hle : size.toNat ≤ size'.toNat)
    (h : Allocated s size' p s') : Allocated s size p s' := by
  cases h with
  | null h => exact .null h
  | chunk c i hcarved hp hout hsize => exact .chunk c i hcarved hp hout (hle.trans hsize)
  | mapping h hok hp hsize hpage => exact .mapping h hok hp (hle.trans hsize) hpage

/-- An allocation is served by one of the two allocators, for a size that is
not less than the one asked for; `CHECK` decides on large alignments. -/
theorem allocate_rule {Q : Uptr → HeapState → Prop} {choice : Choice} {size alignment : Uptr}
    (hnull : 2 ^ 64 ≤ size.toNat + 1 + alignment.toNat → Q 0 s)
    (hcache : ∀ n, n ≠ 0 → size.toNat ≤ n.toNat → n ≤ kMaxSize →
      wlp (cacheAllocate choice.chunk (classId n)) Q s)
    (hsecondary : ∀ n, n ≠ 0 → size.toNat ≤ n.toNat →
      n.toNat ≤ size.toNat + 1 + alignment.toNat →
      wlp (secondaryAllocate choice.mapBeg n alignment) Q s) :
    wlp (allocate choice size alignment)
      (fun p s' => Q p s' ∧ (alignment > 8 → p &&& (alignment - 1) = 0)) s := by
  obtain ⟨n, hn⟩ : ∃ n, (if size = 0 then 1 else size) = n := ⟨_, rfl⟩
  have hn0 : n ≠ 0 ∧ size.toNat ≤ n.toNat ∧ n.toNat ≤ size.toNat + 1 := by
    rw [← hn]
    split
    · next h => simp [h]
    · next h => exact ⟨h, le_rfl, Nat.le_succ _⟩
  -- whatever the rounded size is, it is served for `size`
  have hserve : ∀ m : Uptr, m ≠ 0 → size.toNat ≤ m.toNat →
      m.toNat ≤ size.toNat + 1 + alignment.toNat →
      wlp (if canAllocate m alignment then cacheAllocate choice.chunk (classId m)
        else secondaryAllocate choice.mapBeg m alignment) Q s := by
    intro m hm hle hge
    rw [wlp_ite]
    split
    · next hcan =>
      simp only [canAllocate, Bool.and_eq_true, decide_eq_true_eq] at hcan
      exact hcache m hm hle hcan.1
    · exact hsecondary m hm hle hge
  -- the last check, as it is written
  have hcheck : ∀ p : Uptr, (!decide (alignment > 8) || p &&& (alignment - 1) == 0) = true →
      alignment > 8 → p &&& (alignment - 1) = 0 := by
    intro p h hal
    simpa [hal] using h
  simp only [allocate, wlp_bind, wlp_check, wlp_pure, wlp_ite, hn, roundUpTo]
  split
  · next hwrap =>
    have hover : 2 ^ 64 ≤ size.toNat + 1 + alignment.toNat := by
      rw [UInt64.lt_iff_toNat_lt, UInt64.toNat_add] at hwrap
      have h1 := n.toNat_lt
      have h2 := alignment.toNat_lt
      omega
    refine wlp_allocatorReturnNull ⟨hnull hover, ?_⟩
    intro _
    exact UInt64.zero_and
  · next hwrap =>
    have hsum : n.toNat + alignment.toNat < 2 ^ 64 := by
      rw [UInt64.lt_iff_toNat_lt, UInt64.toNat_add] at hwrap
      have h1 := n.toNat_lt
      have h2 := alignment.toNat_lt
      omega
    split
    · next hal =>
      have hpos : 0 < alignment.toNat := by
        have h8 : (8 : Uptr).toNat = 8 := rfl
        rw [gt_iff_lt, UInt64.lt_iff_toNat_lt, h8] at hal
        omega
      have hround := le_roundUp hpos hsum
      have hround' := roundUp_le hpos hsum
      intro _
      rw [← wlp_ite]
      refine (hserve _ ?_ (hn0.2.1.trans hround) (by omega)).mono fun p _ h hp => ⟨h, hcheck p hp⟩
      intro hz
      rw [hz] at hround
      exact hn0.1 (UInt64.toNat_inj.mp (Nat.le_zero.mp hround))
    · rw [← wlp_ite]
      exact (hserve _ hn0.1 hn0.2.1 (by omega)).mono fun p _ h hp => ⟨h, hcheck p hp⟩

theorem allocate_spec (hr : RegionsOk s.regions) (choice : Choice) (size alignment : Uptr) :
    wlp (allocate choice size alignment) (Allocated s size) s := by
  have hrule : wlp (allocate choice size alignment)
      (fun p s' => Allocated s size p s' ∧ (alignment > 8 → p &&& (alignment - 1) = 0)) s := by
    refine allocate_rule (fun _ => .null rfl) ?_ ?_
    · intro n hn hle hmax
      exact (cacheAllocate_spec hr _ _ hn hmax).mono fun _ _ h => h.mono hle
    · intro n hn hle _
      exact (secondaryAllocate_spec _ hn _).mono fun _ _ h => h.mono hle
  exact hrule.mono fun _ _ h => h.1

/-- The primary allocator has no chunks for more than `kMaxSize` bytes. -/
theorem chunkSize_le_max {c : ℕ} (hc : c < 53) : chunkSize c ≤ 2 ^ 17 := by
  have hall : ∀ c : Fin 53, chunkSize c.val ≤ 2 ^ 17 := by decide
  exact hall ⟨c, hc⟩

/-- A block for more than that is a mapping, outside the primary space. -/
theorem Allocated.foreign {size p : Uptr} {s' : HeapState} (h : Allocated s size p s')
    (hbig : 2 ^ 17 < size.toNat) (h0 : p ≠ 0) {q : Uptr} (hlo : p.toNat ≤ q.toNat)
    (hhi : q.toNat < p.toNat + size.toNat) : pointerIsMine q = false := by
  cases h with
  | null hp => exact absurd hp h0
  | chunk c i hcarved hp hout hsize =>
    have hmax := chunkSize_le_max hcarved.2.1
    omega
  | mapping h hok hp hsize hpage =>
    have hout := hok.outside
    rw [← Bool.not_eq_true, pointerIsMine_iff]
    omega

/-- Blocks end in user space. -/
theorem Allocated.user_space (hr : RegionsOk s.regions) {size p : Uptr} {s' : HeapState}
    (h : Allocated s size p s') (h0 : p ≠ 0) : p.toNat + size.toNat ≤ 2 ^ 47 := by
  cases h with
  | null hp => exact absurd hp h0
  | chunk c i hcarved hp hout hsize =>
    rcases hcarved.fits hr with ⟨-, hc, hend⟩
    rw [Nat.succ_mul] at hend
    unfold chunkBeg at hp
    omega
  | mapping h hok hp hsize hpage =>
    have huser := hok.user_space
    omega

/-- Growth of a region touches nothing but the regions, and what was carved stays carved. -/
theorem populate_spec (hr : RegionsOk s.regions) (c : ℕ) :
    wlp (populate c) (fun _ s' => (∃ regions, s' = { s with regions := regions }) ∧
      RegionsOk s'.regions ∧ ∀ d i, Carved s.regions d i → Carved s'.regions d i) s := by
  simp only [populate, wlp_bind, wlp_check, wlp_get, Bool.and_eq_true, decide_eq_true_eq]
  intro hclass
  rcases hclass with ⟨h0, hc⟩
  cases hpop : populateFreeList c (s.regions c) with
  | none => exact wlp_failure
  | some r =>
    simp only [wlp_modify]
    rcases populateFreeList_ok h0 hc (hr c h0 hc) hpop with ⟨hok, huser, -, -⟩
    refine ⟨⟨_, rfl⟩, ?_, ?_⟩
    · intro d hd0 hd
      by_cases hdc : d = c
      · subst hdc
        simpa using hok
      · simpa [Function.update_of_ne hdc] using hr d hd0 hd
    · intro d i hcarved
      rcases hcarved with ⟨hd0, hd, hi⟩
      refine ⟨hd0, hd, ?_⟩
      by_cases hdc : d = c
      · subst hdc
        rw [Function.update_self]
        omega
      · rw [Function.update_of_ne hdc]
        exact hi

theorem cacheAllocate_mine (hr : RegionsOk s.regions) (chunk : ℕ) (classId : Uptr) :
    wlp (cacheAllocate chunk classId) (fun p _ => pointerIsMine p = true) s := by
  simp only [cacheAllocate, wlp_bind, wlp_check, wlp_get, wlp_modify, wlp_pure, Bool.and_eq_true,
    decide_eq_true_eq]
  rintro - ⟨hcarved, -⟩
  have hfit := hcarved.fits hr
  exact ((hfit.start hfit.chunkBeg_toNat).locate hfit).1

/-- Where nothing wraps, there is a block. -/
theorem allocate_ne_zero (hr : RegionsOk s.regions) (choice : Choice) {size alignment : Uptr}
    (hsize : size.toNat ≤ 2 ^ 33) (hal : alignment.toNat ≤ 2 ^ 62) :
    wlp (allocate choice size alignment) (fun p _ => p ≠ 0) s := by
  have hrule : wlp (allocate choice size alignment)
      (fun p _ => p ≠ 0 ∧ (alignment > 8 → p &&& (alignment - 1) = 0)) s := by
    refine allocate_rule (fun hover => ?_) ?_ ?_
    · omega
    · intro n hn hle hmax
      refine (cacheAllocate_mine hr _ _).mono ?_
      intro p _ hm h0
      rw [h0] at hm
      exact absurd hm (by decide)
    · intro n hn hle hge
      refine (secondaryAllocate_mapped _ _ _).mono ?_
      rintro p s' (⟨-, -, hsmall⟩ | ⟨h, hm, -⟩)
      · -- the mapping is as large as the block
        have hk := kPageSize_toNat
        have hround : n.toNat ≤ (roundUp n kPageSize).toNat := le_roundUp (by decide) (by omega)
        have hround' : (roundUp n kPageSize).toNat ≤ n.toNat + 4095 :=
          roundUp_le (by decide) (by omega)
        have hpage : (roundUp n kPageSize + kPageSize).toNat =
            (roundUp n kPageSize).toNat + 4096 := toNat_add_of_lt (by omega)
        have hfull : (roundUp n kPageSize + kPageSize + alignment).toNat =
            (roundUp n kPageSize).toNat + 4096 + alignment.toNat := by
          rw [toNat_add_of_lt, hpage]
          omega
        unfold mapSizeFor at hsmall
        split at hsmall
        · rw [UInt64.lt_iff_toNat_lt, hfull] at hsmall
          omega
        · rw [UInt64.lt_iff_toNat_lt, hpage] at hsmall
          omega
      · intro h0
        have huser := hm.user
        rw [h0, UInt64.toNat_zero] at huser
        omega
  exact hrule.mono fun _ _ h => h.1

/-- The primary allocator serves whatever it can. -/
theorem allocate_mine (hr : RegionsOk s.regions) (choice : Choice) {size : Uptr}
    (hsize : size.toNat ≤ 2 ^ 17) :
    wlp (allocate choice size 8) (fun p _ => p ≠ 0 → pointerIsMine p = true) s := by
  obtain ⟨n, hn⟩ : ∃ n, (if size = 0 then 1 else size) = n := ⟨_, rfl⟩
  have hmax : n ≤ kMaxSize := by
    rw [← hn]
    split
    · decide
    · exact UInt64.le_iff_toNat_le.mpr hsize
  have hcan : canAllocate n 8 = true := by
    have h8 : (8 : Uptr) ≤ kMaxSize := by decide
    simp [canAllocate, hmax, h8]
  have hnot : ¬ (8 : Uptr) > 8 := by decide
  simp only [allocate, wlp_bind, wlp_check, wlp_pure, wlp_ite, hn, if_neg hnot, hcan, if_true]
  split
  · exact wlp_allocatorReturnNull fun h0 => absurd rfl h0
  · exact (cacheAllocate_mine hr _ _).mono fun p s' hm _ _ => hm

/-- A block of the primary allocator is a chunk that is large enough. -/
theorem Allocated.le_classSize (hr : RegionsOk s.regions) {size p : Uptr} {s' : HeapState}
    (h : Allocated s size p s') (hm : pointerIsMine p = true) :
    size.toNat ≤ (classSize (getSizeClass p)).toNat := by
  cases h with
  | null hp =>
    subst hp
    exact absurd hm (by decide)
  | chunk c i hcarved hp hout hsize =>
    have hfit := hcarved.fits hr
    rcases (hfit.start hp).locate hfit with ⟨-, hc, -⟩
    rwa [classSize_getSizeClass, hc]
  | mapping h hok hp hsize hpage =>
    have hout := hok.outside
    rw [pointerIsMine_iff] at hm
    omega

/-- Small blocks are chunks that are large enough, others are outside the primary space. -/
structure BlockSpace (p size : Uptr) : Prop where
  user : p.toNat + size.toNat ≤ 2 ^ 47
  small : size.toNat ≤ 2 ^ 17 → pointerIsMine p = true ∧
    size.toNat ≤ (classSize (getSizeClass p)).toNat
  large : 2 ^ 17 < size.toNat → ∀ q : Uptr, p.toNat ≤ q.toNat → q.toNat < p.toNat + size.toNat →
    pointerIsMine q = false

/-- Where a block of the default alignment is. -/
theorem allocate_space (hr : RegionsOk s.regions) (choice : Choice) (size : Uptr) :
    wlp (allocate choice size 8) (fun p _ => p ≠ 0 → BlockSpace p size) s := by
  intro p s' hrun h0
  have hspec := (allocate_spec hr choice size 8).elim hrun
  refine ⟨hspec.user_space hr h0, ?_, ?_⟩
  · intro hle
    have hm := (allocate_mine hr choice hle).elim hrun h0
    exact ⟨hm, hspec.le_classSize hr hm⟩
  · intro hbig q hlo hhi
    exact hspec.foreign hbig h0 hlo hhi

/-! ## Lookups -/

/-- A header that is not after the pointer is the new candidate if it is not before
the old one. -/
theorem nearer_toNat {p n : Uptr} (hn : n.toNat ≤ p.toNat) (x : LargeChunk) :
    (nearer p n x).toNat =
      if p.toNat < x.header.toNat then n.toNat else max n.toNat x.header.toNat := by
  have hsub : ∀ y : Uptr, y.toNat ≤ p.toNat → (p - y).toNat = p.toNat - y.toNat := by
    intro y hy
    rw [UInt64.toNat_sub_of_le]
    exact UInt64.le_iff_toNat_le.mpr hy
  unfold nearer
  by_cases hx : p.toNat < x.header.toNat
  · rw [if_pos hx, if_pos (UInt64.lt_iff_toNat_lt.mpr hx)]
  · have hnp := hsub n hn
    have hxp := hsub x.header (by omega)
    rw [if_neg hx, if_neg (fun h => hx (UInt64.lt_iff_toNat_lt.mp h))]
    split
    · next hnear =>
      rw [UInt64.lt_iff_toNat_lt] at hnear
      omega
    · next hfar =>
      rw [UInt64.lt_iff_toNat_lt] at hfar
      omega

/-- The nearest header is one of the chunks', at or before the pointer. -/
theorem nearestChunk_mem (large : List LargeChunk) (p : Uptr) :
    nearestChunk large p = 0 ∨
      ∃ h ∈ large, nearestChunk large p = h.header ∧ h.header ≤ p := by
  -- the candidate so far is null or a header at or before the pointer
  have hfold : ∀ (l : List LargeChunk) (n : Uptr), (∀ h ∈ l, h ∈ large) →
      (n = 0 ∨ ∃ h ∈ large, n = h.header ∧ h.header ≤ p) →
      l.foldl (nearer p) n = 0 ∨
        ∃ h ∈ large, l.foldl (nearer p) n = h.header ∧ h.header ≤ p := by
    intro l
    induction l with
    | nil => exact fun n _ hn => hn
    | cons h l ih =>
      intro n hsub hn
      refine ih _ (fun h' hh' => hsub h' (List.mem_cons_of_mem _ hh')) ?_
      unfold nearer
      split
      · exact hn
      · next hle =>
        split
        · exact Or.inr ⟨h, hsub h List.mem_cons_self, rfl, UInt64.not_lt.mp hle⟩
        · exact hn
  exact hfold large 0 (fun _ hh => hh) (Or.inl rfl)

/-- The block of a pointer outside the primary allocator: none, or the user
memory of a large chunk. -/
theorem secondaryGetBlockBegin_spec (hl : ∀ h ∈ s.large, h.Ok) (p : Uptr) :
    wp (secondaryGetBlockBegin p)
      (fun beg s' => s' = s ∧ (beg = 0 ∨ ∃ h ∈ s.large, beg = h.header + kPageSize)) s := by
  simp only [secondaryGetBlockBegin, wp_bind, wp_get, wp_ite, wp_pure]
  split
  · simp
  · next hne =>
    obtain hz | ⟨h₀, hmem, hn, hle⟩ := nearestChunk_mem s.large p
    · exact absurd hz hne
    rw [hn]
    obtain ⟨h, hfind⟩ : ∃ h, s.large.find? (fun h => h.header == h₀.header) = some h := by
      rw [← Option.isSome_iff_exists, List.find?_isSome]
      exact ⟨h₀, hmem, beq_self_eq_true _⟩
    have hh : h.header = h₀.header := by
      simpa using List.find?_some hfind
    have hmem' := List.mem_of_find?_eq_some hfind
    -- the header that is read is the nearest one's
    have hok := hl h hmem'
    rw [wp_eval (readHeader_eval hfind), ← hh]
    simp only [wp_check, getUser, wp_bind, wp_pure, hok.aligned, true_and]
    constructor
    · simp only [Bool.and_eq_true, decide_eq_true_eq, ge_iff_le]
      exact ⟨hok.mapped, hh ▸ hle⟩
    · split
      · exact Or.inl trivial
      · exact Or.inr ⟨h, hmem', rfl⟩

end Caver.Sanitizer
