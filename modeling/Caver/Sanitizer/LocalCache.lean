import Caver.Core.Outcome
import Caver.Sanitizer.Allocator
import Caver.Sanitizer.LFStack

/-!
# Caver.Sanitizer.LocalCache — the caches of the primary allocator

`SizeClassAllocatorLocalCache` keeps some free chunks of each class at hand, and
moves them to and from the free list of the class in batches.

* A batch is stored in free memory: in its own first chunk, or, where the chunks
  of the class are too small for that, in a chunk of class `batchClass`.
* `PopulateFreeList` carves new chunks, and asks the cache for the chunks that
  hold their batches: `Allocate` calls itself. `depth` is how often it may.
* A run dies of a failed `CHECK`, or because a region is exhausted. Mapping the memory of a
  region is taken to succeed.

Operations on a free list are atomic here, as `push_alone` and `pop_alone` have them.
-/

namespace Caver.Sanitizer.LocalCache

open Caver.Core

/-! ## State -/

/-- `PerClass`. -/
structure PerClass where
  count : ℕ
  maxCount : ℕ
  batch : ℕ → Uptr

/-- The allocator: memory, the regions with their free lists, and the caches. -/
structure State where
  mem : Uptr → Uptr
  regions : Regions
  freeList : ℕ → UInt64
  caches : ℕ → ℕ → PerClass

inductive Death where
  | check
  | outOfMemory
deriving DecidableEq, Repr

abbrev CacheM := Fallible Death State

def CHECK (b : Bool) : CacheM PUnit := require b .check

namespace State

def setMem (s : State) (mem : Uptr → Uptr) : State := { s with mem := mem }

def setRegion (s : State) (c : ℕ) (r : RegionInfo) : State :=
  { s with regions := Function.update s.regions c r }

def setFreeList (s : State) (c : ℕ) (head : UInt64) : State :=
  { s with freeList := Function.update s.freeList c head }

def setPerClass (s : State) (k c : ℕ) (pc : PerClass) : State :=
  { s with caches := Function.update s.caches k (Function.update (s.caches k) c pc) }

end State

/-! ## Batches -/

/-- `kMaxNumCached`. -/
def kMaxNumCached : ℕ := 128

/-- `sizeof(TransferBatch)`: a pointer, a count and the chunks. -/
def sizeofBatch : ℕ := 16 + 8 * kMaxNumCached

/-- `SizeClassRequiresSeparateTransferBatch`. -/
def requiresSeparateBatch (c : ℕ) : Bool :=
  chunkSize c < sizeofBatch - 8 * (kMaxNumCached - maxCached c)

/-- `ClassID(sizeof(Batch))`. -/
def batchClass : ℕ := (classId (UInt64.ofNat sizeofBatch)).toNat

/-- `&b->count`. -/
def countAt (b : Uptr) : Uptr := b + 8

/-- `&b->batch[i]`. -/
def itemAt (b : Uptr) (i : ℕ) : Uptr := b + UInt64.ofNat (16 + 8 * i)

/-- `for (i = 0; i < n; i++) b->batch[i] = f(i)`. -/
def storeItems (b : Uptr) (f : ℕ → Uptr) : ℕ → (Uptr → Uptr) → Uptr → Uptr
  | 0, mem => mem
  | n + 1, mem => Function.update (storeItems b f n mem) (itemAt b n) (f n)

/-- `for (i = 0; i < n; i++) c->batch[i] = b->batch[i]`. -/
def loadItems (b : Uptr) (mem : Uptr → Uptr) : ℕ → (ℕ → Uptr) → ℕ → Uptr
  | 0, batch => batch
  | n + 1, batch => Function.update (loadItems b mem n batch) n (mem (itemAt b n))

/-- The loop of `Drain`: the first chunks go to the batch, and the ones `half` behind
them move up. -/
def drainItems (b : Uptr) (half : ℕ) : ℕ → (Uptr → Uptr) × (ℕ → Uptr) →
    (Uptr → Uptr) × (ℕ → Uptr)
  | 0, mb => mb
  | n + 1, mb =>
    let mb := drainItems b half n mb
    (Function.update mb.1 (itemAt b n) (mb.2 n), Function.update mb.2 n (mb.2 (n + half)))

/-! ## Free lists -/

/-- `region->free_list.Push`. -/
def push (c : ℕ) (b : Uptr) : CacheM PUnit :=
  modify fun s =>
    let (head, mem) := LFStack.Push b (s.freeList c) s.mem
    (s.setMem mem).setFreeList c head

/-- `region->free_list.Pop`. -/
def pop (c : ℕ) : CacheM Uptr := do
  let s ← get
  let (b, head) := LFStack.Pop (s.freeList c) s.mem
  modify fun s => s.setFreeList c head
  return b

/-- `DeallocateBatch`. -/
def deallocateBatch (c : ℕ) (b : Uptr) : CacheM PUnit := do
  CHECK (decide (c < 53))
  CHECK ((← get).mem (countAt b) > 0)
  push c b

/-! ## Growth -/

/-- `region_beg + offset`. -/
def inRegion (c offset : ℕ) : Uptr := UInt64.ofNat (0x600000000000 + c * 2 ^ 37 + offset)

/-- The part of `PopulateFreeList` that maps memory for the next chunks and for all
the records of the chunks to come. -/
def mapRegion (c : ℕ) (r : RegionInfo) : RegionInfo :=
  let size := chunkSize c
  let count := batchCount c
  let endIdx := r.allocatedUser + count * size
  let mappedUser := mapUpTo (endIdx + size) r.mappedUser
  let totalCount := (mappedUser - r.allocatedUser - size) / size / count * count
  let allocatedMeta := r.allocatedMeta + totalCount * kMetadataSize.toNat
  ⟨r.allocatedUser, allocatedMeta, mappedUser, mapUpTo allocatedMeta r.mappedMeta⟩

/-- The loop of `PopulateFreeList`. `newBatch` finds memory for a batch. -/
def carve (newBatch : ℕ → CacheM Uptr) (c : ℕ) : ℕ → ℕ → CacheM Uptr
  | 0, _ => throw .check
  | fuel + 1, begIdx => do
    let size := chunkSize c
    let count := batchCount c
    let b ← newBatch begIdx
    modify fun s => s.setMem (Function.update s.mem (countAt b) (UInt64.ofNat count))
    modify fun s => s.setMem (storeItems b (fun i => inRegion c (begIdx + i * size)) count s.mem)
    modify fun s => s.setRegion c
      { s.regions c with allocatedUser := (s.regions c).allocatedUser + count * size }
    let s ← get
    CHECK (decide ((s.regions c).allocatedUser ≤ (s.regions c).mappedUser))
    let begIdx := begIdx + count * size
    if begIdx + count * size + size > (s.regions c).mappedUser then return b
    else do
      CHECK (s.mem (countAt b) > 0)
      push c b
      carve newBatch c fuel begIdx

/-- Memory for a batch: `allocate` finds a chunk where `own` is too small. -/
def batchMemory (c : ℕ) (allocate own : CacheM Uptr) : CacheM Uptr :=
  if requiresSeparateBatch c then allocate else own

/-- `PopulateFreeList`. -/
def populate (allocate : CacheM Uptr) (c : ℕ) : CacheM Uptr := do
  let b ← pop c
  if b ≠ 0 then return b
  else do
    modify fun s => s.setRegion c (mapRegion c (s.regions c))
    let r := (← get).regions c
    CHECK (decide (r.allocatedUser + batchCount c * chunkSize c ≤ r.mappedUser))
    CHECK (decide (r.allocatedMeta ≤ r.mappedMeta))
    require (decide (r.mappedUser + r.mappedMeta ≤ kRegionSize.toNat)) .outOfMemory
    let newBatch := fun begIdx => batchMemory c allocate (pure (inRegion c begIdx))
    carve newBatch c (r.mappedUser + 1) r.allocatedUser

/-- `AllocateBatch`. -/
def allocateBatch (allocate : CacheM Uptr) (c : ℕ) : CacheM Uptr := do
  CHECK (decide (c < 53))
  let b ← pop c
  if b ≠ 0 then return b else populate allocate c

/-! ## Caches -/

/-- A class with its limit set. -/
def initPerClass (c : ℕ) (pc : PerClass) : PerClass :=
  if c < 53 then ⟨pc.count, 2 * maxCached c, pc.batch⟩ else pc

/-- `InitCache`. -/
def initCache (k : ℕ) : CacheM PUnit :=
  modify fun s =>
    if (s.caches k 1).maxCount ≠ 0 then s
    else { s with
      caches := Function.update s.caches k fun c => initPerClass c (s.caches k c) }

/-- `c->batch[0]`. -/
def firstChunk (k c : ℕ) : CacheM Uptr := do return ((← get).caches k c).batch 0

/-- `Drain` of one class. -/
def drainClass (allocate : CacheM Uptr) (k c : ℕ) : CacheM PUnit := do
  initCache k
  let b ← batchMemory c allocate (firstChunk k c)
  let s ← get
  let pc := s.caches k c
  let cnt := min (pc.maxCount / 2) pc.count
  let (mem, batch) := drainItems b (pc.maxCount / 2) cnt (s.mem, pc.batch)
  modify fun s => (s.setMem (Function.update mem (countAt b) (UInt64.ofNat cnt))).setPerClass k c
    ⟨pc.count - cnt, pc.maxCount, batch⟩
  CHECK ((← get).mem (countAt b) > 0)
  deallocateBatch c b

/-- `if (c->count == c->max_count) Drain(allocator, class_id)`. -/
def drainIfFull (allocate : CacheM Uptr) (k c : ℕ) : CacheM PUnit := do
  let pc := (← get).caches k c
  if pc.count = pc.maxCount then drainClass allocate k c else return ⟨⟩

/-- `Deallocate`, where `allocate` finds memory for a batch. -/
def deallocateWith (allocate : CacheM Uptr) (k c : ℕ) (p : Uptr) : CacheM PUnit := do
  CHECK (decide (c ≠ 0))
  CHECK (decide (c < 53))
  initCache k
  CHECK (decide (((← get).caches k c).maxCount ≠ 0))
  drainIfFull allocate k c
  modify fun s =>
    let pc := s.caches k c
    s.setPerClass k c ⟨pc.count + 1, pc.maxCount, Function.update pc.batch pc.count p⟩

/-- `Refill`. -/
def refill (allocate : CacheM Uptr) (k c : ℕ) : CacheM PUnit := do
  initCache k
  let b ← allocateBatch allocate c
  let s ← get
  let count := (s.mem (countAt b)).toNat
  CHECK (decide (count > 0))
  modify fun s =>
    let pc := s.caches k c
    s.setPerClass k c ⟨count, pc.maxCount, loadItems b s.mem count pc.batch⟩
  if requiresSeparateBatch c then deallocateWith allocate k batchClass b else pure ⟨⟩

/-- `if (c->count == 0) Refill(allocator, class_id)`. -/
def refillIfEmpty (allocate : CacheM Uptr) (k c : ℕ) : CacheM PUnit := do
  if ((← get).caches k c).count = 0 then refill allocate k c else return ⟨⟩

/-- `Allocate`, with `depth` calls in each other. -/
def allocate : ℕ → ℕ → ℕ → CacheM Uptr
  | 0, _, _ => throw .check
  | depth + 1, k, c => do
    CHECK (decide (c ≠ 0))
    CHECK (decide (c < 53))
    refillIfEmpty (allocate depth k batchClass) k c
    modify fun s =>
      let pc := s.caches k c
      s.setPerClass k c ⟨pc.count - 1, pc.maxCount, pc.batch⟩
    let pc := (← get).caches k c
    return pc.batch pc.count

/-- `Deallocate`. -/
def deallocate (k c : ℕ) (p : Uptr) : CacheM PUnit :=
  deallocateWith (allocate 1 k batchClass) k c p

/-- `while (c->count > 0) Drain(allocator, class_id)`. -/
def drainWhile (k c : ℕ) : ℕ → CacheM PUnit
  | 0 => do CHECK (((← get).caches k c).count == 0)
  | fuel + 1 => do
    if ((← get).caches k c).count > 0 then do
      drainClass (allocate 1 k batchClass) k c
      drainWhile k c fuel
    else return ⟨⟩

/-- `Drain` of a whole cache, as `CommitBack` calls it. -/
def drain (k : ℕ) : CacheM PUnit :=
  (List.range 53).forM fun c => do drainWhile k c ((← get).caches k c).count

end Caver.Sanitizer.LocalCache
