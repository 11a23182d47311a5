import Caver.Sanitizer.Allocator
import Caver.Sanitizer.InternalSort

/-!
# Caver.Sanitizer.LargeMmap — the array of large chunks

`LargeMmapAllocator` keeps the headers of its chunks in `chunks_`, in no order until a
lookup sorts it, and every header knows its index. What the kernel maps is a choice, as
in `mmapOrDie`.

* `allocate`, `deallocate`: a chunk is appended; the last chunk takes the place of one
  that is removed.
* `getBlockBegin`: the search through the whole array.
* `getBlockBeginFastLocked`: the search in the sorted array.
* `totalMemoryUsed`: goes through the array, and checks the indices.
-/

namespace Caver.Sanitizer.LargeMmap

open Caver.Core

/-- `LargeMmapAllocator::Header`. -/
structure Header where
  mapBeg : Uptr
  mapSize : Uptr
  size : Uptr
  chunkIdx : ℕ
deriving DecidableEq, Repr

/-- `LargeMmapAllocator::Stats`. -/
structure Stats where
  nAllocs : Uptr
  nFrees : Uptr
  currentlyAllocated : Uptr
  maxAllocated : Uptr
  bySizeLog : ℕ → Uptr

/-- `LargeMmapAllocator`, with the headers in mapped memory. -/
structure State where
  header : Uptr → Option Header
  chunks : ℕ → Uptr
  nChunks : ℕ
  chunksSorted : Bool
  minMmap : Uptr
  maxMmap : Uptr
  stats : Stats
  /-- `common_flags()->allocator_may_return_null`. -/
  mayReturnNull : Bool

abbrev LargeM := Prog State

/-- `Init`. -/
def start (mayReturnNull : Bool) : State :=
  ⟨fun _ => none, fun _ => 0, 0, false, 0, 0, ⟨0, 0, 0, 0, fun _ => 0⟩, mayReturnNull⟩

/-! ## Helpers -/

def getHeader (p : Uptr) : LargeM Uptr := do
  check (isAligned p kPageSize)
  return p - kPageSize

def getUser (h : Uptr) : LargeM Uptr := do
  check (isAligned h kPageSize)
  return h + kPageSize

/-- The fields behind a header pointer. What else memory holds is not modelled: calls for
blocks read headers only. -/
def readHeader (h : Uptr) : LargeM Header := do
  match (← get).header h with
  | none => failure
  | some hd => return hd

def roundUpMapSize (size : Uptr) : Uptr := roundUp size kPageSize + kPageSize

def allocatorReturnNull : LargeM Uptr := do
  check (← get).mayReturnNull
  return 0

/-- `MostSignificantSetBitIndex`, without its check. -/
def mostSignificantSetBitIndex (x : Uptr) : ℕ := Nat.log2 x.toNat

/-- The mappings of the chunks in the array. -/
def State.mapped (s : State) : List LargeChunk :=
  (List.range s.nChunks).filterMap fun i =>
    (s.header (s.chunks i)).map fun hd => ⟨s.chunks i, hd.mapBeg, hd.mapSize, hd.size⟩

/-- `MmapOrDie`. -/
def mmapOrDie (mapBeg mapSize : Uptr) : LargeM Uptr := do
  check (mappable (← get).mapped mapBeg mapSize)
  return mapBeg

/-- `UnmapOrDie`. -/
def unmapOrDie (mapBeg mapSize : Uptr) : LargeM PUnit :=
  modify fun s => { s with
    header := fun x =>
      if mapBeg.toNat ≤ x.toNat ∧ x.toNat < mapBeg.toNat + mapSize.toNat then none
      else s.header x }

/-! ## Allocation -/

/-- What `Allocate` counts. -/
def Stats.allocated (t : Stats) (mapSize : Uptr) : Stats where
  nAllocs := t.nAllocs + 1
  nFrees := t.nFrees
  currentlyAllocated := t.currentlyAllocated + mapSize
  maxAllocated := max t.maxAllocated (t.currentlyAllocated + mapSize)
  bySizeLog := Function.update t.bySizeLog (mostSignificantSetBitIndex mapSize)
    (t.bySizeLog (mostSignificantSetBitIndex mapSize) + 1)

/-- What `Deallocate` counts. -/
def Stats.freed (t : Stats) (mapSize : Uptr) : Stats :=
  { t with nFrees := t.nFrees + 1, currentlyAllocated := t.currentlyAllocated - mapSize }

/-- The chunk is the last one of the array from now on. -/
def addChunk (h mapBeg mapSize size : Uptr) : LargeM PUnit := do
  let idx := (← get).nChunks
  check (idx < kMaxNumChunks)
  modify fun s => { s with
    nChunks := idx + 1
    chunksSorted := false
    header := Function.update s.header h (some ⟨mapBeg, mapSize, size, idx⟩)
    chunks := Function.update s.chunks idx h
    stats := s.stats.allocated mapSize }

/-- `Allocate`. -/
def allocate (mapBeg size alignment : Uptr) : LargeM Uptr := do
  check (isPowerOfTwo alignment)
  let mapSize := roundUpMapSize size
  let mapSize := if alignment > kPageSize then mapSize + alignment else mapSize
  if mapSize < size then allocatorReturnNull
  else do
    let mapBeg ← mmapOrDie mapBeg mapSize
    let mapEnd := mapBeg + mapSize
    let res := mapBeg + kPageSize
    let res :=
      if res &&& (alignment - 1) ≠ 0 then res + (alignment - (res &&& (alignment - 1))) else res
    check (res &&& (alignment - 1) == 0)
    check (res + size ≤ mapEnd)
    let h ← getHeader res
    -- the header is written: outside of the new mapping this faults
    check (mapBeg ≤ h && h.toNat + kPageSize.toNat ≤ mapEnd.toNat)
    check (mapSize != 0 && mostSignificantSetBitIndex mapSize < 64)
    addChunk h mapBeg mapSize size
    return res

/-- The last chunk takes the place of the one at `idx`. -/
def removeChunk (idx : ℕ) (mapSize : Uptr) : LargeM PUnit := do
  modify fun s => { s with chunks := Function.update s.chunks idx (s.chunks (s.nChunks - 1)) }
  let moved := (← get).chunks idx
  let hd ← readHeader moved
  modify fun s => { s with
    header := Function.update s.header moved (some { hd with chunkIdx := idx })
    nChunks := s.nChunks - 1
    chunksSorted := false
    stats := s.stats.freed mapSize }

/-- `Deallocate`. -/
def deallocate (p : Uptr) : LargeM PUnit := do
  let h ← getHeader p
  let hd ← readHeader h
  check ((← get).chunks hd.chunkIdx == h)
  check (hd.chunkIdx < (← get).nChunks)
  removeChunk hd.chunkIdx hd.mapSize
  unmapOrDie hd.mapBeg hd.mapSize

/-! ## Lookups -/

/-- One round of the loop of `GetBlockBegin`. -/
def nearerChunk (p nearest ch : Uptr) : Uptr :=
  if p < ch then nearest
  else if p - ch < p - nearest then ch
  else nearest

/-- `GetBlockBegin`. -/
def getBlockBegin (p : Uptr) : LargeM Uptr := do
  let s ← get
  let nearest := (List.range s.nChunks).foldl (fun near i => nearerChunk p near (s.chunks i)) 0
  if nearest = 0 then return 0
  else do
    let hd ← readHeader nearest
    check (nearest ≥ hd.mapBeg)
    check (nearest < hd.mapBeg + hd.mapSize)
    check (nearest ≤ p)
    if hd.mapBeg + hd.mapSize ≤ p then return 0 else getUser nearest

/-- `chunks_[i]->chunk_idx = i`. -/
def renumber (i : ℕ) : LargeM PUnit := do
  let h := (← get).chunks i
  let hd ← readHeader h
  modify fun s => { s with header := Function.update s.header h (some { hd with chunkIdx := i }) }

/-- The one-time sort of `GetBlockBeginFastLocked`. -/
def sortChunks : LargeM PUnit := do
  if (← get).chunksSorted then return ()
  else do
    let n := (← get).nChunks
    modify fun s => { s with chunks := sortArray s.chunks n }
    (List.range n).forM renumber
    let last := (← get).chunks (n - 1)
    let hd ← readHeader last
    modify fun s => { s with
      chunksSorted := true
      minMmap := s.chunks 0
      maxMmap := last + hd.mapSize }

/-- The loop of `GetBlockBeginFastLocked`, from `beg` to `last`. -/
def lowerBound (chunks : ℕ → Uptr) (p : Uptr) (beg last : ℕ) : ℕ × ℕ :=
  if last - beg ≥ 2 then
    let mid := (beg + last) / 2
    if p < chunks mid then lowerBound chunks p beg (mid - 1)
    else lowerBound chunks p mid last
  else (beg, last)
termination_by last - beg

/-- The search in the sorted array. -/
def findSorted (p : Uptr) : LargeM Uptr := do
  let s ← get
  if p < s.minMmap ∨ p ≥ s.maxMmap then return 0
  else do
    let r := lowerBound s.chunks p 0 (s.nChunks - 1)
    check (!(r.1 < r.2) || r.1 + 1 == r.2)
    let h := s.chunks (if r.1 < r.2 ∧ p ≥ s.chunks r.2 then r.2 else r.1)
    let hd ← readHeader h
    if hd.mapBeg + hd.mapSize ≤ p ∨ p < hd.mapBeg then return 0 else getUser h

/-- `GetBlockBeginFastLocked`. -/
def getBlockBeginFastLocked (p : Uptr) : LargeM Uptr := do
  if (← get).nChunks = 0 then return 0
  else do
    sortChunks
    findSorted p

/-- `GetActuallyAllocatedSize`. -/
def getActuallyAllocatedSize (p : Uptr) : LargeM Uptr := do
  let h ← getHeader p
  let hd ← readHeader h
  return roundUp hd.size kPageSize

/-- `TotalMemoryUsed`. -/
def totalMemoryUsed : LargeM Uptr := do
  let n := (← get).nChunks
  (List.range n).foldlM (fun res i => do
    let h := (← get).chunks i
    let hd ← readHeader h
    check (hd.chunkIdx == i)
    return res + roundUpMapSize hd.size) 0

/-- `ForEachChunk`: what the callback is called with. -/
def forEachChunk : LargeM (List Uptr) := do
  let n := (← get).nChunks
  (List.range n).mapM fun i => do
    let h := (← get).chunks i
    getUser h

end Caver.Sanitizer.LargeMmap
