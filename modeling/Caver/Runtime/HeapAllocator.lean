import Caver.Sanitizer.Allocator

/-!
# Caver.Runtime.HeapAllocator — allocation and its metadata

`cver_allocator.cc`, and the interceptors of `cver_malloc.cc` and
`cver_new_delete.cc` over it.

* Every block has a `Metadata` record: the size last requested for it, and the
  type table and number of elements registered by `handleNew`.
* `recordOf`: the record of a chunk, in the state's memory. What each function
  does to the records is stated with `HeapState.setRecord`.
-/

namespace Caver.Runtime

open Caver.Core Caver.Sanitizer

/-! ## Flags and records -/

/-- The run-time flags that the modelled functions read. -/
structure Flags where
  noCheck : Bool := false
  noCache : Bool := false
  noGlobal : Bool := false
  noStack : Bool := false
  noComposition : Bool := false
  noReport : Bool := false
  dieOnError : Bool := false
  noHandleNew : Bool := false
  noHandleCast : Bool := false
  noCastValidity : Bool := false
  emptyInherit : Bool := false
  nullify : Bool := false
deriving DecidableEq, Repr

/-- A metadata record. -/
structure Metadata where
  requestedSize : Uptr
  typeTable : Uptr
  numElements : Uptr
deriving DecidableEq, Repr

/-- The record at `m`. -/
def loadMetadata (mem : Uptr → Uptr) (m : Uptr) : Metadata := ⟨mem m, mem (m + 8), mem (m + 16)⟩

def storeMetadata (m : Uptr) (md : Metadata) : HeapM PUnit := do
  storeWord m md.requestedSize
  storeWord (m + 8) md.typeTable
  storeWord (m + 16) md.numElements

/-! ## Allocation -/

def kMaxAllowedMallocSize : Uptr := (8 : Uptr) <<< 30

theorem kMaxAllowedMallocSize_toNat : kMaxAllowedMallocSize.toNat = 2 ^ 33 := by decide

def cverAllocate (choice : Choice) (size alignment : Uptr) (zeroise : Bool) : HeapM Uptr := do
  if size > kMaxAllowedMallocSize then allocatorReturnNull
  else do
    let allocated ← allocate choice size alignment
    let m ← combinedGetMetaData allocated
    storeMetadata m ⟨size, 0, 0⟩
    if zeroise then memset allocated 0 size
    return allocated

def cverDeallocate (p : Uptr) : HeapM PUnit := do
  check (p != 0)
  let beg ← combinedGetBlockBegin p
  if beg ≠ p then return ()
  else do
    let m ← combinedGetMetaData p
    storeMetadata m ⟨0, 0, 0⟩
    deallocate p

def cverReallocate (choice : Choice) (oldP newSize alignment : Uptr) (zeroise : Bool) :
    HeapM Uptr := do
  if oldP = 0 then cverAllocate choice newSize alignment zeroise
  else if newSize = 0 then do
    cverDeallocate oldP
    return 0
  else do
    let oldBeg ← combinedGetBlockBegin oldP
    if oldBeg ≠ oldP then return 0
    else do
      let m ← combinedGetMetaData oldP
      let oldSize ← loadWord m
      let actuallyAllocatedSize ← getActuallyAllocatedSize oldP
      if newSize ≤ actuallyAllocatedSize then do
        storeWord m newSize
        return oldP
      else do
        let memcpySize := if newSize < oldSize then newSize else oldSize
        let newP ← cverAllocate choice newSize alignment zeroise
        if newP ≠ 0 then do
          memcpy newP oldP memcpySize
          cverDeallocate oldP
          return newP
        else return newP

/-! ## The interceptors -/

/-- `CallocShouldReturnNullDueToOverflow`. -/
def callocShouldReturnNullDueToOverflow (size n : Uptr) : Bool :=
  if size = 0 then false else (0 - 1) / size < n

def malloc (choice : Choice) (size : Uptr) : HeapM Uptr := cverReallocate choice 0 size 8 false

def calloc (choice : Choice) (nmemb size : Uptr) : HeapM Uptr := do
  if callocShouldReturnNullDueToOverflow size nmemb then allocatorReturnNull
  else cverReallocate choice 0 (nmemb * size) 8 true

def realloc (choice : Choice) (ptr size : Uptr) : HeapM Uptr :=
  cverReallocate choice ptr size 8 false

def memalign (choice : Choice) (boundary size : Uptr) : HeapM Uptr := do
  check (boundary &&& (boundary - 1) == 0)
  cverReallocate choice 0 size boundary false

def free (ptr : Uptr) : HeapM PUnit := do
  if ptr = 0 then return () else cverDeallocate ptr

def operatorNew (choice : Choice) (size : Uptr) : HeapM Uptr :=
  cverReallocate choice 0 size 8 false

def operatorDelete (ptr : Uptr) : HeapM PUnit := do
  if ptr ≠ 0 then cverDeallocate ptr

/-! ## Type tables -/

/-- `GetCverMetaData`: null where the primary allocator has no block. -/
def getCverMetaData (p : Uptr) : HeapM Uptr := do
  if p = 0 then return 0
  else do
    let beg := getBlockBegin (← get).regions p
    if beg = 0 then return 0 else return getMetaData beg

def setCverTypeTableAndNumElements (p typeTable numElements : Uptr) : HeapM Bool := do
  let m ← getCverMetaData p
  if m = 0 then return false
  else do
    storeWord (m + 8) typeTable
    storeWord (m + 16) numElements
    return true

/-- `__cver_handle_new`. -/
def handleNew (flags : Flags) (typeTable pointer numElements : Uptr) : HeapM PUnit := do
  if flags.noCheck || flags.noHandleNew then return ()
  else do
    let _ ← setCverTypeTableAndNumElements pointer typeTable numElements

/-! ## Records in memory -/

/-- The memory after the record at `m` has been set. -/
def writeMetadata (mem : Uptr → Uptr) (m : Uptr) (md : Metadata) : Uptr → Uptr :=
  Function.update (Function.update (Function.update mem m md.requestedSize) (m + 8) md.typeTable)
    (m + 16) md.numElements

/-- The record of chunk `i` of class `c`. -/
def recordOf (s : HeapState) (c i : ℕ) : Metadata :=
  loadMetadata s.mem (UInt64.ofNat (recordBeg c i))

variable {s : HeapState} {mem mem' : Uptr → Uptr} {m : Uptr} {md : Metadata} {c i c' i' : ℕ}

theorem wlp_storeMetadata {Q : PUnit → HeapState → Prop} :
    wlp (storeMetadata m md) Q s ↔ Q ⟨⟩ { s with mem := writeMetadata s.mem m md } := by
  simp only [storeMetadata, storeWord, wlp_bind, wlp_modify]
  rfl

theorem toNat_field (hm : m.toNat + 24 ≤ 2 ^ 64) :
    (m + 8).toNat = m.toNat + 8 ∧ (m + 16).toNat = m.toNat + 16 := by
  have h8 : (8 : Uptr).toNat = 8 := rfl
  have h16 : (16 : Uptr).toNat = 16 := rfl
  constructor
  · rw [toNat_add_of_lt, h8]
    omega
  · rw [toNat_add_of_lt, h16]
    omega

theorem writeMetadata_of_outside (hm : m.toNat + 24 ≤ 2 ^ 64) {a : Uptr}
    (ha : a.toNat < m.toNat ∨ m.toNat + 24 ≤ a.toNat) : writeMetadata mem m md a = mem a := by
  rcases toNat_field hm with ⟨h8, h16⟩
  unfold writeMetadata
  rw [Function.update_of_ne, Function.update_of_ne, Function.update_of_ne]
  all_goals
    rintro rfl
    omega

theorem loadMetadata_write_self (hm : m.toNat + 24 ≤ 2 ^ 64) :
    loadMetadata (writeMetadata mem m md) m = md := by
  rcases toNat_field hm with ⟨h8, h16⟩
  have h1 : m ≠ m + 8 := fun h => by rw [← h] at h8; omega
  have h2 : m ≠ m + 16 := fun h => by rw [← h] at h16; omega
  have h3 : m + 8 ≠ m + 16 := fun h => by rw [h] at h8; omega
  unfold loadMetadata writeMetadata
  simp [Function.update_of_ne, h1, h2, h3]

/-- A record is its 24 bytes. -/
theorem loadMetadata_congr (hm : m.toNat + 24 ≤ 2 ^ 64)
    (h : ∀ a, m.toNat ≤ a.toNat → a.toNat < m.toNat + 24 → mem' a = mem a) :
    loadMetadata mem' m = loadMetadata mem m := by
  rcases toNat_field hm with ⟨h8, h16⟩
  unfold loadMetadata
  rw [h m (by omega) (by omega), h (m + 8) (by omega) (by omega), h (m + 16) (by omega) (by omega)]

/-- Setting the size alone. -/
theorem writeMetadata_size (hm : m.toNat + 24 ≤ 2 ^ 64) (n : Uptr) :
    writeMetadata mem m { loadMetadata mem m with requestedSize := n } =
      Function.update mem m n := by
  rcases toNat_field hm with ⟨h8, h16⟩
  have h1 : m + 8 ≠ m := fun h => by rw [h] at h8; omega
  have h2 : m + 16 ≠ m := fun h => by rw [h] at h16; omega
  have hfield : ∀ a, a ≠ m → Function.update mem m n a = mem a :=
    fun a ha => Function.update_of_ne ha _ _
  unfold writeMetadata loadMetadata
  dsimp only
  rw [← hfield _ h1, Function.update_eq_self, ← hfield _ h2, Function.update_eq_self]

/-- Setting the type table and the number of elements alone. -/
theorem writeMetadata_type (t n : Uptr) :
    writeMetadata mem m { loadMetadata mem m with typeTable := t, numElements := n } =
      Function.update (Function.update mem (m + 8) t) (m + 16) n := by
  unfold writeMetadata loadMetadata
  dsimp only
  rw [Function.update_eq_self]

/-- The last record set at an address counts. -/
theorem writeMetadata_writeMetadata {md' : Metadata} :
    writeMetadata (writeMetadata mem m md) m md' = writeMetadata mem m md' := by
  funext a
  unfold writeMetadata
  simp only [Function.update_apply]
  split_ifs <;> rfl

/-- Setting one record of the primary allocator leaves the others. -/
theorem loadMetadata_write (hf : Fits c i) (hf' : Fits c' i') :
    loadMetadata (writeMetadata mem (UInt64.ofNat (recordBeg c' i')) md)
        (UInt64.ofNat (recordBeg c i)) =
      if c = c' ∧ i = i' then md else loadMetadata mem (UInt64.ofNat (recordBeg c i)) := by
  have hb := hf.recordBeg_bounds
  have hb' := hf'.recordBeg_bounds
  have hn := hf.recordBeg_toNat
  have hn' := hf'.recordBeg_toNat
  split
  · next h =>
    rcases h with ⟨rfl, rfl⟩
    exact loadMetadata_write_self (by omega)
  · next hne =>
    have hapart := record_apart hf hf' hne
    refine loadMetadata_congr (by omega) ?_
    intro a hlo hhi
    exact writeMetadata_of_outside (by omega) (by omega)

/-- A record that is set outside the primary space leaves those inside. -/
theorem loadMetadata_write_outside (hf : Fits c i) (hm : m.toNat + 24 ≤ 2 ^ 64)
    (hout : m.toNat + 24 ≤ 0x600000000000 ∨ 0x680000000000 ≤ m.toNat) :
    loadMetadata (writeMetadata mem m md) (UInt64.ofNat (recordBeg c i)) =
      loadMetadata mem (UInt64.ofNat (recordBeg c i)) := by
  have hb := hf.recordBeg_bounds
  have hn := hf.recordBeg_toNat
  refine loadMetadata_congr (by omega) ?_
  intro a hlo hhi
  exact writeMetadata_of_outside hm (by omega)

end Caver.Runtime
