import Caver.Runtime.HeapTracking

/-!
# Caver.Runtime.BlockSizes — how large and how aligned the blocks are

The rest of the interceptors of `cver_malloc.cc`, and what a program gets from
any of them.

* `HasRoom s p n`: the block at `p` has room for `n` bytes, as a mapped chunk or
  behind the header of a large mapping.
* `Blocks`: the invariant. A large mapping has whole pages for its block, which
  is what a reallocation in place counts on.
* `request_sized_iff`: a request that returns a block returns one that is large
  enough and aligned, unless it is a `pvalloc` whose rounding wraps.
-/

namespace Caver.Runtime

open Caver.Core Caver.Sanitizer

/-! ## The interceptors -/

def alignedAlloc (choice : Choice) (boundary size : Uptr) : HeapM Uptr :=
  memalign choice boundary size

def libcMemalign (choice : Choice) (boundary size : Uptr) : HeapM Uptr :=
  memalign choice boundary size

/-- The result is 0; the block is returned in `*memptr`. -/
def posixMemalign (choice : Choice) (memptr alignment size : Uptr) : HeapM Uptr := do
  check (alignment &&& (alignment - 1) == 0)
  check (memptr != 0)
  let ptr ← cverReallocate choice 0 size alignment false
  storeWord memptr ptr
  check ((← loadWord memptr) != 0)
  return 0

def valloc (choice : Choice) (size : Uptr) : HeapM Uptr :=
  cverReallocate choice 0 size kPageSize false

def pvalloc (choice : Choice) (size : Uptr) : HeapM Uptr := do
  let size ← roundUpTo size kPageSize
  let size := if size = 0 then kPageSize else size
  cverReallocate choice 0 size kPageSize false

/-! ## Requests -/

/-- A call that asks for a block. -/
inductive Request where
  | malloc (size : Uptr)
  | calloc (nmemb size : Uptr)
  | realloc (ptr size : Uptr)
  | memalign (boundary size : Uptr)
  | alignedAlloc (boundary size : Uptr)
  | libcMemalign (boundary size : Uptr)
  | posixMemalign (memptr alignment size : Uptr)
  | valloc (size : Uptr)
  | pvalloc (size : Uptr)
  | operatorNew (size : Uptr)
deriving DecidableEq, Repr

/-- The pointer that the caller gets. -/
def Request.run (choice : Choice) : Request → HeapM Uptr
  | .malloc size => Runtime.malloc choice size
  | .calloc nmemb size => Runtime.calloc choice nmemb size
  | .realloc ptr size => Runtime.realloc choice ptr size
  | .memalign boundary size => Runtime.memalign choice boundary size
  | .alignedAlloc boundary size => Runtime.alignedAlloc choice boundary size
  | .libcMemalign boundary size => Runtime.libcMemalign choice boundary size
  | .posixMemalign memptr alignment size => do
    let _ ← Runtime.posixMemalign choice memptr alignment size
    loadWord memptr
  | .valloc size => Runtime.valloc choice size
  | .pvalloc size => Runtime.pvalloc choice size
  | .operatorNew size => Runtime.operatorNew choice size

/-- The alignment that is asked for: `sizeof(u64)` unless the caller names one. -/
def Request.alignment : Request → Uptr
  | .memalign boundary _ | .alignedAlloc boundary _ | .libcMemalign boundary _ => boundary
  | .posixMemalign _ alignment _ => alignment
  | .valloc _ | .pvalloc _ => kPageSize
  | .malloc _ | .calloc _ _ | .realloc _ _ | .operatorNew _ => 8

/-- The bytes that are asked for, as a number. -/
def Request.bytes : Request → ℕ
  | .calloc nmemb size => nmemb.toNat * size.toNat
  | .pvalloc size => (size.toNat + 4095) / 4096 * 4096
  | .malloc size | .realloc _ size | .memalign _ size | .alignedAlloc _ size
  | .libcMemalign _ size | .posixMemalign _ _ size | .valloc size | .operatorNew size =>
    size.toNat

/-- A run of the heap: requests, deallocations, growth of the regions, and
whatever the program writes to memory. -/
inductive HeapRun : HeapState → Prop
  | init (mem : Uptr → Uptr) (mayReturnNull : Bool) : HeapRun (initialHeap mem mayReturnNull)
  | request {s s' : HeapState} {req : Request} {choice : Choice} {r : Uptr} :
      HeapRun s → req.run choice s = some (r, s') → HeapRun s'
  | deallocate {s s' : HeapState} {p : Uptr} :
      HeapRun s → cverDeallocate p s = some (⟨⟩, s') → HeapRun s'
  | grow {s s' : HeapState} {c : ℕ} :
      HeapRun s → populate c s = some (⟨⟩, s') → HeapRun s'
  | write {s : HeapState} (mem : Uptr → Uptr) : HeapRun s → HeapRun { s with mem := mem }

/-! ## Blocks -/

/-- There is a block at `p` with room for `n` bytes. -/
inductive HasRoom (s : HeapState) (p : Uptr) (n : ℕ) : Prop
  | chunk (c i : ℕ) : 0 < c → c < 53 → (i + 1) * chunkSize c ≤ (s.regions c).mappedUser →
      p.toNat = chunkBeg c i → n ≤ chunkSize c → HasRoom s p n
  | mapping (h : LargeChunk) : h ∈ s.large → p.toNat = h.header.toNat + 4096 →
      p.toNat + n ≤ h.mapBeg.toNat + h.mapSize.toNat → HasRoom s p n

/-- Requests like this one return blocks that are aligned and large enough, in
every state that a run reaches. -/
def Request.Sized (req : Request) : Prop :=
  ∀ (s s' : HeapState) (choice : Choice) (r : Uptr), HeapRun s →
    req.run choice s = some (r, s') → r ≠ 0 →
      r.toNat % req.alignment.toNat = 0 ∧ HasRoom s' r req.bytes

/-- The pages of a large block are in its mapping. -/
structure Blocks (s : HeapState) : Prop where
  regions : RegionsOk s.regions
  large : ∀ h ∈ s.large, h.Ok
  pages : ∀ h ∈ s.large, h.header.toNat + 4096 + (roundUp h.size kPageSize).toNat ≤
    h.mapBeg.toNat + h.mapSize.toNat

/-- Neither the regions nor the mappings have changed. -/
def SameBlocks (s s' : HeapState) : Prop := s'.regions = s.regions ∧ s'.large = s.large

/-- What an allocation of `size` bytes at `p` does to the blocks. -/
inductive NewBlock (s : HeapState) (size p : Uptr) (s' : HeapState) : Prop
  | null : p = 0 → SameBlocks s s' → NewBlock s size p s'
  | chunk (c i : ℕ) : Carved s.regions c i → p.toNat = chunkBeg c i → size.toNat ≤ chunkSize c →
      SameBlocks s s' → NewBlock s size p s'
  | mapping (n : Uptr) (h : LargeChunk) : n ≠ 0 → size.toNat ≤ n.toNat → MappedFor s n p h →
      s'.regions = s.regions → s'.large = s.large ++ [h] → NewBlock s size p s'

variable {s s' s'' : HeapState} {p size alignment : Uptr} {n : ℕ}

theorem HasRoom.mono {m : ℕ} (h : HasRoom s p n) (hle : m ≤ n) : HasRoom s p m := by
  cases h with
  | chunk c i h0 hc hi hp hn => exact .chunk c i h0 hc hi hp (hle.trans hn)
  | mapping h hmem hp hn => exact .mapping h hmem hp (by omega)

theorem HasRoom.of_same (h : HasRoom s p n) (hs : SameBlocks s s') : HasRoom s' p n := by
  cases h with
  | chunk c i h0 hc hi hp hn => exact .chunk c i h0 hc (hs.1 ▸ hi) hp hn
  | mapping h hmem hp hn => exact .mapping h (hs.2 ▸ hmem) hp hn

theorem Blocks.of_same (h : Blocks s) (hs : SameBlocks s s') : Blocks s' where
  regions := hs.1 ▸ h.regions
  large := hs.2 ▸ h.large
  pages := hs.2 ▸ h.pages

theorem NewBlock.then_same (h : NewBlock s size p s') (hs : SameBlocks s' s'') :
    NewBlock s size p s'' := by
  rcases hs with ⟨hr, hl⟩
  cases h with
  | null hp hs' => exact .null hp ⟨hr.trans hs'.1, hl.trans hs'.2⟩
  | chunk c i hc hp hn hs' => exact .chunk c i hc hp hn ⟨hr.trans hs'.1, hl.trans hs'.2⟩
  | mapping n h hn0 hn hm hr' hl' => exact .mapping n h hn0 hn hm (hr.trans hr') (hl.trans hl')

/-- A new block is large enough. -/
theorem NewBlock.hasRoom (hb : Blocks s) (h : NewBlock s size p s') (h0 : p ≠ 0) :
    HasRoom s' p size.toNat := by
  cases h with
  | null hp _ => exact absurd hp h0
  | chunk c i hc hp hn hs =>
    have hmapped := (hb.regions c hc.1 hc.2.1).user_mapped
    refine .chunk c i hc.1 hc.2.1 ?_ hp hn
    rw [hs.1]
    exact hc.2.2.trans hmapped
  | mapping n h hn0 hn hm _ hl =>
    refine .mapping h ?_ hm.user ?_
    · rw [hl]
      exact List.mem_append_right _ List.mem_cons_self
    · have hrounded := hm.rounded
      have hpages := hm.pages
      omega

/-- Allocations keep the invariant. -/
theorem NewBlock.blocks (hb : Blocks s) (h : NewBlock s size p s') : Blocks s' := by
  cases h with
  | null _ hs => exact hb.of_same hs
  | chunk _ _ _ _ _ hs => exact hb.of_same hs
  | mapping n h hn0 _ hm hr hl =>
    have hmem : ∀ x ∈ s'.large, x ∈ s.large ∨ x = h := by
      intro x hx
      rw [hl, List.mem_append, List.mem_singleton] at hx
      exact hx
    refine ⟨hr ▸ hb.regions, ?_, ?_⟩
    · intro x hx
      rcases hmem x hx with hx | rfl
      · exact hb.large x hx
      · exact hm.ok hn0
    · intro x hx
      rcases hmem x hx with hx | rfl
      · exact hb.pages x hx
      · have huser := hm.user
        have hpages := hm.pages
        rw [hm.size_eq]
        omega

/-! ## Alignment -/

theorem chunkSize_mod {c : ℕ} (hc : c < 53) : chunkSize c % 16 = 0 := by
  have hall : ∀ c : Fin 53, chunkSize c.val % 16 = 0 := by decide
  exact hall ⟨c, hc⟩

theorem chunkBeg_mod {c : ℕ} (hc : c < 53) (i : ℕ) : chunkBeg c i % 8 = 0 := by
  rcases Nat.dvd_of_mod_eq_zero (chunkSize_mod hc) with ⟨k, hk⟩
  rw [chunkBeg, hk, ← Nat.mul_assoc, Nat.mul_comm i 16, Nat.mul_assoc]
  omega

/-- Chunks and pages start at multiples of 8. -/
theorem NewBlock.mod_eight (h : NewBlock s size p s') : p.toNat % 8 = 0 := by
  cases h with
  | null hp _ =>
    rw [hp]
    rfl
  | chunk c i hc hp _ _ => rw [hp, chunkBeg_mod hc.2.1]
  | mapping n h _ _ hm _ _ =>
    have hpage := hm.page
    rw [isAligned_iff] at hpage
    omega

theorem mod_of_mask (hal : alignment.toNat.isPowerOfTwo) (h : p &&& (alignment - 1) = 0) :
    p.toNat % alignment.toNat = 0 := by
  rcases hal with ⟨k, hal⟩
  have hpos : 1 ≤ alignment.toNat := hal ▸ Nat.one_le_two_pow
  have hand : (p &&& (alignment - 1)).toNat = 0 := by rw [h, UInt64.toNat_zero]
  rw [UInt64.toNat_and, UInt64.toNat_sub_of_le, UInt64.toNat_one, hal,
    Nat.and_two_pow_sub_one_eq_mod] at hand
  · rwa [hal]
  · rwa [UInt64.le_iff_toNat_le, UInt64.toNat_one]

/-- Alignments up to 8 come by themselves, for the others there is a check. -/
theorem NewBlock.aligned (hal : alignment.toNat.isPowerOfTwo) (h : NewBlock s size p s')
    (hcheck : alignment > 8 → p &&& (alignment - 1) = 0) : p.toNat % alignment.toNat = 0 := by
  by_cases hbig : alignment > 8
  · exact mod_of_mask hal (hcheck hbig)
  · rcases hal with ⟨k, hal⟩
    have hsmall : alignment.toNat ≤ 8 := UInt64.le_iff_toNat_le.mp (UInt64.not_lt.mp hbig)
    have hdvd : alignment.toNat ∣ 8 := by
      rw [hal] at hsmall ⊢
      have hk : k ≤ 3 := (Nat.pow_le_pow_iff_right (a := 2) (by decide)).mp hsmall
      exact Nat.pow_dvd_pow 2 hk
    exact Nat.mod_eq_zero_of_dvd (hdvd.trans (Nat.dvd_of_mod_eq_zero h.mod_eight))

/-! ## The allocator -/

theorem cacheAllocate_same (chunk : ℕ) (classId : Uptr) :
    wlp (cacheAllocate chunk classId) (fun _ s' => SameBlocks s s') s := by
  simp only [cacheAllocate, wlp_bind, wlp_check, wlp_get, wlp_modify, wlp_pure]
  exact fun _ _ => ⟨rfl, rfl⟩

theorem allocate_block (hr : RegionsOk s.regions) (choice : Choice) (size alignment : Uptr) :
    wlp (allocate choice size alignment)
      (fun p s' => NewBlock s size p s' ∧ (alignment > 8 → p &&& (alignment - 1) = 0)) s := by
  refine allocate_rule (fun _ => .null rfl ⟨rfl, rfl⟩) ?_ ?_
  · intro n hn hle hmax
    refine ((cacheAllocate_spec hr _ _ hn hmax).and (cacheAllocate_same _ _)).mono ?_
    rintro p s' ⟨h, hs⟩
    cases h with
    | null hp => exact .null hp hs
    | chunk c i hc hp _ hsize => exact .chunk c i hc hp (hle.trans hsize) hs
    | mapping h =>
      have hlen := congrArg List.length hs.2
      simp at hlen
  · intro n hn hle _
    refine (secondaryAllocate_mapped _ _ _).mono ?_
    rintro p s' (⟨hp, rfl, -⟩ | ⟨h, hm, rfl⟩)
    · exact .null hp ⟨rfl, rfl⟩
    · exact .mapping n h hn hle hm rfl rfl

theorem combinedGetMetaData_same (p : Uptr) :
    wlp (combinedGetMetaData p) (fun _ s' => s' = s) s := by
  simp only [combinedGetMetaData, secondaryGetMetaData, getHeader, wlp_ite, wlp_bind, wlp_check,
    wlp_readHeader, wlp_pure]
  split
  · trivial
  · exact fun _ _ _ => trivial

theorem cverAllocate_block (hr : RegionsOk s.regions) (choice : Choice) (size alignment : Uptr)
    (zeroise : Bool) :
    wlp (cverAllocate choice size alignment zeroise)
      (fun p s' => NewBlock s size p s' ∧ (alignment > 8 → p &&& (alignment - 1) = 0)) s := by
  unfold Runtime.cverAllocate
  rw [wlp_ite]
  split
  · refine wlp_allocatorReturnNull ⟨.null rfl ⟨rfl, rfl⟩, ?_⟩
    intro _
    exact UInt64.zero_and
  · rw [wlp_bind]
    refine (allocate_block hr choice size alignment).mono ?_
    rintro p s₁ ⟨hnew, hcheck⟩
    rw [wlp_bind]
    refine (combinedGetMetaData_same p).mono ?_
    rintro m _ rfl
    -- the record and the cleared bytes are in memory only
    rw [wlp_bind, wlp_storeMetadata, wlp_ite]
    split
    · rw [wlp_bind, memset, wlp_modify, wlp_pure]
      exact ⟨hnew.then_same ⟨rfl, rfl⟩, hcheck⟩
    · rw [wlp_pure]
      exact ⟨hnew.then_same ⟨rfl, rfl⟩, hcheck⟩

theorem memcpy_same (dst src n : Uptr) :
    wlp (memcpy dst src n) (fun _ s' => SameBlocks s s') s := by
  rw [memcpy, wlp_modify]
  exact ⟨rfl, rfl⟩

/-- A deallocation gives back at most the large block of its argument. -/
theorem cverDeallocate_blocks (hb : Blocks s) (p : Uptr) :
    wlp (cverDeallocate p) (fun _ s' => SameBlocks s s' ∨ pointerIsMine p = false ∧
      ∃ c, c.header = p - kPageSize ∧ s'.regions = s.regions ∧ s'.large = s.large.erase c) s := by
  simp only [Runtime.cverDeallocate, wlp_bind, wlp_check]
  intro _
  refine wlp_of_wp (combinedGetBlockBegin_spec hb.large p) ?_
  rintro beg _ ⟨rfl, -, -⟩
  rw [wlp_ite]
  split
  · rw [wlp_pure]
    exact Or.inl ⟨rfl, rfl⟩
  · rw [wlp_bind]
    refine (combinedGetMetaData_same p).mono ?_
    rintro m _ rfl
    simp only [wlp_bind, wlp_storeMetadata, deallocate, cacheDeallocate, secondaryDeallocate,
      getHeader, wlp_ite, wlp_check, wlp_readHeader, wlp_modify, wlp_pure]
    split
    · exact Or.inl ⟨rfl, rfl⟩
    split
    · exact fun _ => Or.inl ⟨rfl, rfl⟩
    · next hm =>
      intro _ c hfind
      have hc : c.header = p - kPageSize := by
        simpa using List.find?_some hfind
      exact Or.inr ⟨Bool.not_eq_true _ ▸ hm, c, hc, trivial, rfl⟩

theorem cverDeallocate_keeps (hb : Blocks s) (p : Uptr) :
    wlp (cverDeallocate p) (fun _ s' => Blocks s') s := by
  refine (cverDeallocate_blocks hb p).mono ?_
  rintro _ s' (hs | ⟨-, c, -, hr, hl⟩)
  · exact hb.of_same hs
  · have hmem : ∀ x ∈ s'.large, x ∈ s.large := by
      intro x hx
      rw [hl] at hx
      exact List.mem_of_mem_erase hx
    exact ⟨hr ▸ hb.regions, fun x hx => hb.large x (hmem x hx), fun x hx => hb.pages x (hmem x hx)⟩

/-! ## What a caller gets -/

/-- The block at `p` is as large and as aligned as it should be. -/
def Serves (n : ℕ) (alignment p : Uptr) (s : HeapState) : Prop :=
  p ≠ 0 → (alignment.toNat.isPowerOfTwo → p.toNat % alignment.toNat = 0) ∧ HasRoom s p n

theorem Serves.mono {m : ℕ} (h : Serves n alignment p s) (hle : m ≤ n) : Serves m alignment p s :=
  fun h0 => ⟨(h h0).1, (h h0).2.mono hle⟩

theorem Serves.of_same (h : Serves n alignment p s) (hs : SameBlocks s s') :
    Serves n alignment p s' :=
  fun h0 => ⟨(h h0).1, (h h0).2.of_same hs⟩

/-- The size that `GetActuallyAllocatedSize` reports is there, so a block can
grow in place up to it. -/
theorem actualSize_hasRoom (hb : Blocks s)
    (hbeg : pointerIsMine p = true → p = getBlockBegin s.regions p) :
    wlp (getActuallyAllocatedSize p)
      (fun n s' => s' = s ∧ p.toNat % 8 = 0 ∧ HasRoom s p n.toNat) s := by
  simp only [getActuallyAllocatedSize, secondaryGetActuallyAllocatedSize, getHeader, wlp_ite,
    wlp_bind, wlp_check, wlp_readHeader, wlp_pure, true_and]
  split
  · next hm =>
    rcases chunk_of_getBlockBegin hm (hbeg hm).symm with ⟨⟨h0, hc, hi⟩, hp⟩
    refine ⟨?_, .chunk _ _ h0 hc hi hp ?_⟩
    · rw [hp, chunkBeg_mod hc]
    · exact (classSize_getSizeClass p).le
  · intro hpage c hfind
    have hc : c.header = p - kPageSize := by
      simpa using List.find?_some hfind
    have hmem := List.mem_of_find?_eq_some hfind
    have huser := (hb.large c hmem).user_space
    have hpages := hb.pages c hmem
    -- the header is the page before the block
    have hp : p.toNat = c.header.toNat + 4096 := by
      rw [← UInt64.sub_add_cancel p kPageSize, ← hc, toNat_add_of_lt]
      · rfl
      · have hk : kPageSize.toNat = 4096 := rfl
        omega
    rw [isAligned_iff] at hpage
    exact ⟨by omega, .mapping c hmem hp (by omega)⟩

/-- The new block outlives the old one. -/
theorem NewBlock.hasRoom_after (hb : Blocks s) (h : NewBlock s size p s') (h0 : p ≠ 0) {oldP : Uptr}
    (hold : pointerIsMine oldP = true ∨ ∃ c ∈ s.large, oldP = c.header + kPageSize) :
    wlp (cverDeallocate oldP) (fun _ s'' => Blocks s'' ∧ HasRoom s'' p size.toNat) s' := by
  have hb' := h.blocks hb
  have hnew := h.hasRoom hb h0
  refine ((cverDeallocate_keeps hb' oldP).and (cverDeallocate_blocks hb' oldP)).mono ?_
  rintro _ s'' ⟨hkeep, hs | ⟨hmine, c, hc, hr, hl⟩⟩
  · exact ⟨hkeep, hnew.of_same hs⟩
  refine ⟨hkeep, ?_⟩
  cases h with
  | null hp _ => exact absurd hp h0
  | chunk d i hd hp hn hs =>
    -- mapped chunks stay mapped
    have hmapped := (hb.regions d hd.1 hd.2.1).user_mapped
    refine .chunk d i hd.1 hd.2.1 ?_ hp hn
    rw [hr, hs.1]
    exact hd.2.2.trans hmapped
  | mapping n h hn0 hn hm _ hl' =>
    have hrounded := hm.rounded
    have hpages := hm.pages
    refine .mapping h ?_ hm.user (by omega)
    -- the kernel has not mapped the new block over the old one
    have hne : h ≠ c := by
      rintro rfl
      rcases hold with hmine' | ⟨c, hcmem, hp'⟩
      · simp [hmine] at hmine'
      have hsame : h.header = c.header := by
        rw [hc, hp', UInt64.add_sub_cancel]
      have hmap := hm.mappable
      simp only [mappable, Bool.and_eq_true, List.all_eq_true, Bool.or_eq_true,
        decide_eq_true_eq] at hmap
      have hapart := hmap.2 c hcmem
      have hmapped := (hb.large c hcmem).mapped.1
      have huser := hm.user
      have hheader := hm.header
      have hpages' := hb.pages c hcmem
      rw [UInt64.le_iff_toNat_le, ← hsame] at hmapped
      rw [← hsame] at hpages'
      omega
    rw [hl, hl', List.mem_erase_of_ne hne]
    exact List.mem_append_right _ List.mem_cons_self

theorem cverReallocate_null (choice : Choice) (size alignment : Uptr) (zeroise : Bool) :
    cverReallocate choice 0 size alignment zeroise = cverAllocate choice size alignment zeroise :=
  if_pos rfl

theorem cverAllocate_serves (hb : Blocks s) (choice : Choice) (size alignment : Uptr)
    (zeroise : Bool) :
    wlp (cverReallocate choice 0 size alignment zeroise)
      (fun p s' => Blocks s' ∧ Serves size.toNat alignment p s') s := by
  rw [cverReallocate_null]
  refine (cverAllocate_block hb.regions choice size alignment zeroise).mono ?_
  rintro p s' ⟨hnew, hcheck⟩
  refine ⟨hnew.blocks hb, fun h0 => ⟨fun hal => ?_, hnew.hasRoom hb h0⟩⟩
  exact hnew.aligned hal hcheck

/-- A reallocation of the default alignment: in place, or moved. -/
theorem realloc_serves (hb : Blocks s) (choice : Choice) (oldP size : Uptr) :
    wlp (realloc choice oldP size) (fun p s' => Blocks s' ∧ Serves size.toNat 8 p s') s := by
  by_cases h0 : oldP = 0
  · rw [h0]
    exact cverAllocate_serves hb choice size 8 false
  have hnull : ∀ s', Serves size.toNat 8 0 s' := fun _ hne => absurd rfl hne
  have h8 : (8 : Uptr).toNat = 8 := rfl
  rw [realloc, Runtime.cverReallocate, if_neg h0, wlp_ite]
  split
  · -- nothing is asked for
    rw [wlp_bind]
    refine (cverDeallocate_keeps hb oldP).mono ?_
    intro _ s' hb'
    rw [wlp_pure]
    exact ⟨hb', hnull s'⟩
  rw [wlp_bind]
  refine wlp_of_wp (combinedGetBlockBegin_spec hb.large oldP) ?_
  rintro beg _ ⟨rfl, hmine, hlarge⟩
  rw [wlp_ite]
  split
  · rw [wlp_pure]
    exact ⟨hb, hnull _⟩
  next hbeg =>
  rw [ne_eq, not_not] at hbeg
  subst hbeg
  rw [wlp_bind]
  refine (combinedGetMetaData_same beg).mono ?_
  rintro m _ rfl
  rw [wlp_bind, loadWord, wlp_bind, wlp_get, wlp_pure, wlp_bind]
  refine (actualSize_hasRoom hb hmine).mono ?_
  rintro actual _ ⟨rfl, hmod, hroom⟩
  rw [wlp_ite]
  split
  · next hfits =>
    -- in place
    rw [wlp_bind, storeWord, wlp_modify, wlp_pure]
    refine ⟨hb.of_same ⟨rfl, rfl⟩, fun _ => ⟨fun _ => by rwa [h8], ?_⟩⟩
    exact (hroom.mono (UInt64.le_iff_toNat_le.mp hfits)).of_same ⟨rfl, rfl⟩
  · -- moved
    dsimp only
    rw [wlp_bind]
    refine (cverAllocate_block hb.regions choice size 8 false).mono ?_
    rintro newP s₁ ⟨hnew, hcheck⟩
    rw [wlp_ite]
    split
    · next hnewP =>
      rw [wlp_bind]
      refine (memcpy_same newP beg _).mono ?_
      rintro _ s₂ hs₂
      rw [wlp_bind]
      refine ((hnew.then_same hs₂).hasRoom_after hb hnewP ?_).mono ?_
      · cases hm : pointerIsMine beg with
        | true => exact Or.inl rfl
        | false =>
          rcases hlarge hm with hz | hh
          · exact absurd hz h0
          · exact Or.inr hh
      · rintro _ s₃ ⟨hb₃, hroom₃⟩
        rw [wlp_pure]
        exact ⟨hb₃, fun _ => ⟨fun _ => by rw [h8, hnew.mod_eight], hroom₃⟩⟩
    · next hnewP =>
      rw [ne_eq, not_not] at hnewP
      rw [wlp_pure, hnewP]
      exact ⟨hnew.blocks hb, hnull _⟩

/-! ## Every request -/

/-- The size that is passed on is the one that is asked for. -/
def Request.Rounds : Request → Prop
  | .pvalloc size => size.toNat + 4095 < 2 ^ 64
  | _ => True

theorem toNat_mul_of_no_overflow {size nmemb : Uptr}
    (h : ¬ callocShouldReturnNullDueToOverflow size nmemb = true) :
    (nmemb * size).toNat = nmemb.toNat * size.toNat := by
  have hlt : nmemb.toNat * size.toNat < 2 ^ 64 := by
    by_cases h0 : size = 0
    · simp [h0]
    · have hpos : 0 < size.toNat := Nat.pos_of_ne_zero fun hz => h0 (UInt64.toNat_inj.mp hz)
      have hmax : (0 - 1 : Uptr).toNat = 2 ^ 64 - 1 := by decide
      simp only [callocShouldReturnNullDueToOverflow, if_neg h0, decide_eq_true_eq,
        UInt64.not_lt, UInt64.le_iff_toNat_le, UInt64.toNat_div, hmax] at h
      have hle := (Nat.le_div_iff_mul_le hpos).mp h
      omega
  rw [UInt64.toNat_mul, Nat.mod_eq_of_lt hlt]

theorem pageStep_toNat (size : Uptr) :
    (size + kPageSize - 1).toNat = (size.toNat + 4095) % 2 ^ 64 := by
  have hlt := size.toNat_lt
  rw [UInt64.toNat_sub, UInt64.toNat_add, kPageSize_toNat, UInt64.toNat_one]
  omega

theorem pageStep_low (size : Uptr) : ((size + kPageSize - 1) &&& (kPageSize - 1)).toNat =
    (size + kPageSize - 1).toNat % 4096 := by
  rw [UInt64.toNat_and]
  exact Nat.and_two_pow_sub_one_eq_mod _ 12

/-- `RoundUpTo` for whole pages, where the sum does not wrap. -/
theorem roundUp_page (h : size.toNat + 4095 < 2 ^ 64) :
    (roundUp size kPageSize).toNat = (size.toNat + 4095) / 4096 * 4096 := by
  have hlow := pageStep_low size
  have hsum : (size + kPageSize - 1).toNat = size.toNat + 4095 := by
    rw [pageStep_toNat, Nat.mod_eq_of_lt h]
  unfold roundUp
  rw [toNat_and_not, hlow, hsum]
  omega

/-- And where it does. -/
theorem roundUp_wraps (h : 2 ^ 64 ≤ size.toNat + 4095) : roundUp size kPageSize = 0 := by
  have hlow := pageStep_low size
  have hlt := size.toNat_lt
  rw [← UInt64.toNat_inj]
  unfold roundUp
  rw [toNat_and_not, hlow, pageStep_toNat]
  show _ = 0
  omega

theorem memalign_serves (hb : Blocks s) (choice : Choice) (boundary size : Uptr) :
    wlp (memalign choice boundary size)
      (fun p s' => Blocks s' ∧ Serves size.toNat boundary p s') s := by
  rw [memalign, wlp_bind, wlp_check]
  exact fun _ => cverAllocate_serves hb choice size boundary false

/-- What each request does. -/
theorem Request.serves (hb : Blocks s) (req : Request) (choice : Choice) :
    wlp (req.run choice)
      (fun p s' => Blocks s' ∧ (req.Rounds → Serves req.bytes req.alignment p s')) s := by
  have hround : ∀ {n : ℕ} {p alignment : Uptr} {s' : HeapState},
      Blocks s' ∧ Serves n alignment p s' → Blocks s' ∧ (True → Serves n alignment p s') :=
    fun h => ⟨h.1, fun _ => h.2⟩
  cases req with
  | malloc size => exact (cverAllocate_serves hb choice size 8 false).mono fun _ _ => hround
  | operatorNew size => exact (cverAllocate_serves hb choice size 8 false).mono fun _ _ => hround
  | realloc ptr size => exact (realloc_serves hb choice ptr size).mono fun _ _ => hround
  | memalign boundary size => exact (memalign_serves hb choice boundary size).mono fun _ _ => hround
  | alignedAlloc boundary size =>
    exact (memalign_serves hb choice boundary size).mono fun _ _ => hround
  | libcMemalign boundary size =>
    exact (memalign_serves hb choice boundary size).mono fun _ _ => hround
  | valloc size =>
    exact (cverAllocate_serves hb choice size kPageSize false).mono fun _ _ => hround
  -- the calls that change what is asked for or pass the block on by memory
  | calloc nmemb size =>
    rw [Request.run, Runtime.calloc, wlp_ite]
    split
    · exact wlp_allocatorReturnNull ⟨hb, fun _ h0 => absurd rfl h0⟩
    · next hover =>
      refine (cverAllocate_serves hb choice (nmemb * size) 8 true).mono ?_
      rintro p s' ⟨hb', hs⟩
      rw [toNat_mul_of_no_overflow hover] at hs
      exact ⟨hb', fun _ => hs⟩
  | posixMemalign memptr alignment size =>
    simp only [Request.run, Runtime.posixMemalign, wlp_bind, wlp_check]
    intro _ _
    refine (cverAllocate_serves hb choice size alignment false).mono ?_
    rintro p s' ⟨hb', hs⟩
    simp only [storeWord, loadWord, wlp_modify, wlp_bind, wlp_get, wlp_pure]
    intro _
    rw [Function.update_self]
    exact ⟨hb'.of_same ⟨rfl, rfl⟩, fun _ => hs.of_same ⟨rfl, rfl⟩⟩
  | pvalloc size =>
    simp only [Request.run, Runtime.pvalloc, roundUpTo, wlp_bind, wlp_check, wlp_pure]
    intro _
    refine (cverAllocate_serves hb choice _ kPageSize false).mono ?_
    rintro p s' ⟨hb', hs⟩
    -- where the size can be rounded up, the pages hold what was asked for
    refine ⟨hb', fun hrounds => hs.mono ?_⟩
    show (size.toNat + 4095) / 4096 * 4096 ≤ _
    rw [← roundUp_page hrounds]
    split
    · next h0 => simp [h0]
    · exact le_rfl

theorem HeapRun.blocks (h : HeapRun s) : Blocks s := by
  induction h with
  | init mem mayReturnNull =>
    have hinv := Inv.initial mem mayReturnNull
    exact ⟨hinv.regions, hinv.large, fun h hh => absurd hh List.not_mem_nil⟩
  | request _ hrun ih => exact ((Request.serves ih _ _).elim hrun).1
  | deallocate _ hrun ih => exact (cverDeallocate_keeps ih _).elim hrun
  | @grow s s' c _ hrun ih =>
    rcases (populate_spec ih.regions c).elim hrun with ⟨⟨regions, rfl⟩, hok, -⟩
    exact ⟨hok, ih.large, ih.pages⟩
  | write mem _ ih => exact ih.of_same ⟨rfl, rfl⟩

/-! ## A heap that has a page -/

theorem populateFreeList_page :
    populateFreeList 32 ⟨0, 0, 0, 0⟩ = some ⟨65536, 384, 131072, 65536⟩ := by
  rw [populateFreeList_eq (by decide) (by decide)]
  decide +kernel

/-- The heap after the first growth of the class of pages. -/
def pageHeap : HeapState :=
  { initialHeap (fun _ => 0) false with
    regions := Function.update (fun _ => ⟨0, 0, 0, 0⟩) 32 ⟨65536, 384, 131072, 65536⟩ }

theorem pageHeap_run : HeapRun pageHeap := by
  have hinit : HeapRun (initialHeap (fun _ => 0) false) := .init _ _
  have hgrow : populate 32 (initialHeap (fun _ => 0) false) = some (⟨⟩, pageHeap) :=
    eval_of_wp (by simp [populate, initialHeap, populateFreeList_page, pageHeap])
  exact hinit.grow hgrow

/-- Where the rounding wraps, one page is allocated. -/
theorem pvalloc_pageHeap (h : 2 ^ 64 ≤ size.toNat + 4095) : ∃ s',
    pvalloc ⟨0, 0⟩ size pageHeap = some (0x640000000000, s') ∧ SameBlocks pageHeap s' := by
  have hpage : ∃ s', cverReallocate ⟨0, 0⟩ 0 kPageSize kPageSize false pageHeap =
      some (0x640000000000, s') ∧ SameBlocks pageHeap s' := ⟨_, rfl, rfl, rfl⟩
  rcases hpage with ⟨s', hrun, hsame⟩
  have hpow : isPowerOfTwo kPageSize = true := by decide
  refine ⟨s', eval_of_wp ?_, hsame⟩
  simp only [pvalloc, roundUpTo, wp_bind, wp_check, wp_pure, roundUp_wraps h, if_true]
  exact ⟨hpow, (wp_eval hrun).mpr ⟨rfl, rfl⟩⟩

/-! ## The result -/

/-- No chunk has room for the number of bytes that a wrapped request is about. -/
theorem not_hasRoom_wrapped (h : 2 ^ 64 ≤ size.toNat + 4095) (hlarge : s.large = []) :
    ¬ HasRoom s p (Request.pvalloc size).bytes := by
  intro hroom
  cases hroom with
  | chunk c i _ hc _ _ hn =>
    have hmax := chunkSize_le_max hc
    have hbytes : (Request.pvalloc size).bytes = (size.toNat + 4095) / 4096 * 4096 := rfl
    omega
  | mapping h hmem _ _ =>
    rw [hlarge] at hmem
    exact absurd hmem List.not_mem_nil

/-- Every block is as large and as aligned as it was asked for, in every state
that a run reaches, except where `pvalloc` rounds a size up to zero. -/
theorem request_sized_iff (req : Request) (hal : req.alignment.toNat.isPowerOfTwo) :
    req.Sized ↔ req.Rounds := by
  constructor
  · intro hsized
    cases req with
    | pvalloc size =>
      by_contra hwraps
      have hwraps' : 2 ^ 64 ≤ size.toNat + 4095 := Nat.not_lt.mp hwraps
      rcases pvalloc_pageHeap hwraps' with ⟨s', hrun, hsame⟩
      have hblock := hsized _ _ _ _ pageHeap_run hrun (by decide)
      exact not_hasRoom_wrapped hwraps' hsame.2 hblock.2
    | _ => trivial
  · intro hrounds s s' choice r hs hrun h0
    have hserves := ((req.serves hs.blocks choice).elim hrun).2 hrounds h0
    exact ⟨hserves.1 hal, hserves.2⟩

/-- Blocks of 100 bytes at multiples of 64. -/
theorem request_sized_memalign : (Request.memalign 64 100).Sized :=
  (request_sized_iff (.memalign 64 100) ⟨6, by decide⟩).mpr trivial

/-- The largest size of all, for which one page is handed out. -/
theorem pvalloc_undersized : ∃ (s s' : HeapState) (choice : Choice) (r : Uptr), HeapRun s ∧
    pvalloc choice 0xFFFFFFFFFFFFFFFF s = some (r, s') ∧ r ≠ 0 ∧ HasRoom s' r 4096 ∧
    ¬ HasRoom s' r (Request.pvalloc 0xFFFFFFFFFFFFFFFF).bytes := by
  have hwraps : 2 ^ 64 ≤ (0xFFFFFFFFFFFFFFFF : Uptr).toNat + 4095 := by decide
  rcases pvalloc_pageHeap hwraps with ⟨s', hrun, hsame⟩
  have hpage : HasRoom pageHeap 0x640000000000 4096 :=
    .chunk 32 0 (by decide) (by decide) (by decide) (by decide) (by decide)
  exact ⟨pageHeap, s', ⟨0, 0⟩, 0x640000000000, pageHeap_run, hrun, by decide, hpage.of_same hsame,
    not_hasRoom_wrapped hwraps hsame.2⟩

/-! ## The tracked heap -/

variable {flags : Flags}

theorem handleNew_mem (typeTable pointer numElements : Uptr) :
    wlp (handleNew flags typeTable pointer numElements)
      (fun _ s' => ∃ mem, s' = { s with mem := mem }) s := by
  simp only [Runtime.handleNew, setCverTypeTableAndNumElements, getCverMetaData, storeWord,
    wlp_ite, wlp_bind, wlp_get, wlp_modify, wlp_pure]
  split_ifs <;> exact ⟨_, rfl⟩

theorem HeapRun.call (h : HeapRun s) (call : Call) (choice : Choice) :
    wlp (call.run flags choice) (fun _ s' => HeapRun s') s := by
  have hrequest : ∀ req : Request, wlp (req.run choice) (fun _ s' => HeapRun s') s :=
    fun req _ _ hrun => h.request hrun
  have hfree : ∀ p, wlp (cverDeallocate p) (fun _ s' => HeapRun s') s :=
    fun p _ _ hrun => h.deallocate hrun
  cases call with
  | malloc size => exact hrequest (.malloc size)
  | calloc nmemb size => exact hrequest (.calloc nmemb size)
  | realloc ptr size => exact hrequest (.realloc ptr size)
  | memalign boundary size => exact hrequest (.memalign boundary size)
  | operatorNew size => exact hrequest (.operatorNew size)
  | free ptr =>
    simp only [Call.run, Runtime.free, wlp_bind, wlp_ite, wlp_pure]
    split
    · exact h
    · exact hfree ptr
  | operatorDelete ptr =>
    simp only [Call.run, Runtime.operatorDelete, wlp_bind, wlp_ite, wlp_pure]
    split
    · exact hfree ptr
    · exact h
  | handleNew typeTable pointer numElements =>
    rw [Call.run, wlp_bind]
    refine (handleNew_mem typeTable pointer numElements).mono ?_
    rintro _ _ ⟨mem, rfl⟩
    rw [wlp_pure]
    exact h.write mem

/-- The states of the tracked heap are among those of these runs. -/
theorem Reachable.heapRun {l : Ledger} (h : Reachable flags s l) : HeapRun s := by
  induction h with
  | init mem mayReturnNull => exact .init mem mayReturnNull
  | call _ _ hrun ih => exact (ih.call _ _).elim hrun
  | grow _ hrun ih => exact ih.grow hrun
  | write a v _ _ ih => exact ih.write _

end Caver.Runtime
