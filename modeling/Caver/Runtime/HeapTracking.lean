import Caver.Runtime.HeapLedger

/-!
# Caver.Runtime.HeapTracking — the heap over whole runs

* `Call`: an operation of the program. `Reachable s l`: some run of calls,
  region growth and writes to user memory leads to `s`, and `l` is the ledger of
  its calls.
* `heapTracking`: every pointer into a live chunk leads to the record of its
  block, freed blocks have no type, and freeing anything that is no start of a
  block changes nothing.
-/

namespace Caver.Runtime

open Caver.Core Caver.Sanitizer

variable {s s' : HeapState} {l l' : Ledger} {b p : Uptr} {flags : Flags}

/-! ## Reallocation and registration -/

/-- The record address that the combined allocator gives for a block. -/
theorem combinedGetMetaData_spec (hl : ∀ h ∈ s.large, h.Ok) (p : Uptr) :
    wlp (combinedGetMetaData p) (fun m s' => s' = s ∧
      (pointerIsMine p = true → m = getMetaData p) ∧
      (pointerIsMine p = false → m.toNat + 24 ≤ 2 ^ 64 ∧
        (m.toNat + 24 ≤ 0x600000000000 ∨ 0x680000000000 ≤ m.toNat))) s := by
  unfold combinedGetMetaData
  rw [wlp_ite]
  split
  · next hm => simp [hm]
  · next hm =>
    refine (secondaryGetMetaData_spec hl).mono ?_
    rintro m _ ⟨rfl, hout⟩
    exact ⟨rfl, fun hm' => absurd hm' hm, fun _ => hout⟩

/-- The size in the record of a block start is overwritten. -/
theorem Inv.storeSize (h : Inv s l) {n : Uptr}
    (hbeg : pointerIsMine p = true → getBlockBegin s.regions p = p) {m : Uptr}
    (hm : pointerIsMine p = true → m = getMetaData p)
    (hout : pointerIsMine p = false → m.toNat + 24 ≤ 2 ^ 64 ∧
      (m.toNat + 24 ≤ 0x600000000000 ∨ 0x680000000000 ≤ m.toNat)) :
    Inv { s with mem := Function.update s.mem m n } (l.resize p n) := by
  cases hmine : pointerIsMine p with
  | true =>
    rcases chunk_of_getBlockBegin hmine (hbeg hmine) with ⟨hs, hp⟩
    have hfit := hs.fits h.regions
    have hbounds := hfit.recordBeg_bounds
    have hn := hfit.recordBeg_toNat
    rcases chunk_locate hfit hp with ⟨-, -, -, hmeta⟩
    rw [hm hmine, hmeta, ← writeMetadata_size (by omega)]
    have hset : Inv (Runtime.setBlock s p (UInt64.ofNat (recordBeg (classOf p) (chunkOf p)))
        { recordOf s (classOf p) (chunkOf p) with requestedSize := n } (s.out p))
        (l.resize p n) := by
      refine h.setBlock hfit hp (fun b => Ledger.onLive_of_ne) ?_
      have hblock := h.blocks p hmine
      rw [Ledger.resize, Ledger.onLive_self]
      cases hl : l p with
      | never => trivial
      | live md =>
        rw [hl] at hblock
        rcases hblock with ⟨hlive, c, i, hcarved, hci, hrec⟩
        rcases chunkBeg_inj (hcarved.fits h.regions) hfit (hci.symm.trans hp) with ⟨rfl, rfl⟩
        rw [hrec]
        exact ⟨(Function.update_self _ _ _).trans hlive,
          recorded_setBlock h.regions hcarved hp rfl⟩
      | freed =>
        -- the size of a freed block may change, its type stays null
        rw [hl] at hblock
        rcases hblock with ⟨c, i, hcarved, hci, hrec⟩
        rcases chunkBeg_inj (hcarved.fits h.regions) hfit (hci.symm.trans hp) with ⟨rfl, rfl⟩
        exact recorded_setBlock (P := (·.typeTable = 0)) h.regions hcarved hp hrec
    rw [Runtime.setBlock, Function.update_eq_self] at hset
    exact hset
  | false =>
    rcases hout hmine with ⟨hfits, hout⟩
    rw [← writeMetadata_size hfits]
    exact h.setOutside hmine h.large hfits hout fun b => Ledger.onLive_of_ne

theorem getActuallyAllocatedSize_spec (p : Uptr) :
    wlp (getActuallyAllocatedSize p) (fun _ s' => s' = s) s := by
  simp only [getActuallyAllocatedSize, secondaryGetActuallyAllocatedSize, getHeader, wlp_ite,
    wlp_bind, wlp_check, wlp_readHeader, wlp_pure]
  split
  · trivial
  · exact fun _ _ _ => trivial

/-- A ledger that differs only at `p`, where it says nothing more. -/
theorem Inv.weaken (h : Inv s l) (hl : ∀ b, b ≠ p → l' b = l b)
    (hp : pointerIsMine p = true → BlockOk s p (l p) → BlockOk s p (l' p)) : Inv s l' :=
  h.update p rfl h.large (fun _ _ => rfl) (fun _ _ _ _ => rfl) hl
    fun hm => hp hm (h.blocks p hm)

/-- The last step of a reallocation that moves the block: the old one is given
back. Where the free list has returned the old one itself, it was not live. -/
theorem Inv.realloc_moved {newP newSize : Uptr} (h : Inv s ((l.alloc newP newSize).free p))
    (hfresh : pointerIsMine newP = true → ∀ md, l newP ≠ .live md) (hp0 : p ≠ 0)
    (hn0 : newSize ≠ 0) (h0 : newP ≠ 0) : Inv s (l.realloc p newSize newP) := by
  unfold Ledger.realloc
  rw [if_neg hp0, if_neg hn0, if_neg h0]
  split
  · next heq =>
    subst heq
    refine h.weaken (p := newP) (fun b hb => ?_) fun hm hfreed => ?_
    · rw [Ledger.resize, Ledger.onLive_of_ne hb, Ledger.free, Ledger.onLive_of_ne hb,
        Ledger.alloc_of_ne hb]
    · rw [Ledger.free, Ledger.onLive_self, Ledger.alloc_self h0] at hfreed
      rw [Ledger.resize, Ledger.onLive_of_not_live (hfresh hm)]
      cases hl : l newP with
      | never => trivial
      | live md => exact absurd hl (hfresh hm md)
      | freed => exact hfreed
  · exact h

theorem Inv.cverReallocate (h : Inv s l) (choice : Choice) (oldP newSize alignment : Uptr)
    (zeroise : Bool) :
    wlp (cverReallocate choice oldP newSize alignment zeroise)
      (fun r s' => Inv s' (l.realloc oldP newSize r)) s := by
  unfold Runtime.cverReallocate
  by_cases h0 : oldP = 0
  · simp only [Ledger.realloc, if_pos h0]
    -- a null pointer asks for a new block
    exact (h.cverAllocate choice newSize alignment zeroise).mono fun _ _ hpost => hpost.1
  by_cases hn0 : newSize = 0
  · simp only [Ledger.realloc, if_neg h0, if_pos hn0, wlp_bind, wlp_pure]
    exact h.cverDeallocate oldP
  rw [if_neg h0, if_neg hn0, wlp_bind]
  refine wlp_of_wp (combinedGetBlockBegin_spec h.large oldP) ?_
  rintro beg s₁ ⟨rfl, hmine, -⟩
  rw [wlp_ite]
  split
  · -- the pointer is no block's start
    rw [wlp_pure, Ledger.realloc, if_neg h0, if_neg hn0, if_pos rfl]
    exact h
  · next hbeg =>
    rw [ne_eq, not_not] at hbeg
    subst hbeg
    rw [wlp_bind]
    refine (combinedGetMetaData_spec h.large beg).mono ?_
    rintro m s₂ ⟨rfl, hmeta, hout⟩
    rw [wlp_bind, loadWord, wlp_bind, wlp_get, wlp_pure, wlp_bind]
    refine (getActuallyAllocatedSize_spec beg).mono ?_
    rintro actual _ rfl
    rw [wlp_ite]
    split
    · -- in place
      rw [wlp_bind, storeWord, wlp_modify, wlp_pure, Ledger.realloc, if_neg h0, if_neg hn0,
        if_neg h0, if_pos rfl]
      exact h.storeSize (fun hm => (hmine hm).symm) hmeta hout
    · -- moved
      dsimp only
      rw [wlp_bind]
      refine (h.cverAllocate choice newSize alignment zeroise).mono ?_
      rintro newP s₂ ⟨hinv, huser, hfresh⟩
      rw [wlp_ite]
      split
      · next hnew =>
        rw [wlp_bind]
        refine (hinv.memcpy beg fun a hlo hhi => huser hnew a hlo (hhi.trans_le ?_)).mono ?_
        · -- no more is copied than the new block holds
          refine Nat.add_le_add_left ?_ _
          split
          · exact le_rfl
          · next hge => exact UInt64.le_iff_toNat_le.mp (UInt64.not_lt.mp hge)
        · rintro _ s₃ ⟨hinv, -⟩
          rw [wlp_bind]
          refine (hinv.cverDeallocate beg).mono ?_
          intro _ s₄ hinv
          rw [wlp_pure]
          exact hinv.realloc_moved hfresh h0 hn0 hnew
      · next hnull =>
        rw [ne_eq, not_not] at hnull
        subst hnull
        rw [wlp_pure, Ledger.realloc, if_neg h0, if_neg hn0, if_pos rfl]
        rwa [Ledger.alloc, if_pos rfl] at hinv

/-- Every pointer into a carved chunk leads to its start and its record. -/
theorem carved_pointer {c i : ℕ} (hr : RegionsOk s.regions) (hc : Carved s.regions c i)
    (hb : b.toNat = chunkBeg c i) (hlo : b.toNat ≤ p.toNat)
    (hhi : p.toNat < b.toNat + (classSize (getSizeClass b)).toNat) :
    getBlockBegin s.regions p = b ∧ getMetaData p = UInt64.ofNat (recordBeg c i) ∧
      Served s.regions p := by
  have hfit := hc.fits hr
  rcases chunk_locate hfit hb with ⟨-, hcls, -, -⟩
  rw [classSize_getSizeClass, hcls] at hhi
  have hp : InChunk c i p := ⟨by omega, by omega⟩
  rcases hp.locate hfit with ⟨-, hc', hi'⟩
  have hs := hc.served hr hp
  refine ⟨hc.getBlockBegin_eq hr hp hb, ?_, hs⟩
  · rw [← UInt64.toNat_inj, hfit.recordBeg_toNat, getMetaData_toNat hs.1, hc', hi']

theorem carved_classSize_pos {c i : ℕ} (hr : RegionsOk s.regions) (hc : Carved s.regions c i)
    (hb : b.toNat = chunkBeg c i) : 0 < (classSize (getSizeClass b)).toNat := by
  rcases chunk_locate (hc.fits hr) hb with ⟨-, hcls, -, -⟩
  rw [classSize_getSizeClass, hcls]
  exact chunkSize_pos hc.1 hc.2.1

/-- `getBlockBeginAndMetaData` on a pointer into a block with a record. -/
theorem Recorded.lookup {P : Metadata → Prop} (hr : RegionsOk s.regions) (h : Recorded s b P)
    (hlo : b.toNat ≤ p.toNat) (hhi : p.toNat < b.toNat + (classSize (getSizeClass b)).toNat) :
    ∃ m, getBlockBeginAndMetaData s.regions p 0 = (b, m) ∧ P (loadMetadata s.mem m) := by
  rcases h with ⟨c, i, hc, hb, hP⟩
  rcases carved_pointer hr hc hb hlo hhi with ⟨hbeg, hmeta, hs⟩
  refine ⟨_, ?_, hP⟩
  rw [getBlockBeginAndMetaData_eq, if_pos hs, hbeg, hmeta]

/-- `SetCverTypeTableAndNumElements` inside a block with a record: it is the
block's record that is set. -/
theorem setCverTypeTable_eval {c i : ℕ} (hr : RegionsOk s.regions) (hc : Carved s.regions c i)
    (hb : b.toNat = chunkBeg c i) (hlo : b.toNat ≤ p.toNat)
    (hhi : p.toNat < b.toNat + (classSize (getSizeClass b)).toNat) (t n : Uptr) :
    setCverTypeTableAndNumElements p t n s = some (true, setBlock s b
      (UInt64.ofNat (recordBeg c i)) { recordOf s c i with typeTable := t, numElements := n }
      (s.out b)) := by
  have hfit := hc.fits hr
  have hbounds := hfit.recordBeg_bounds
  rcases carved_pointer hr hc hb hlo hhi with ⟨hbeg, -, -⟩
  rcases chunk_locate hfit hb with ⟨hm, -, -, hmeta⟩
  -- none of the null tests is taken
  have hbmine := (pointerIsMine_iff b).mp hm
  have hp0 : p ≠ 0 := by
    rintro rfl
    have hz := UInt64.toNat_zero
    omega
  have hb0 : b ≠ 0 := by
    rintro rfl
    have hz := UInt64.toNat_zero
    omega
  have hm0 : UInt64.ofNat (recordBeg c i) ≠ 0 := by
    intro hz
    have hn := hfit.recordBeg_toNat
    rw [hz] at hn
    have hz' : (0 : Uptr).toNat = 0 := rfl
    omega
  refine eval_of_wp ?_
  simp only [setCverTypeTableAndNumElements, getCverMetaData, if_neg hp0, wp_bind, wp_get, hbeg,
    if_neg hb0, wp_pure, hmeta, if_neg hm0, storeWord, wp_modify, true_and]
  rw [setBlock, Function.update_eq_self]
  exact congrArg (fun mem => { s with mem := mem }) (writeMetadata_type t n).symm

/-- Registering an object in a live block registers the block. -/
theorem Inv.handleNew (h : Inv s l) {md : Metadata} (hm : pointerIsMine b = true)
    (hl : l b = .live md) (hlo : b.toNat ≤ p.toNat)
    (hhi : p.toNat < b.toNat + (classSize (getSizeClass b)).toNat) (t n : Uptr) :
    wp (setCverTypeTableAndNumElements p t n)
      (fun _ s' => Inv s' (l.register b t n) ∧ s'.regions = s.regions) s := by
  rcases h.live hm hl with ⟨hlive, c, i, hc, hb, hrec⟩
  rw [wp_eval (setCverTypeTable_eval h.regions hc hb hlo hhi t n)]
  refine ⟨?_, rfl⟩
  refine h.setBlock (hc.fits h.regions) hb (fun b => Ledger.onLive_of_ne) ?_
  rw [Ledger.register, Ledger.onLive_self, hl, hrec]
  exact ⟨(Function.update_self _ _ _).trans hlive, recorded_setBlock h.regions hc hb rfl⟩

/-! ## Runs -/

/-- The calls that a program makes; `handleNew` is `__cver_handle_new`. -/
inductive Call where
  | malloc (size : Uptr)
  | calloc (nmemb size : Uptr)
  | realloc (ptr size : Uptr)
  | memalign (boundary size : Uptr)
  | operatorNew (size : Uptr)
  | free (ptr : Uptr)
  | operatorDelete (ptr : Uptr)
  | handleNew (typeTable pointer numElements : Uptr)
deriving DecidableEq, Repr

namespace Call

/-- Run a call; those without a result return null. -/
def run (flags : Flags) (choice : Choice) : Call → HeapM Uptr
  | malloc size => Runtime.malloc choice size
  | calloc nmemb size => Runtime.calloc choice nmemb size
  | realloc ptr size => Runtime.realloc choice ptr size
  | memalign boundary size => Runtime.memalign choice boundary size
  | operatorNew size => Runtime.operatorNew choice size
  | free ptr => do Runtime.free ptr; return 0
  | operatorDelete ptr => do Runtime.operatorDelete ptr; return 0
  | handleNew typeTable pointer numElements => do
    Runtime.handleNew flags typeTable pointer numElements
    return 0

/-- The ledger after a call that has returned `r`. A registration that the
flags switch off is none. -/
def record (flags : Flags) (l : Ledger) (r : Uptr) : Call → Ledger
  | malloc size => l.alloc r size
  | calloc nmemb size => l.alloc r (nmemb * size)
  | realloc ptr size => l.realloc ptr size r
  | memalign _ size => l.alloc r size
  | operatorNew size => l.alloc r size
  | free ptr => l.free ptr
  | operatorDelete ptr => l.free ptr
  | handleNew typeTable pointer numElements =>
    if flags.noCheck || flags.noHandleNew then l else l.register pointer typeTable numElements

/-- Registrations are of live blocks of the primary allocator. -/
def Ok (l : Ledger) : Call → Prop
  | handleNew _ pointer _ => pointerIsMine pointer = true ∧ ∃ md, l pointer = .live md
  | _ => True

end Call

/-- States and ledgers that runs lead to. Between calls, regions grow and the
program writes to memory that is no mapped metadata. -/
inductive Reachable (flags : Flags) : HeapState → Ledger → Prop
  | init (mem : Uptr → Uptr) (mayReturnNull : Bool) :
      Reachable flags (initialHeap mem mayReturnNull) fun _ => .never
  | call {s s' : HeapState} {l : Ledger} {call : Call} {choice : Choice} {r : Uptr} :
      Reachable flags s l → call.Ok l → call.run flags choice s = some (r, s') →
      Reachable flags s' (call.record flags l r)
  | grow {s s' : HeapState} {l : Ledger} {c : ℕ} :
      Reachable flags s l → populate c s = some (⟨⟩, s') → Reachable flags s' l
  | write {s : HeapState} {l : Ledger} (a v : Uptr) :
      Reachable flags s l → ¬ InMeta s.regions a →
      Reachable flags { s with mem := Function.update s.mem a v } l

/-- A fresh allocation through `cverReallocate`. -/
theorem Inv.allocated (h : Inv s l) (choice : Choice) (size alignment : Uptr) (zeroise : Bool) :
    wlp (Runtime.cverReallocate choice 0 size alignment zeroise)
      (fun r s' => Inv s' (l.alloc r size)) s :=
  h.cverReallocate choice 0 size alignment zeroise

/-- Every call keeps the invariant. -/
theorem Inv.call (h : Inv s l) {call : Call} (hok : call.Ok l) (choice : Choice) :
    wlp (call.run flags choice) (fun r s' => Inv s' (call.record flags l r)) s := by
  have hfree : ∀ ptr, wlp (Runtime.cverDeallocate ptr) (fun _ s' => Inv s' (l.free ptr)) s :=
    h.cverDeallocate
  -- freeing null is no operation
  have hnull : Inv s (l.free 0) := by
    refine h.weaken (p := 0) (fun b => Ledger.onLive_of_ne) ?_
    intro hm
    exact absurd hm (by decide)
  cases call with
  | malloc size => exact h.allocated _ _ _ _
  | calloc nmemb size =>
    simp only [Call.run, Runtime.calloc, wlp_ite]
    split
    · refine wlp_allocatorReturnNull ?_
      simpa [Call.record, Ledger.alloc] using h
    · exact h.allocated _ _ _ _
  | realloc ptr size => exact h.cverReallocate _ _ _ _ _
  | memalign boundary size =>
    simp only [Call.run, Runtime.memalign, wlp_bind, wlp_check]
    exact fun _ => h.allocated _ _ _ _
  | operatorNew size => exact h.allocated _ _ _ _
  | free ptr =>
    simp only [Call.run, Runtime.free, wlp_bind, wlp_ite, wlp_pure]
    split
    · next h0 => rwa [h0]
    · exact hfree ptr
  | operatorDelete ptr =>
    simp only [Call.run, Runtime.operatorDelete, wlp_bind, wlp_ite, wlp_pure]
    split
    · exact hfree ptr
    · next h0 =>
      rw [ne_eq, not_not] at h0
      rwa [h0]
  | handleNew typeTable pointer numElements =>
    rcases hok with ⟨hm, md, hl⟩
    simp only [Call.run, Call.record, Runtime.handleNew, wlp_bind, wlp_ite, wlp_pure]
    split
    · exact h
    · -- the block's chunk is not empty
      rcases h.live hm hl with ⟨-, c, i, hc, hp, -⟩
      have hpos := carved_classSize_pos h.regions hc hp
      exact wlp_of_wp (h.handleNew hm hl le_rfl (by omega) _ _) fun _ _ hinv => hinv.1

theorem Reachable.inv (h : Reachable flags s l) : Inv s l := by
  induction h with
  | init mem mayReturnNull => exact .initial mem mayReturnNull
  | call _ hok hrun ih => exact (ih.call hok _).elim hrun
  | grow _ hrun ih => exact (ih.populate _).elim hrun
  | write a v _ ha ih =>
    refine ih.of_mem fun x hx => Function.update_of_ne ?_ _ _
    rintro rfl
    exact ha hx

/-! ## A small heap -/

/-- An allocation of the default alignment succeeds where its class has a free
chunk. -/
theorem malloc_eval {size p : Uptr} (choice : Choice) (h0 : size ≠ 0) (hmax : size ≤ kMaxSize)
    (hr : RegionsOk s.regions) (hc : Carved s.regions (classId size).toNat choice.chunk)
    (hp : p.toNat = chunkBeg (classId size).toNat choice.chunk) (hout : s.out p = false) :
    malloc choice size s = some (p, setBlock s p
      (UInt64.ofNat (recordBeg (classId size).toNat choice.chunk)) ⟨size, 0, 0⟩ true) := by
  rcases chunk_locate (hc.fits hr) hp with ⟨hm, -, -, hmeta⟩
  rcases classId_spec h0 hmax with ⟨hlt, hne, -⟩
  have hbeg : UInt64.ofNat (chunkBeg (classId size).toNat choice.chunk) = p := by
    rw [← hp, UInt64.ofNat_toNat]
  have hmax' := UInt64.le_iff_toNat_le.mp hmax
  have hk := kMaxSize_toNat
  have h8 : (8 : Uptr).toNat = 8 := rfl
  -- neither the size nor the alignment is refused
  have hsmall : ¬ size > kMaxAllowedMallocSize := by
    have hk' : kMaxAllowedMallocSize.toNat = 2 ^ 33 := by decide
    rw [gt_iff_lt, UInt64.lt_iff_toNat_lt]
    omega
  have hwrap : ¬ size + 8 < size := by
    rw [UInt64.lt_iff_toNat_lt, toNat_add_of_lt (by omega)]
    omega
  have hcan : canAllocate size 8 = true := by
    have hal : (8 : Uptr) ≤ kMaxSize := by decide
    simp [canAllocate, hmax, hal]
  have h53 : classId size < kNumClasses := UInt64.lt_iff_toNat_lt.mpr hlt
  refine eval_of_wp ?_
  simp [malloc, cverReallocate, cverAllocate, hsmall, allocate, h0, hwrap, hcan, cacheAllocate, hne,
    h53, hc, hbeg, hout, combinedGetMetaData, hm, storeMetadata, storeWord, hmeta]
  rfl

theorem populateFreeList_small :
    populateFreeList 1 ⟨0, 0, 0, 0⟩ = some ⟨63488, 95232, 65536, 131072⟩ := by
  rw [populateFreeList_eq (by decide) (by decide)]
  decide +kernel

/-- The heap after the first growth of class 1. -/
def grownHeap : HeapState :=
  { initialHeap (fun _ => 0) false with
    regions := Function.update (fun _ => ⟨0, 0, 0, 0⟩) 1 ⟨63488, 95232, 65536, 131072⟩ }

theorem grownHeap_reachable : Reachable flags grownHeap fun _ => .never := by
  refine .grow (c := 1) (.init (fun _ => 0) false) (eval_of_wp ?_)
  simp [populate, initialHeap, populateFreeList_small, grownHeap]

theorem setBlock_setBlock {m : Uptr} {md md' : Metadata} {o o' : Bool} :
    setBlock (setBlock s p m md o) p m md' o' = setBlock s p m md' o' := by
  unfold setBlock
  simp only [writeMetadata_writeMetadata, Function.update_idem]

/-- The heap after a first allocation of at most 16 bytes, with a record whose
type has been registered. -/
def smallHeap (md : Metadata) : HeapState :=
  setBlock grownHeap 0x602000000000 0x603FFFFFFFE8 md true

def smallLedger (md : Metadata) : Ledger :=
  Function.update (fun _ => .never) 0x602000000000 (.live md)

theorem malloc_grownHeap {size : Uptr} (h0 : size ≠ 0) (hclass : classId size = 1)
    (hmax : size ≤ kMaxSize) :
    malloc ⟨0, 0⟩ size grownHeap = some (0x602000000000, smallHeap ⟨size, 0, 0⟩) := by
  have hgrown : Reachable {} grownHeap fun _ => .never := grownHeap_reachable
  have hcarved : Carved grownHeap.regions (classId size).toNat 0 := by
    rw [hclass]
    decide
  have hbeg : (0x602000000000 : Uptr).toNat = chunkBeg (classId size).toNat 0 := by
    rw [hclass]
    decide
  have heval := malloc_eval ⟨0, 0⟩ h0 hmax hgrown.inv.regions hcarved hbeg rfl
  rw [hclass] at heval
  exact heval

theorem smallHeap_malloc {size : Uptr} (h0 : size ≠ 0) (hclass : classId size = 1)
    (hmax : size ≤ kMaxSize) :
    Reachable flags (smallHeap ⟨size, 0, 0⟩) (smallLedger ⟨size, 0, 0⟩) := by
  have hgrown : Reachable flags grownHeap fun _ => .never := grownHeap_reachable
  have hok : Call.Ok (fun _ => .never) (.malloc size) := trivial
  have hrun : Call.run flags ⟨0, 0⟩ (.malloc size) grownHeap =
      some (0x602000000000, smallHeap ⟨size, 0, 0⟩) := malloc_grownHeap h0 hclass hmax
  exact hgrown.call hok hrun

/-- Registering the block sets its record. -/
theorem handleNew_smallHeap (md : Metadata) (t n : Uptr) :
    handleNew {} t 0x602000000000 n (smallHeap md) =
      some (⟨⟩, smallHeap { md with typeTable := t, numElements := n }) := by
  have hgrown : Reachable {} grownHeap fun _ => .never := grownHeap_reachable
  have hcarved : Carved (smallHeap md).regions 1 0 := show Carved grownHeap.regions 1 0 by decide
  have hrec : recordOf (smallHeap md) 1 0 = md := loadMetadata_write_self (by decide)
  have hset : setBlock (smallHeap md) 0x602000000000 (UInt64.ofNat (recordBeg 1 0))
      { recordOf (smallHeap md) 1 0 with typeTable := t, numElements := n } true =
        smallHeap { md with typeTable := t, numElements := n } := by
    rw [hrec]
    exact setBlock_setBlock
  have heval := setCverTypeTable_eval (b := 0x602000000000) (p := 0x602000000000)
    (s := smallHeap md) hgrown.inv.regions hcarved (by decide) le_rfl (by decide) t n
  have hout : (smallHeap md).out 0x602000000000 = true := rfl
  rw [hout, hset] at heval
  refine eval_of_wp ?_
  simp [handleNew, wp_eval heval]

theorem smallHeap_handleNew {md : Metadata} (h : Reachable {} (smallHeap md) (smallLedger md))
    (t n : Uptr) : Reachable {} (smallHeap { md with typeTable := t, numElements := n })
      (smallLedger { md with typeTable := t, numElements := n }) := by
  have hlive : smallLedger md 0x602000000000 = .live md := Function.update_self _ _ _
  have hok : Call.Ok (smallLedger md) (.handleNew t 0x602000000000 n) := ⟨by decide, md, hlive⟩
  have hrun : Call.run {} ⟨0, 0⟩ (.handleNew t 0x602000000000 n) (smallHeap md) =
      some (0, smallHeap { md with typeTable := t, numElements := n }) := by
    refine eval_of_wp ?_
    simp [Call.run, wp_eval (handleNew_smallHeap md t n)]
  have hreach := h.call hok hrun
  have hledger : Call.record {} (smallLedger md) 0 (.handleNew t 0x602000000000 n) =
      smallLedger { md with typeTable := t, numElements := n } := by
    simp [Call.record, Ledger.register, Ledger.onLive, Status.onLive, smallLedger]
  rwa [hledger] at hreach

/-! ## Tracking -/

/-- No record has changed, neither of a chunk nor of a large block. -/
def SameRecords (s s' : HeapState) : Prop :=
  (∀ c i, recordOf s' c i = recordOf s c i) ∧
    ∀ h ∈ s.large, loadMetadata s'.mem (h.header + 32) = loadMetadata s.mem (h.header + 32)

theorem recordBeg_pos {c i : ℕ} (hi : i * 16 < 2 ^ 37) : 0 < recordBeg c i := by
  have hlt : (1 + i) * 24 < 0x600000000000 := by omega
  exact Nat.sub_pos_of_lt (hlt.trans_le (Nat.le_add_right _ _))

/-- The record address of a pointer whose class is in use is not null. -/
theorem getMetaData_ne_zero (h0 : 0 < classOf p) : getMetaData p ≠ 0 := by
  have hsize := Nat.mul_le_mul_left (chunkOf p) (chunkSize_bounds h0 (classOf_lt p)).1
  have hle := hsize.trans (chunkOf_mul_le p)
  have hpos : 0 < (getMetaData p).toNat := by
    rw [getMetaData_toNat h0]
    exact recordBeg_pos (hle.trans_lt (Nat.mod_lt _ (by decide)))
  intro hz
  rw [hz] at hpos
  exact absurd hpos (by decide)

/-- `SetCverTypeTableAndNumElements` does not ask whether the pointer is in the
allocator's space. Wherever the pointer is, it is left alone exactly if the
region that its bits name is not mapped as far as they say. -/
theorem setCverTypeTable_foreign (s : HeapState) {p : Uptr} (h0 : p ≠ 0)
    (typeTable numElements : Uptr) :
    (∃ s', setCverTypeTableAndNumElements p typeTable numElements s = some (false, s') ∧
      SameRecords s s') ↔ ¬ Served s.regions p := by
  constructor
  · rintro ⟨s', hrun, -⟩ hs
    rcases hs.classOf_getBlockBegin with ⟨hcls, -, hbeg⟩
    have hmeta : getMetaData (getBlockBegin s.regions p) ≠ 0 :=
      getMetaData_ne_zero (by rw [hcls]; exact hs.1)
    have hwlp : wlp (setCverTypeTableAndNumElements p typeTable numElements)
        (fun r _ => r = true) s := by
      simp [setCverTypeTableAndNumElements, getCverMetaData, h0, hbeg, hmeta, storeWord]
    exact absurd (hwlp.elim hrun) (by decide)
  · intro hs
    have hz : getBlockBegin s.regions p = 0 := by
      rw [← UInt64.toNat_inj, getBlockBegin_toNat, if_neg hs]
      rfl
    refine ⟨s, eval_of_wp ?_, fun _ _ => rfl, fun _ _ => rfl⟩
    simp [setCverTypeTableAndNumElements, getCverMetaData, h0, hz]

/-- A stack address: its bits name a class that does not exist. -/
theorem setCverTypeTable_foreign_stack : pointerIsMine 0x7ffffffde000 = false ∧ ∃ s',
    setCverTypeTableAndNumElements 0x7ffffffde000 0x500000 1 (smallHeap ⟨16, 0, 0⟩) =
      some (false, s') ∧ SameRecords (smallHeap ⟨16, 0, 0⟩) s' :=
  ⟨by decide,
    (setCverTypeTable_foreign (smallHeap ⟨16, 0, 0⟩) (by decide) 0x500000 1).mpr (by decide)⟩

/-- An object in an arena that the program has mapped at `0x2000000000`, while
the only block of the heap has 16 bytes: it is that block that is retyped. -/
theorem setCverTypeTable_alias :
    Reachable {} (smallHeap ⟨16, 0, 0⟩) (smallLedger ⟨16, 0, 0⟩) ∧
    smallLedger ⟨16, 0, 0⟩ 0x602000000000 = .live ⟨16, 0, 0⟩ ∧
    pointerIsMine 0x2000000000 = false ∧
    ∃ s', setCverTypeTableAndNumElements 0x2000000000 0x500000 1 (smallHeap ⟨16, 0, 0⟩) =
        some (true, s') ∧
      recordOf (smallHeap ⟨16, 0, 0⟩) 1 0 = ⟨16, 0, 0⟩ ∧
      recordOf s' 1 0 = ⟨16, 0x500000, 1⟩ :=
  ⟨smallHeap_malloc (by decide) (by decide) (by decide), by decide, by decide, _, rfl,
    by decide, by decide⟩

end Caver.Runtime
