import Caver.Runtime.Reallocation
import Caver.Sanitizer.RecordMapping

/-!
# Caver.Runtime.AllocationSize — the size that `malloc_usable_size` reports

Sizes are written to the record that the combined allocator names, and read
through the lookup of the primary allocator alone.

* `SizeReported s p size`: what a caller expects of the report on its block, now
  and in every state that has the same block (`SameBlock`).
* `sizeReported_iff`: chunks are reported right; for a large block the report is
  0, or the size in the record of some chunk.
-/

namespace Caver.Runtime

open Caver.Core Caver.Sanitizer

/-! ## The functions -/

def allocationSize (p : Uptr) : HeapM Uptr := do
  let m ← getCverMetaData p
  if m = 0 then return 0 else loadWord m

/-- `__sanitizer_get_allocated_size`. -/
def sanitizerGetAllocatedSize (p : Uptr) : HeapM Uptr := allocationSize p

def mallocUsableSize (ptr : Uptr) : HeapM Uptr := sanitizerGetAllocatedSize ptr

/-! ## What they report -/

variable {s : HeapState} {live : Live} {p m size : Uptr} {room : ℕ}

/-- A state in which the block at `p` is as it is in `s`. All else may be different:
other blocks, the memory that is not the block's own, and the regions, of which it
is only known that growth leads to them. -/
structure SameBlock (s : HeapState) (p : Uptr) (s' : HeapState) : Prop where
  laid : Laid s'
  grown : Grown s'.regions
  block : ∀ m room, Block s p m room →
    Block s' p m room ∧ ∀ a, OwnedBy p m room a → s'.mem a = s.mem a

/-- Both functions report at least `size` bytes for the block at `p`, and the same
in every state that has the same block there. -/
def SizeReported (s : HeapState) (p size : Uptr) : Prop :=
  ∃ v, size ≤ v ∧ ∀ s', SameBlock s p s' →
    allocationSize p s' = some (v, s') ∧ mallocUsableSize p s' = some (v, s')

/-- Some growth of the regions maps the chunk that the bits of `p` name. -/
def EverServed (p : Uptr) : Prop := ∃ regions, Grown regions ∧ Served regions p

/-! ### The regions of a run -/

/-- The code that runs between two growths of a region leaves all regions alone. -/
abbrev KeepsRegions {α : Type} (m : HeapM α) : Prop := Keeps HeapState.regions m

theorem cverAllocate_regions (choice : Choice) (n alignment : Uptr) (zeroise : Bool) :
    KeepsRegions (cverAllocate choice n alignment zeroise) := by
  intro s
  simp [cverAllocate, allocatorReturnNull, allocate, roundUpTo, cacheAllocate, secondaryAllocate,
    mmapOrDie, getHeader, combinedGetMetaData, secondaryGetMetaData, wlp_readHeader,
    storeMetadata, storeWord, memset, wlp_ite]

theorem combinedGetBlockBegin_regions (p : Uptr) : KeepsRegions (combinedGetBlockBegin p) := by
  intro s
  simp [combinedGetBlockBegin, secondaryGetBlockBegin, getUser, wlp_readHeader, wlp_ite]

theorem cverDeallocate_regions (p : Uptr) : KeepsRegions (cverDeallocate p) := by
  intro s
  simp [cverDeallocate, combinedGetBlockBegin, secondaryGetBlockBegin, getUser, getHeader,
    combinedGetMetaData, secondaryGetMetaData, wlp_readHeader, storeMetadata, storeWord,
    deallocate, cacheDeallocate, secondaryDeallocate, wlp_ite]

/-- A reallocation looks at the block, and then allocates and gives back. -/
theorem cverReallocate_regions (choice : Choice) (p n alignment : Uptr) (zeroise : Bool) :
    KeepsRegions (cverReallocate choice p n alignment zeroise) := by
  unfold cverReallocate
  refine .ite (cverAllocate_regions _ _ _ _) (.ite ?_ ?_)
  · exact .bind (cverDeallocate_regions p) fun _ => .pure 0
  refine .bind (combinedGetBlockBegin_regions p) fun _ => .ite (.pure 0) ?_
  refine .bind (fun s => by simp [combinedGetMetaData, secondaryGetMetaData, getHeader,
    wlp_readHeader, wlp_ite]) fun m => .bind (fun s => by simp [loadWord]) fun _ => ?_
  refine .bind (fun s => by simp [getActuallyAllocatedSize, secondaryGetActuallyAllocatedSize,
    getHeader, wlp_readHeader, wlp_ite]) fun _ => .ite ?_ ?_
  · exact .bind (fun s => by simp [storeWord]) fun _ => .pure p
  · refine .bind (cverAllocate_regions _ _ _ _) fun newP => .ite ?_ (.pure newP)
    exact .bind (fun s => by simp [memcpy]) fun _ =>
      .bind (cverDeallocate_regions p) fun _ => .pure newP

/-- Registration grows no region. -/
theorem setCverTypeTable_regions (typeTable numElements : Uptr) :
    wlp (setCverTypeTableAndNumElements p typeTable numElements)
      (fun _ s' => s'.regions = s.regions) s := by
  refine (setCverTypeTable_mem typeTable numElements).mono ?_
  rintro _ s' (rfl | ⟨-, rfl⟩)
  · rfl
  · rfl

/-- The regions of a run are grown from empty ones. -/
theorem LiveRun.grown (h : LiveRun s live) : Grown s.regions := by
  induction h with
  | init mem mayReturnNull => exact .init
  | reallocate _ _ hrun ih => exact ((cverReallocate_regions _ _ _ _ _ _).elim hrun).symm ▸ ih
  | deallocate _ _ hrun ih => exact ((cverDeallocate_regions _ _).elim hrun).symm ▸ ih
  | register _ hrun ih => exact ((setCverTypeTable_regions _ _).elim hrun).symm ▸ ih
  | @grow s s' live c _ hrun ih =>
    have hspec : wlp (Sanitizer.populate c) (fun _ s' => Grown s'.regions) s := by
      simp only [Sanitizer.populate, wlp_bind, wlp_check, wlp_get, Bool.and_eq_true,
        decide_eq_true_eq]
      rintro ⟨h0, hc⟩
      cases hpop : populateFreeList c (s.regions c) with
      | none => exact wlp_failure
      | some r =>
        rw [wlp_modify]
        exact ih.grow h0 hc hpop
    exact hspec.elim hrun
  | write mem _ _ ih => exact ih

/-- A state of a run is one of those that have its block. -/
theorem LiveRun.sameBlock (h : LiveRun s live) : SameBlock s p s :=
  ⟨h.inv.laid, h.grown, fun _ _ hb => ⟨hb, fun _ _ => rfl⟩⟩

/-! ### The reports -/

/-- The lookup that is used answers by the bits of the pointer. -/
theorem allocationSize_eval (h0 : p ≠ 0) :
    allocationSize p s =
      some (if Served s.regions p then s.mem (getMetaData p) else 0, s) := by
  refine eval_of_wp ?_
  by_cases hs : Served s.regions p
  · have hbeg := (getBlockBegin_ne_zero_iff s.regions p).mpr hs
    have hmeta := ((getBlockBeginAndMetaData_agrees s.regions p 0).2.1 hbeg).2
    have hm : getMetaData p ≠ 0 := getMetaData_ne_zero hs.1
    simp [allocationSize, getCverMetaData, h0, hbeg, hmeta, hm, loadWord, hs]
  · have hbeg : getBlockBegin s.regions p = 0 := by
      by_contra hne
      exact hs ((getBlockBegin_ne_zero_iff s.regions p).mp hne)
    simp [allocationSize, getCverMetaData, h0, hbeg, hs]

/-- The record of a chunk is found in every state that has the chunk. -/
theorem sizeReported_of_chunk (hs : Laid s) (hm : pointerIsMine p = true)
    (hp : LiveBlock s p size) : SizeReported s p size := by
  rcases hp with ⟨m, room, hb, hle, hsize⟩
  have h0 := hb.ne_zero hs
  refine ⟨size, UInt64.le_refl size, ?_⟩
  intro s' hsame
  rcases hsame.block m room hb with ⟨hb', hown⟩
  have hself := hown m (.inr ⟨Nat.le_refl _, by omega⟩)
  have hserved : Served s'.regions p ∧ getMetaData p = m := by
    cases hb' with
    | @chunk c i hc hq ho =>
      have hpos := chunkSize_pos hc.1 hc.2.1
      exact ⟨hc.served hsame.laid.regions (p := p) ⟨by omega, by omega⟩,
        (chunk_locate (hc.fits hsame.laid.regions) hq).2.2.2⟩
    | mapping hh hq =>
      rw [hq, hsame.laid.user_not_mine hh] at hm
      exact absurd hm (by decide)
  have heval : allocationSize p s' = some (size, s') := by
    rw [allocationSize_eval h0, if_pos hserved.1, hserved.2, hself, hsize]
  exact ⟨heval, heval⟩

/-- A large block is as it is while regions grow, and while memory changes that it
does not own. -/
theorem SameBlock.of_large (hs : Laid s) (hm : ¬ pointerIsMine p = true) {regions : Regions}
    (hgrown : Grown regions) (hserved : Served regions p) (v : Uptr) :
    SameBlock s p { s with
      regions := regions, mem := Function.update s.mem (getMetaData p) v } := by
  refine ⟨⟨hgrown.ok, hs.large, hs.apart⟩, hgrown, ?_⟩
  intro m room hb
  cases hb with
  | chunk hc hq ho => exact absurd (chunk_locate (hc.fits hs.regions) hq).1 hm
  | mapping hh hq =>
    refine ⟨.mapping hh hq, fun a ha => Function.update_of_ne ?_ _ _⟩
    -- the record that is read is in the primary space, the block is not
    rintro rfl
    subst hq
    have hbounds := (hserved.fits hgrown.ok).recordBeg_bounds
    have hmeta := getMetaData_toNat hserved.1
    have howns := (hs.large _ hh).owns ha
    have hout := (hs.large _ hh).outside
    omega

/-- The report on a live block is right for chunks of the primary allocator. On
a large block it is right only if nothing has been asked for, and the bits of its
address name no chunk that is ever mapped. -/
theorem sizeReported_iff (hrun : LiveRun s live) (hp : live p = some size) :
    SizeReported s p size ↔ pointerIsMine p = true ∨ (size = 0 ∧ ¬ EverServed p) := by
  have hinv := hrun.inv
  have hlive := hinv.live p size hp
  have h0 : p ≠ 0 := by
    rcases hlive with ⟨m, room, hb, -, -⟩
    exact hb.ne_zero hinv.laid
  constructor
  · rintro ⟨v, hv, hreport⟩
    by_cases hm : pointerIsMine p = true
    · exact .inl hm
    right
    have hnever : ¬ EverServed p := by
      rintro ⟨regions, hgrown, hserved⟩
      -- another block's record is read, and anything may be there
      have hthen := (hreport _ (.of_large hinv.laid hm hgrown hserved (v + 1))).1
      rw [allocationSize_eval h0] at hthen
      simp only [if_pos hserved, Option.some.injEq, Prod.mk.injEq, and_true,
        Function.update_self] at hthen
      exact absurd hthen (by simp)
    refine ⟨?_, hnever⟩
    have hnow := (hreport s hrun.sameBlock).1
    rw [allocationSize_eval h0, if_neg fun h => hnever ⟨_, hrun.grown, h⟩] at hnow
    simp only [Option.some.injEq, Prod.mk.injEq, and_true] at hnow
    rw [← hnow, UInt64.le_iff_toNat_le] at hv
    exact UInt64.toNat_inj.mp (Nat.le_zero.mp hv)
  · rintro (hm | ⟨rfl, hnever⟩)
    · exact sizeReported_of_chunk hinv.laid hm hlive
    · refine ⟨0, UInt64.le_refl 0, ?_⟩
      intro s' hsame
      have heval : allocationSize p s' = some (0, s') := by
        rw [allocationSize_eval h0, if_neg fun h => hnever ⟨_, hsame.grown, h⟩]
      exact ⟨heval, heval⟩

/-- The small block has its 16 bytes reported. -/
theorem sizeReported_small : SizeReported (smallHeap ⟨16, 0, 0⟩) 0x602000000000 16 := by
  have hlive : Live.realloc (fun _ => none) 0 16 0x602000000000 0x602000000000 = some 16 := by
    decide
  exact (sizeReported_iff smallHeap_liveRun hlive).mpr (.inl (by decide))

/-- A block of 200000 bytes is reported to have none. -/
theorem sizeReported_large : ∃ s live, LiveRun s live ∧ live 0x7f0000001000 = some 200000 ∧
    mallocUsableSize 0x7f0000001000 s = some (0, s) ∧
    ¬ SizeReported s 0x7f0000001000 200000 := by
  have hinit : LiveRun (initialHeap (fun _ => 0) false) fun _ => none := .init _ _
  have hrun : ∃ s', cverReallocate ⟨0, 0x7f0000000000⟩ 0 200000 8 false
      (initialHeap (fun _ => 0) false) = some (0x7f0000001000, s') := ⟨_, rfl⟩
  rcases hrun with ⟨s', hrun⟩
  have hnot : ¬ Served s'.regions 0x7f0000001000 := by
    rintro ⟨-, hc, -⟩
    exact absurd hc (by decide)
  have heval : mallocUsableSize 0x7f0000001000 s' = some (0, s') := by
    refine (allocationSize_eval (by decide)).trans ?_
    rw [if_neg hnot]
  have hlive := hinit.reallocate (.inl rfl) hrun
  refine ⟨s', _, hlive, by decide, heval, ?_⟩
  rintro ⟨v, hv, hreport⟩
  have hnow := (hreport s' hlive.sameBlock).2
  rw [heval] at hnow
  cases hnow
  exact absurd hv (by decide)

end Caver.Runtime
