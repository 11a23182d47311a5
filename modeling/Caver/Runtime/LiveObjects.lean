import Caver.Runtime.Statistics

/-!
# Caver.Runtime.LiveObjects — what is live is there

* `OwnsBlocks`: the live blocks of both families are those of a run of the heap.
* `ThreadCall.run_some`: a call works on the heap, on the tree and on the counters apart.
* `StatsInv`: the live blocks are in the heap, and the registered objects in the tree.
* `StatsInv.call`: every call keeps it.
-/

namespace Caver.Runtime

open Caver.Core Caver.Sanitizer

/-! ## Blocks -/

/-- The live blocks of the heap. -/
structure OwnsBlocks (h : HeapState) (o : LiveObjects) : Prop where
  run : ∃ live, LiveRun h live ∧ ∀ p, (∃ n, live p = some n) ↔ p ∈ o.mallocs ∨ p ∈ o.news
  apart : Disjoint o.mallocs o.news

variable {h h' : HeapState} {o : LiveObjects} {p r n alignment : Uptr} {choice : Choice}
  {zeroise : Bool} {live : Live}

/-- No block is at null. -/
theorem LiveRun.null (hrun : LiveRun h live) : live 0 = none := by
  by_contra hsome
  rcases Option.ne_none_iff_exists'.mp hsome with ⟨n, hn⟩
  rcases hrun.inv.live 0 n hn with ⟨m, room, hb, -, -⟩
  exact hb.ne_zero hrun.inv.laid rfl

/-- An allocation that returns: null over the limit, and else a new block. -/
theorem LiveRun.allocated (hrun : LiveRun h live)
    (hcall : cverReallocate choice 0 n alignment zeroise h = some (r, h')) :
    LiveRun h' (live.alloc r n) ∧ (r = 0 ↔ n > kMaxAllowedMallocSize) ∧ live r = none := by
  have hnext := hrun.reallocate (Or.inl rfl) hcall
  rw [cverReallocate_null] at hcall
  refine ⟨hnext, ?_⟩
  by_cases hsize : n > kMaxAllowedMallocSize
  · rw [cverAllocate, if_pos hsize] at hcall
    have hwlp : wlp allocatorReturnNull (fun r _ => r = 0) h := wlp_allocatorReturnNull rfl
    have hr := hwlp.elim hcall
    exact ⟨⟨fun _ => hsize, fun _ => hr⟩, hr ▸ hrun.null⟩
  · rcases (cverAllocate_cases hrun.inv.laid).elim hcall with ⟨-, -, hlarge⟩ | ⟨m, room, hout⟩
    · exact absurd hlarge hsize
    · constructor
      · exact ⟨fun hr => absurd hr (hout.block.ne_zero hout.laid),
          fun hlarge => absurd hlarge hsize⟩
      · by_contra hsome
        rcases Option.ne_none_iff_exists'.mp hsome with ⟨k, hk⟩
        rcases hrun.inv.live r k hk with ⟨m', room', hb, -, -⟩
        exact (hout.keeps r m' room' hb).1 rfl

/-- The addresses after an allocation. -/
theorem Live.alloc_domain (live : Live) (r n q : Uptr) :
    (∃ k, live.alloc r n q = some k) ↔ (r ≠ 0 ∧ q = r) ∨ ∃ k, live q = some k := by
  by_cases hr : r = 0
  · simp [Live.alloc, hr]
  · simp only [Live.alloc_eq_some hr]
    by_cases hq : q = r
    · simp [hq, hr]
    · simp [hq]

/-- The addresses after a block has been given back. -/
theorem Live.free_domain (live : Live) (p q : Uptr) :
    (∃ k, live.free p q = some k) ↔ q ≠ p ∧ ∃ k, live q = some k := by
  simp only [Live.free_eq_some]
  constructor
  · intro hk
    rcases hk with ⟨k, hne, hk⟩
    exact ⟨hne, k, hk⟩
  · intro hk
    rcases hk with ⟨hne, k, hk⟩
    exact ⟨k, hne, hk⟩

theorem LiveObjects.mem_obtain {q : Uptr} :
    q ∈ (o.obtain r).mallocs ∨ q ∈ (o.obtain r).news ↔
      (r ≠ 0 ∧ q = r) ∨ (q ∈ o.mallocs ∨ q ∈ o.news) := by
  unfold obtain
  split
  · next hr => simp [hr]
  · next hr =>
    simp only [Finset.mem_insert, ne_eq, hr, not_false_eq_true, true_and]
    exact or_assoc

theorem LiveObjects.mem_obtainNew {q : Uptr} :
    q ∈ (o.obtainNew r).mallocs ∨ q ∈ (o.obtainNew r).news ↔
      (r ≠ 0 ∧ q = r) ∨ (q ∈ o.mallocs ∨ q ∈ o.news) := by
  unfold obtainNew
  split
  · next hr => simp [hr]
  · next hr =>
    simp only [Finset.mem_insert, ne_eq, hr, not_false_eq_true, true_and]
    exact or_left_comm

theorem LiveObjects.mem_release {q : Uptr} :
    q ∈ (o.release p).mallocs ∨ q ∈ (o.release p).news ↔
      q ≠ p ∧ (q ∈ o.mallocs ∨ q ∈ o.news) := by
  simp only [release, Finset.mem_erase]
  exact and_or_left.symm

namespace OwnsBlocks

theorem null (ho : OwnsBlocks h o) : 0 ∉ o.mallocs ∧ 0 ∉ o.news := by
  rcases ho.run with ⟨live, hrun, hdom⟩
  have hnull : ¬ (0 ∈ o.mallocs ∨ 0 ∈ o.news) := by
    rw [← hdom, hrun.null]
    simp
  exact not_or.mp hnull

/-- A new block is in neither family. -/
theorem allocated (ho : OwnsBlocks h o)
    (hcall : cverReallocate choice 0 n alignment zeroise h = some (r, h')) :
    OwnsBlocks h' (o.obtain r) ∧ OwnsBlocks h' (o.obtainNew r) ∧
      (r = 0 ↔ n > kMaxAllowedMallocSize) ∧ r ∉ o.mallocs ∧ r ∉ o.news := by
  rcases ho.run with ⟨live, hrun, hdom⟩
  rcases hrun.allocated hcall with ⟨hnext, hnull, hfresh⟩
  have hnew : ¬ (r ∈ o.mallocs ∨ r ∈ o.news) := by
    rw [← hdom, hfresh]
    simp
  rw [not_or] at hnew
  refine ⟨⟨⟨_, hnext, ?_⟩, ?_⟩, ⟨⟨_, hnext, ?_⟩, ?_⟩, hnull, hnew⟩
  · intro q
    rw [Live.alloc_domain, hdom, LiveObjects.mem_obtain]
  · unfold LiveObjects.obtain
    split
    · exact ho.apart
    · exact Finset.disjoint_insert_left.mpr ⟨hnew.2, ho.apart⟩
  · intro q
    rw [Live.alloc_domain, hdom, LiveObjects.mem_obtainNew]
  · unfold LiveObjects.obtainNew
    split
    · exact ho.apart
    · exact Finset.disjoint_insert_right.mpr ⟨hnew.1, ho.apart⟩

end OwnsBlocks

/-- What may be passed may be given back. -/
theorem MayPass.mayGive {t : CverThread}
    (hdom : ∀ p, (∃ n, live p = some n) ↔ p ∈ o.mallocs ∨ p ∈ o.news) (hp : MayPass t o p) :
    MayGive t.heap live p := by
  rcases hp with hp | hp | hp | hp
  · exact Or.inl hp
  · exact Or.inr (Or.inl ((hdom p).mpr (Or.inl hp)))
  · exact Or.inr (Or.inl ((hdom p).mpr (Or.inr hp)))
  · exact Or.inr (Or.inr hp)

theorem LiveObjects.release_of_not_mem (hm : p ∉ o.mallocs) (hn : p ∉ o.news) :
    o.release p = o := by
  rw [release, Finset.erase_eq_of_notMem hm, Finset.erase_eq_of_notMem hn]

/-- The block at `p` has room for `n` bytes. -/
def FitsInPlace (h : HeapState) (p n : Uptr) : Prop := ∃ m room, Block h p m room ∧ n.toNat ≤ room

theorem finishMove_result {oldP newP k : Uptr} :
    wlp (finishMove oldP newP k) (fun r _ => r = newP) h := by
  unfold finishMove
  split
  · rw [wlp_bind]
    intro _ s₁ _
    rw [wlp_bind]
    intro _ s₂ _
    rw [wlp_pure]
  · rw [wlp_pure]

/-- A reallocation to a positive size fails only over the limit, and only if the block has no
room. -/
theorem cverReallocate_null_iff (hs : Laid h) {m : Uptr} {room : ℕ} (hb : Block h p m room)
    (h0 : n ≠ 0) (hcall : cverReallocate choice p n alignment zeroise h = some (r, h')) :
    r = 0 ↔ ¬ FitsInPlace h p n ∧ n > kMaxAllowedMallocSize := by
  -- a block with room is kept; else a new one is asked for, which only the limit refuses
  by_cases hle : n.toNat ≤ room
  · have hroom : FitsInPlace h p n := ⟨m, room, hb, hle⟩
    rw [cverReallocate_inPlace hs hb h0 hle] at hcall
    cases hcall
    constructor
    · intro hnull
      exact absurd hnull (hb.ne_zero hs)
    · intro hnone
      exact absurd hroom hnone.1
  · have hroom : ¬ FitsInPlace h p n := by
      intro hfits
      rcases hfits with ⟨m', room', hb', hle'⟩
      rw [(hb.unique hs hb').2] at hle
      exact hle hle'
    rw [cverReallocate_move hs hb h0 (by omega)] at hcall
    rcases Option.bind_eq_some_iff.mp hcall with ⟨⟨newP, s₁⟩, hall, hrest⟩
    rw [finishMove_result.elim hrest]
    by_cases hsize : n > kMaxAllowedMallocSize
    · rw [cverAllocate, if_pos hsize] at hall
      have hwlp : wlp allocatorReturnNull (fun r _ => r = 0) h := wlp_allocatorReturnNull rfl
      exact ⟨fun _ => ⟨hroom, hsize⟩, fun _ => hwlp.elim hall⟩
    · constructor
      · intro hnull
        rcases (cverAllocate_cases hs).elim hall with ⟨-, -, hlarge⟩ | ⟨m', room', hout⟩
        · exact absurd hlarge hsize
        · exact absurd hnull (hout.block.ne_zero hout.laid)
      · intro hlarge
        exact absurd hlarge.2 hsize

/-- A pointer at which no block starts is not reallocated. -/
theorem cverReallocate_unchanged (hl : ∀ x ∈ h.large, x.Ok) (h0 : p ≠ 0) (hn : n ≠ 0)
    (hp : ¬ IsBlockStart h p) :
    cverReallocate choice p n alignment zeroise h = some (0, h) := by
  refine eval_of_wp ?_
  rw [cverReallocate, if_neg h0, if_neg hn, wp_bind]
  refine (combinedGetBlockBegin_ne hl h0 hp).mono ?_
  rintro beg _ ⟨rfl, hne⟩
  rw [if_pos hne, wp_pure]
  exact ⟨rfl, rfl⟩

namespace OwnsBlocks

variable {t : CverThread}

/-- A block that is given back. -/
theorem deallocated (ho : OwnsBlocks t.heap o) (hp : MayPass t o p)
    (hcall : cverDeallocate p t.heap = some (⟨⟩, h')) : OwnsBlocks h' (o.release p) := by
  rcases ho.run with ⟨live, hrun, hdom⟩
  refine ⟨⟨_, hrun.deallocate (hp.mayGive hdom) hcall, ?_⟩, ?_⟩
  · intro q
    rw [Live.free_domain, hdom, LiveObjects.mem_release]
  · exact ho.apart.mono (Finset.erase_subset _ _) (Finset.erase_subset _ _)

theorem freed (ho : OwnsBlocks t.heap o) (hp : MayPass t o p)
    (hcall : Runtime.free p t.heap = some (⟨⟩, h')) : OwnsBlocks h' (o.release p) := by
  rw [Runtime.free] at hcall
  split at hcall
  · next h0 =>
    cases hcall
    rwa [h0, LiveObjects.release_of_not_mem ho.null.1 ho.null.2]
  · exact ho.deallocated hp hcall

theorem deleted (ho : OwnsBlocks t.heap o) (hp : MayPass t o p)
    (hcall : Runtime.operatorDelete p t.heap = some (⟨⟩, h')) : OwnsBlocks h' (o.release p) := by
  rw [Runtime.operatorDelete] at hcall
  split at hcall
  · exact ho.deallocated hp hcall
  · next h0 =>
    rw [not_not] at h0
    cases hcall
    rwa [h0, LiveObjects.release_of_not_mem ho.null.1 ho.null.2]

/-- What a reallocation returns is another block than those that stay. -/
theorem reallocated (ho : OwnsBlocks t.heap o) (hp : MayPass t o p) (h0 : p ≠ 0) (hn : n ≠ 0)
    (hcall : cverReallocate choice p n 8 false t.heap = some (r, h')) :
    OwnsBlocks h' (if r = 0 then o else (o.release p).obtain r) ∧
      r ∉ (o.release p).mallocs ∧ r ∉ (o.release p).news := by
  rcases ho.run with ⟨live, hrun, hdom⟩
  have hnext := hrun.reallocate (hp.mayGive hdom) hcall
  rw [Live.realloc, if_neg h0, if_neg hn] at hnext
  -- a refused reallocation leaves the blocks as they were
  by_cases hr : r = 0
  · rw [if_pos hr] at hnext ⊢
    rw [hr]
    refine ⟨⟨⟨live, hnext, hdom⟩, ho.apart⟩, ?_, ?_⟩
    · exact fun hmem => ho.null.1 (Finset.mem_of_mem_erase hmem)
    · exact fun hmem => ho.null.2 (Finset.mem_of_mem_erase hmem)
  · rw [if_neg hr] at hnext ⊢
    have hfresh : ¬ (r ∈ (o.release p).mallocs ∨ r ∈ (o.release p).news) := by
      rw [LiveObjects.mem_release, ← hdom]
      rintro ⟨hne, k, hk⟩
      rcases hrun.inv.live r k hk with ⟨m', room', hb', -⟩
      -- what is given is null, a live block, or no block at all, and then nothing is returned
      rcases hp.mayGive hdom with hz | ⟨size, hsize⟩ | hstart
      · exact h0 hz
      · have hlive := hrun.inv.live p size hsize
        rcases (cverReallocate_cases hrun.inv.laid hlive hn).elim hcall with ⟨hz, -⟩ | hre
        · exact hr hz
        · exact hne (hre.fresh m' room' hb')
      · rw [cverReallocate_unchanged hrun.inv.laid.blocks.large h0 hn hstart] at hcall
        cases hcall
        exact hr rfl
    rw [not_or] at hfresh
    refine ⟨⟨⟨_, hnext, ?_⟩, ?_⟩, hfresh⟩
    · intro q
      rw [Live.alloc_domain, Live.free_domain, hdom, LiveObjects.mem_obtain,
        LiveObjects.mem_release]
    · rw [LiveObjects.obtain, if_neg hr]
      exact Finset.disjoint_insert_left.mpr
        ⟨hfresh.2, ho.apart.mono (Finset.erase_subset _ _) (Finset.erase_subset _ _)⟩

/-- Where it fails. -/
theorem reallocated_null_iff (ho : OwnsBlocks t.heap o) (hp : MayPass t o p) (h0 : p ≠ 0)
    (hn : n ≠ 0) (hcall : cverReallocate choice p n 8 false t.heap = some (r, h')) :
    r = 0 ↔ (p ∈ o.mallocs ∨ p ∈ o.news →
      ¬ FitsInPlace t.heap p n ∧ n > kMaxAllowedMallocSize) := by
  rcases ho.run with ⟨live, hrun, hdom⟩
  by_cases hlive : p ∈ o.mallocs ∨ p ∈ o.news
  · rcases (hdom p).mpr hlive with ⟨size, hsize⟩
    rcases hrun.inv.live p size hsize with ⟨m, room, hb, -⟩
    rw [cverReallocate_null_iff hrun.inv.laid hb hn hcall]
    exact ⟨fun hfails _ => hfails, fun hfails => hfails hlive⟩
  · have hstart : ¬ IsBlockStart t.heap p := by
      rcases hp with hz | hm | hm | hstart
      · exact absurd hz h0
      · exact absurd (Or.inl hm) hlive
      · exact absurd (Or.inr hm) hlive
      · exact hstart
    rw [cverReallocate_unchanged hrun.inv.laid.blocks.large h0 hn hstart] at hcall
    cases hcall
    exact ⟨fun _ hmem => absurd hmem hlive, fun _ => rfl⟩

end OwnsBlocks

/-! ## What a call does -/

namespace ThreadCall

/-- To the heap. -/
def onHeap : ThreadCall → HeapM Uptr
  | .malloc choice size => Runtime.malloc choice size
  | .calloc choice nmemb size => Runtime.calloc choice nmemb size
  | .realloc choice ptr size => Runtime.realloc choice ptr size
  | .memalign choice boundary size => Runtime.memalign choice boundary size
  | .free ptr => do
    Runtime.free ptr
    return 0
  | .operatorNew choice size => Runtime.operatorNew choice size
  | .operatorDelete ptr => do
    Runtime.operatorDelete ptr
    return 0
  | .stackEnter _ _ _ | .stackExit _ => return 0

/-- To the tree. -/
def onRoot (cfg : StatsConfig) : ThreadCall → Option RbTree → Option (Option RbTree)
  | .stackEnter typeTable pointer allocSize, root =>
    handleStackEnter cfg.flags cfg.malloc typeTable pointer allocSize root
  | .stackExit pointer, root => handleStackExit cfg.flags cfg.malloc pointer root
  | _, root => some root

/-- To the counters. -/
def onStats (cfg : StatsConfig) (s : CverStats) : ThreadCall → CverStats
  | .malloc _ _ => { s with numMalloc := s.numMalloc.count }
  | .calloc _ nmemb size =>
    if callocShouldReturnNullDueToOverflow size nmemb then s
    else { s with numMalloc := s.numMalloc.count }
  | .realloc _ _ _ | .memalign _ _ _ => s
  | .free _ => { s with numMalloc := s.numMalloc.uncount }
  | .operatorNew _ _ => { s with numNew := s.numNew.count }
  | .operatorDelete _ => { s with numNew := s.numNew.uncount }
  | .stackEnter _ _ _ =>
    if cfg.flags.noCheck then s else { s with stackObj := s.stackObj.count }
  | .stackExit _ => if cfg.flags.noCheck then s else { s with stackObj := s.stackObj.leave }

end ThreadCall

section Steps

variable {cfg : StatsConfig} {t t' : CverThread} {c : ThreadCall} {root' : Option RbTree}

theorem inHeap_some {α : Type} {m : HeapM α} {a : α} (hrun : inHeap m t = some (a, t')) :
    m t.heap = some (a, t'.heap) ∧ t'.root = t.root ∧ t'.stats = t.stats := by
  rcases Option.map_eq_some_iff.mp hrun with ⟨⟨b, h⟩, hm, heq⟩
  cases heq
  exact ⟨hm, rfl, rfl⟩

theorem inRoot_some {f : Option RbTree → Option (Option RbTree)} {a : PUnit}
    (hrun : inRoot f t = some (a, t')) :
    f t.root = some t'.root ∧ t'.heap = t.heap ∧ t'.stats = t.stats := by
  rcases Option.map_eq_some_iff.mp hrun with ⟨root, hf, heq⟩
  cases heq
  exact ⟨hf, rfl, rfl⟩

/-- First the counters are changed. -/
theorem modifyStats_bind {α : Type} (hstats : cfg.stats = true) (f : CverStats → CverStats)
    (m : Prog CverThread α) :
    (do
      modifyStats cfg f
      m) t = m { t with stats := f t.stats } := by
  unfold modifyStats
  rw [if_pos hstats]
  rfl

/-- A program that returns nothing. -/
theorem bind_null {σ : Type} {m : Prog σ PUnit} {s s' : σ} {r : Uptr}
    (hrun : (do
      m
      return (0 : Uptr)) s = some (r, s')) : r = 0 ∧ m s = some (⟨⟩, s') := by
  rcases Option.bind_eq_some_iff.mp hrun with ⟨⟨_, s₁⟩, hm, hret⟩
  cases hret
  exact ⟨rfl, hm⟩

theorem null_bind {σ : Type} {m : Prog σ PUnit} {s s' : σ} (hm : m s = some (⟨⟩, s')) :
    (do
      m
      return (0 : Uptr)) s = some (0, s') := by
  refine eval_of_wp ?_
  rw [wp_bind, wp_eval hm, wp_pure]
  exact ⟨rfl, rfl⟩

/-- A call works on the heap, on the tree and on the counters apart. -/
theorem ThreadCall.run_some (hstats : cfg.stats = true) (hrun : c.run cfg t = some (r, t')) :
    c.onHeap t.heap = some (r, t'.heap) ∧ c.onRoot cfg t.root = some t'.root ∧
      t'.stats = c.onStats cfg t.stats := by
  cases c with
  | malloc choice size =>
    rw [run, CverThread.malloc, statMalloc, modifyStats_bind hstats] at hrun
    rcases inHeap_some hrun with ⟨hheap, hroot, hcounts⟩
    exact ⟨hheap, hroot ▸ rfl, hcounts⟩
  | calloc choice nmemb size =>
    rw [run, CverThread.calloc] at hrun
    simp only [onHeap, Runtime.calloc, onStats]
    -- a product that overflows is refused before anything is counted
    by_cases hover : callocShouldReturnNullDueToOverflow size nmemb = true
    · rw [if_pos hover] at hrun
      rcases inHeap_some hrun with ⟨hheap, hroot, hcounts⟩
      rw [if_pos hover, if_pos hover]
      exact ⟨hheap, hroot ▸ rfl, hcounts⟩
    · rw [if_neg hover, statMalloc, modifyStats_bind hstats] at hrun
      rcases inHeap_some hrun with ⟨hheap, hroot, hcounts⟩
      rw [if_neg hover, if_neg hover]
      exact ⟨hheap, hroot ▸ rfl, hcounts⟩
  | realloc choice ptr size =>
    rcases inHeap_some hrun with ⟨hheap, hroot, hcounts⟩
    exact ⟨hheap, hroot ▸ rfl, hcounts⟩
  | memalign choice boundary size =>
    rcases inHeap_some hrun with ⟨hheap, hroot, hcounts⟩
    exact ⟨hheap, hroot ▸ rfl, hcounts⟩
  | free ptr =>
    rcases bind_null hrun with ⟨rfl, hfree⟩
    rw [CverThread.free, statFree, modifyStats_bind hstats] at hfree
    rcases inHeap_some hfree with ⟨hheap, hroot, hcounts⟩
    exact ⟨null_bind hheap, hroot ▸ rfl, hcounts⟩
  | operatorNew choice size =>
    rw [run, CverThread.operatorNew, statNew, modifyStats_bind hstats] at hrun
    rcases inHeap_some hrun with ⟨hheap, hroot, hcounts⟩
    exact ⟨hheap, hroot ▸ rfl, hcounts⟩
  | operatorDelete ptr =>
    rcases bind_null hrun with ⟨rfl, hdelete⟩
    rw [CverThread.operatorDelete, statDelete, modifyStats_bind hstats] at hdelete
    rcases inHeap_some hdelete with ⟨hheap, hroot, hcounts⟩
    exact ⟨null_bind hheap, hroot ▸ rfl, hcounts⟩
  | stackEnter typeTable pointer allocSize =>
    rcases bind_null hrun with ⟨rfl, henter⟩
    rw [CverThread.stackEnter] at henter
    simp only [onRoot, onStats]
    -- with checks off the hook returns at once, and the counters do not move
    by_cases hcheck : cfg.flags.noCheck = true
    · rw [if_pos hcheck] at henter
      cases henter
      rw [if_pos hcheck]
      exact ⟨rfl, by simp [handleStackEnter, hcheck], rfl⟩
    · rw [if_neg hcheck, modifyStats_bind hstats] at henter
      rcases inRoot_some henter with ⟨hroot, hheap, hcounts⟩
      rw [if_neg hcheck]
      exact ⟨hheap ▸ rfl, hroot, hcounts⟩
  | stackExit pointer =>
    rcases bind_null hrun with ⟨rfl, hexit⟩
    rw [CverThread.stackExit] at hexit
    simp only [onRoot, onStats]
    by_cases hcheck : cfg.flags.noCheck = true
    · rw [if_pos hcheck] at hexit
      cases hexit
      rw [if_pos hcheck]
      exact ⟨rfl, by simp [handleStackExit, hcheck], rfl⟩
    · rw [if_neg hcheck, modifyStats_bind hstats] at hexit
      rcases inRoot_some hexit with ⟨hroot, hheap, hcounts⟩
      rw [if_neg hcheck]
      exact ⟨hheap ▸ rfl, hroot, hcounts⟩

/-! ## What is live is there -/

/-- The thread has no tree, or the objects of its tree are those of `stack`. -/
def RegistersObjects (root : Option RbTree) (stack : Finset Uptr) : Prop :=
  (root = none ∧ stack = ∅) ∨ ∃ P, Registers root P ∧ ∀ a, a ∈ stack ↔ ∃ v, P a v

structure StatsInv (t : CverThread) (o : LiveObjects) : Prop where
  owns : OwnsBlocks t.heap o
  registers : RegistersObjects t.root o.stack
  not_null : 0 ∉ o.stack

theorem calloc_some {nmemb size : Uptr} (hrun : Runtime.calloc choice nmemb size h = some (r, h')) :
    (callocShouldReturnNullDueToOverflow size nmemb = true ∧ r = 0 ∧ h' = h) ∨
      (callocShouldReturnNullDueToOverflow size nmemb = false ∧
        cverReallocate choice 0 (nmemb * size) 8 true h = some (r, h')) := by
  rw [Runtime.calloc] at hrun
  split at hrun
  · next hover =>
    have hwlp : wlp allocatorReturnNull (fun r h' => r = 0 ∧ h' = h) h :=
      wlp_allocatorReturnNull ⟨rfl, rfl⟩
    exact Or.inl ⟨hover, hwlp.elim hrun⟩
  · next hover => exact Or.inr ⟨Bool.eq_false_of_not_eq_true hover, hrun⟩

theorem memalign_some {boundary size : Uptr}
    (hrun : Runtime.memalign choice boundary size h = some (r, h')) :
    cverReallocate choice 0 size boundary false h = some (r, h') := by
  have hwlp : wlp (Runtime.memalign choice boundary size)
      (fun r h' => cverReallocate choice 0 size boundary false h = some (r, h')) h := by
    rw [Runtime.memalign, wlp_bind, wlp_check]
    intro _ r h' hcall
    exact hcall
  exact hwlp.elim hrun

/-- A reallocation to no size gives the block back. -/
theorem cverReallocate_zero (h0 : p ≠ 0)
    (hrun : cverReallocate choice p 0 alignment zeroise h = some (r, h')) :
    cverDeallocate p h = some (⟨⟩, h') := by
  rw [cverReallocate, if_neg h0, if_pos rfl] at hrun
  exact (bind_null hrun).2

/-- The blocks after a call. -/
theorem OwnsBlocks.call (ho : OwnsBlocks t.heap o) (hpass : c.Passes t o)
    (hrun : c.onHeap t.heap = some (r, h')) : OwnsBlocks h' (c.objects cfg t o r) := by
  cases c with
  | malloc choice size => exact (ho.allocated hrun).1
  | calloc choice nmemb size =>
    rcases calloc_some hrun with ⟨-, rfl, rfl⟩ | ⟨-, hcall⟩
    · exact ho
    · exact (ho.allocated hcall).1
  | realloc choice ptr size =>
    rw [ThreadCall.objects]
    -- `realloc` of null allocates, and to no bytes it frees
    by_cases h0 : ptr = 0
    · subst h0
      exact (ho.allocated hrun).1
    · by_cases hn : size = 0
      · subst hn
        rw [if_neg h0, if_pos rfl]
        exact ho.deallocated hpass (cverReallocate_zero h0 hrun)
      · rw [if_neg h0, if_neg hn]
        exact (ho.reallocated hpass h0 hn hrun).1
  | memalign choice boundary size => exact (ho.allocated (memalign_some hrun)).1
  | free ptr =>
    rcases bind_null hrun with ⟨rfl, hfree⟩
    exact ho.freed hpass hfree
  | operatorNew choice size => exact (ho.allocated hrun).2.1
  | operatorDelete ptr =>
    rcases bind_null hrun with ⟨rfl, hdelete⟩
    exact ho.deleted hpass hdelete
  | stackEnter typeTable pointer allocSize =>
    cases hrun
    rw [ThreadCall.objects]
    split
    · exact ho
    · exact ⟨ho.run, ho.apart⟩
  | stackExit pointer =>
    cases hrun
    rw [ThreadCall.objects]
    split
    · exact ho
    · exact ⟨ho.run, ho.apart⟩

theorem RegistersObjects.enter {typeTable pointer allocSize : Uptr}
    (hcheck : cfg.flags.noCheck = false) (hreg : RegistersObjects t.root o.stack)
    (hrun : handleStackEnter cfg.flags cfg.malloc typeTable pointer allocSize t.root =
      some root') :
    RegistersObjects root' (if t.root.isNone then o.stack else insert pointer o.stack) := by
  rcases hreg with ⟨hroot, hstack⟩ | ⟨P, hP, hmem⟩
  · simp only [hroot, handleStackEnter, hcheck, Bool.false_eq_true, if_false,
      Option.some_inj] at hrun
    rw [hroot]
    exact Or.inl ⟨hrun.symm, hstack⟩
  · rcases handleStackEnter_spec cfg.malloc hcheck allocSize hP with ⟨root₁, hrun₁, hreg₁⟩
    rw [hrun, Option.some_inj] at hrun₁
    subst hrun₁
    have hsome : t.root.isNone = false := by
      rcases hP with ⟨_, _, hroot, -⟩
      rw [hroot]
      rfl
    rw [hsome, if_neg Bool.false_ne_true]
    refine Or.inr ⟨_, hreg₁, ?_⟩
    intro a
    rw [Finset.mem_insert, hmem]
    by_cases ha : a = pointer
    · simp [ha]
    · simp [ha]

theorem RegistersObjects.exit {pointer : Uptr} (hcheck : cfg.flags.noCheck = false)
    (hreg : RegistersObjects t.root o.stack)
    (hrun : handleStackExit cfg.flags cfg.malloc pointer t.root = some root') :
    RegistersObjects root' (o.stack.erase pointer) := by
  rcases hreg with ⟨hroot, hstack⟩ | ⟨P, hP, hmem⟩
  · simp only [hroot, handleStackExit, hcheck, Bool.false_eq_true, if_false,
      Option.some_inj] at hrun
    rw [hstack, Finset.erase_empty]
    exact Or.inl ⟨hrun.symm, rfl⟩
  · rcases handleStackExit_spec cfg.malloc hcheck pointer hP with ⟨root₁, hrun₁, hreg₁⟩
    rw [hrun, Option.some_inj] at hrun₁
    subst hrun₁
    refine Or.inr ⟨_, hreg₁, ?_⟩
    intro a
    rw [Finset.mem_erase, hmem]
    exact exists_and_left.symm

/-- The registered objects after a call. -/
theorem RegistersObjects.call (hreg : RegistersObjects t.root o.stack)
    (hrun : c.onRoot cfg t.root = some root') :
    RegistersObjects root' (c.objects cfg t o r).stack := by
  cases c with
  | stackEnter typeTable pointer allocSize =>
    rw [ThreadCall.onRoot] at hrun
    rw [ThreadCall.objects]
    cases hcheck : cfg.flags.noCheck with
    | true =>
      simp only [handleStackEnter, hcheck, if_true, Option.some_inj] at hrun
      exact hrun ▸ hreg
    | false =>
      have hstep := hreg.enter hcheck hrun
      rw [Bool.false_or]
      split at hstep
      · next hnone => rwa [if_pos hnone]
      · next hsome => rwa [if_neg hsome]
  | stackExit pointer =>
    rw [ThreadCall.onRoot] at hrun
    rw [ThreadCall.objects]
    cases hcheck : cfg.flags.noCheck with
    | true =>
      simp only [handleStackExit, hcheck, if_true, Option.some_inj] at hrun
      exact hrun ▸ hreg
    | false => exact hreg.exit hcheck hrun
  | _ =>
    have hroot : t.root = root' := Option.some_inj.mp hrun
    rw [← hroot]
    simpa [ThreadCall.objects, apply_ite LiveObjects.stack] using hreg

theorem StatsInv.call (hstats : cfg.stats = true) (hinv : StatsInv t o) (hpass : c.Passes t o)
    (hrun : c.run cfg t = some (r, t')) : StatsInv t' (c.objects cfg t o r) := by
  rcases c.run_some hstats hrun with ⟨hheap, hroot, -⟩
  refine ⟨hinv.owns.call hpass hheap, hinv.registers.call hroot, ?_⟩
  cases c with
  | stackEnter typeTable pointer allocSize =>
    rw [ThreadCall.objects]
    split
    · exact hinv.not_null
    · rw [Finset.mem_insert, not_or]
      exact ⟨Ne.symm hpass, hinv.not_null⟩
  | stackExit pointer =>
    rw [ThreadCall.objects]
    split
    · exact hinv.not_null
    · exact fun hmem => hinv.not_null (Finset.mem_of_mem_erase hmem)
  | _ => simpa [ThreadCall.objects, apply_ite LiveObjects.stack] using hinv.not_null

end Steps

end Caver.Runtime
