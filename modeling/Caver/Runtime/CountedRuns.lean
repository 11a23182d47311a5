import Caver.Runtime.LiveObjects

/-!
# Caver.Runtime.CountedRuns — where the counters are right

* `Counts.count_insert_iff` and its like: how a counter and a set change together.
* `ThreadCall.Meets`: where a call changes the counters as it changes what is live.
* `counted_call_iff`: from right counters, it leads to right ones exactly there.
-/

namespace Caver.Runtime

open Caver.Core Caver.Sanitizer

section Counting

variable {h' : HeapState} {o : LiveObjects} {p r alignment : Uptr} {choice : Choice}
  {zeroise : Bool} {cfg : StatsConfig} {t t' : CverThread} {c : ThreadCall} {k : Counts}
  {s : Finset Uptr}

/-! ## Counters and sets -/

theorem card_lt (hs : 0 ∉ s) : s.card < 2 ^ 64 := by
  have hle : (insert 0 s).card ≤ (Finset.range (2 ^ 64)).card := by
    apply Finset.card_le_card_of_injOn UInt64.toNat
    · intro a _
      exact Finset.mem_coe.mpr (Finset.mem_range.mpr a.toNat_lt)
    · intro a _ b _ hab
      exact UInt64.toNat_inj.mp hab
  rw [Finset.card_insert_of_notMem hs, Finset.card_range] at hle
  omega

theorem toNat_sub_one {a : Uptr} (ha : 0 < a.toNat) : (a - 1).toNat = a.toNat - 1 := by
  rw [UInt64.toNat_sub_of_le, UInt64.toNat_one]
  rw [UInt64.le_iff_toNat_le, UInt64.toNat_one]
  omega

/-- No counter stays as it is. -/
theorem add_one_ne (a : Uptr) : (a + 1).toNat ≠ a.toNat := by
  have hlt := a.toNat_lt
  rw [UInt64.toNat_add, UInt64.toNat_one]
  omega

theorem sub_one_ne (a : Uptr) : (a - 1).toNat ≠ a.toNat := by
  have hlt := a.toNat_lt
  rw [UInt64.toNat_sub, UInt64.toNat_one]
  omega

namespace Counts

theorem count_insert_iff (hk : k.current.toNat = s.card) (hs : 0 ∉ insert p s) :
    k.count.current.toNat = (insert p s).card ↔ p ∉ s := by
  rw [count]
  by_cases hp : p ∈ s
  · rw [Finset.insert_eq_of_mem hp, ← hk]
    exact iff_of_false (add_one_ne _) (not_not.mpr hp)
  · have hlt := card_lt hs
    rw [Finset.card_insert_of_notMem hp, ← hk] at hlt ⊢
    rw [toNat_add_of_lt (by rwa [UInt64.toNat_one]), UInt64.toNat_one]
    exact iff_of_true rfl hp

theorem count_obtain_iff (hk : k.current.toNat = s.card) (hs : 0 ∉ s) (hr : r ∉ s) :
    k.count.current.toNat = (if r = 0 then s else insert r s).card ↔ r ≠ 0 := by
  split
  · next h0 =>
    rw [← hk]
    exact iff_of_false (add_one_ne _) (not_not.mpr h0)
  · next h0 =>
    rw [count_insert_iff hk]
    · exact iff_of_true hr h0
    · rw [Finset.mem_insert, not_or]
      exact ⟨Ne.symm h0, hs⟩

theorem same_obtain_iff (hk : k.current.toNat = s.card) (hr : r ∉ s) :
    k.current.toNat = (if r = 0 then s else insert r s).card ↔ r = 0 := by
  split
  · next h0 => exact iff_of_true hk h0
  · next h0 =>
    rw [Finset.card_insert_of_notMem hr, hk]
    exact iff_of_false (Nat.ne_of_lt (Nat.lt_succ_self _)) h0

theorem same_erase_iff (hk : k.current.toNat = s.card) :
    k.current.toNat = (s.erase p).card ↔ p ∉ s := by
  by_cases hp : p ∈ s
  · have hpos := Finset.card_pos.mpr ⟨p, hp⟩
    rw [Finset.card_erase_of_mem hp, hk]
    exact iff_of_false (by omega) (not_not.mpr hp)
  · rw [Finset.erase_eq_of_notMem hp]
    exact iff_of_true hk hp

theorem leave_erase_iff (hk : k.current.toNat = s.card) :
    k.leave.current.toNat = (s.erase p).card ↔ p ∈ s := by
  rw [leave]
  by_cases hp : p ∈ s
  · have hpos := Finset.card_pos.mpr ⟨p, hp⟩
    rw [Finset.card_erase_of_mem hp, toNat_sub_one (by omega), hk]
    exact iff_of_true rfl hp
  · rw [Finset.erase_eq_of_notMem hp, ← hk]
    exact iff_of_false (sub_one_ne _) hp

theorem uncount_erase_iff (hk : k.current.toNat = s.card) :
    k.uncount.current.toNat = (s.erase p).card ↔ p ∈ s ∨ s = ∅ := by
  have hpos : k.current > 0 ↔ s ≠ ∅ := by
    rw [gt_iff_lt, UInt64.lt_iff_toNat_lt, hk, UInt64.toNat_zero, Finset.card_pos,
      Finset.nonempty_iff_ne_empty]
  rw [uncount]
  by_cases hs : s = ∅
  · rw [if_neg (fun h => hpos.mp h hs), hk, hs]
    exact iff_of_true rfl (Or.inr rfl)
  · rw [if_pos (hpos.mpr hs), or_iff_left hs]
    exact leave_erase_iff hk

end Counts

/-! ## What keeps the counters right -/

/-- What is passed, and what is live before the call. -/
def ThreadCall.Meets (cfg : StatsConfig) (t : CverThread) (o : LiveObjects) : ThreadCall → Prop
  | .malloc _ size | .operatorNew _ size => size ≤ kMaxAllowedMallocSize
  | .calloc _ nmemb size =>
    callocShouldReturnNullDueToOverflow size nmemb = true ∨ nmemb * size ≤ kMaxAllowedMallocSize
  | .memalign _ _ size => size > kMaxAllowedMallocSize
  | .realloc _ ptr size =>
    if ptr = 0 then size > kMaxAllowedMallocSize
    else if size = 0 then ptr ∉ o.mallocs ∧ ptr ∉ o.news
    else ptr ∈ o.news → ¬ FitsInPlace t.heap ptr size ∧ size > kMaxAllowedMallocSize
  | .free ptr => (ptr ∈ o.mallocs ∨ o.mallocs = ∅) ∧ ptr ∉ o.news
  | .operatorDelete ptr => (ptr ∈ o.news ∨ o.news = ∅) ∧ ptr ∉ o.mallocs
  | .stackEnter _ pointer _ =>
    cfg.flags.noCheck = true ∨ t.root ≠ none ∧ pointer ∉ o.stack
  | .stackExit pointer => cfg.flags.noCheck = true ∨ pointer ∈ o.stack

theorem LiveObjects.obtain_mallocs (o : LiveObjects) (r : Uptr) :
    (o.obtain r).mallocs = if r = 0 then o.mallocs else insert r o.mallocs := by
  rw [obtain, apply_ite LiveObjects.mallocs]

theorem LiveObjects.obtain_news (o : LiveObjects) (r : Uptr) : (o.obtain r).news = o.news := by
  unfold obtain
  split <;> rfl

theorem LiveObjects.obtainNew_news (o : LiveObjects) (r : Uptr) :
    (o.obtainNew r).news = if r = 0 then o.news else insert r o.news := by
  rw [obtainNew, apply_ite LiveObjects.news]

theorem LiveObjects.obtainNew_mallocs (o : LiveObjects) (r : Uptr) :
    (o.obtainNew r).mallocs = o.mallocs := by
  unfold obtainNew
  split <;> rfl

/-- An allocation that is counted. -/
theorem counted_malloc_iff {size : Uptr} (hinv : StatsInv t o) (hcount : Counted t o)
    (hcall : cverReallocate choice 0 size alignment zeroise t.heap = some (r, h'))
    (hstats : t'.stats = { t.stats with numMalloc := t.stats.numMalloc.count }) :
    Counted t' (o.obtain r) ↔ size ≤ kMaxAllowedMallocSize := by
  rcases hinv.owns.allocated hcall with ⟨-, -, hnull, hm, -⟩
  have hiff := Counts.count_obtain_iff hcount.mallocs hinv.owns.null.1 hm
  rw [counted_iff, hstats, LiveObjects.obtain_mallocs, LiveObjects.obtain_news,
    LiveObjects.obtain_stack, hiff, ne_eq, hnull, gt_iff_lt, UInt64.not_lt]
  exact and_iff_left ⟨hcount.news, hcount.stack⟩

/-- One that is not counted. -/
theorem counted_same_iff {size : Uptr} (hinv : StatsInv t o) (hcount : Counted t o)
    (hcall : cverReallocate choice 0 size alignment zeroise t.heap = some (r, h'))
    (hstats : t'.stats = t.stats) :
    Counted t' (o.obtain r) ↔ size > kMaxAllowedMallocSize := by
  rcases hinv.owns.allocated hcall with ⟨-, -, hnull, hm, -⟩
  have hiff := Counts.same_obtain_iff hcount.mallocs hm
  rw [counted_iff, hstats, LiveObjects.obtain_mallocs, LiveObjects.obtain_news,
    LiveObjects.obtain_stack, hiff, hnull]
  exact and_iff_left ⟨hcount.news, hcount.stack⟩

/-- A reallocation is never counted. -/
theorem counted_realloc_iff {ptr size : Uptr} (hinv : StatsInv t o) (hcount : Counted t o)
    (hpass : MayPass t o ptr)
    (hcall : cverReallocate choice ptr size 8 false t.heap = some (r, h'))
    (hstats : t'.stats = t.stats) :
    Counted t' ((ThreadCall.realloc choice ptr size).objects cfg t o r) ↔
      (ThreadCall.realloc choice ptr size).Meets cfg t o := by
  rw [ThreadCall.objects, ThreadCall.Meets]
  by_cases h0 : ptr = 0
  · subst h0
    rw [if_pos rfl, if_pos rfl]
    exact counted_same_iff hinv hcount hcall hstats
  · rw [if_neg h0, if_neg h0]
    by_cases hn : size = 0
    · rw [if_pos hn, if_pos hn, counted_iff, hstats, LiveObjects.release_stack]
      have hm := Counts.same_erase_iff (p := ptr) hcount.mallocs
      have hw := Counts.same_erase_iff (p := ptr) hcount.news
      rw [← hm, ← hw, ← and_assoc]
      exact and_iff_left hcount.stack
    · rw [if_neg hn, if_neg hn]
      have hnull := hinv.owns.reallocated_null_iff hpass h0 hn hcall
      rcases hinv.owns.reallocated hpass h0 hn hcall with ⟨-, hfresh, -⟩
      by_cases hr : r = 0
      · rw [if_pos hr, counted_iff, hstats]
        refine iff_of_true ⟨hcount.mallocs, hcount.news, hcount.stack⟩ ?_
        intro hmem
        exact hnull.mp hr (Or.inr hmem)
      · rw [if_neg hr, counted_iff, hstats, LiveObjects.obtain_mallocs, LiveObjects.obtain_news,
          LiveObjects.obtain_stack, if_neg hr]
        rw [hnull, Classical.not_imp] at hr
        have hw := Counts.same_erase_iff (p := ptr) hcount.news
        by_cases hmem : ptr ∈ o.news
        · refine iff_of_false ?_ fun hfails => hr.2 (hfails hmem)
          intro hcounted
          exact hw.mp hcounted.2.1 hmem
        · refine iff_of_true ⟨?_, hw.mpr hmem, hcount.stack⟩ fun h => absurd h hmem
          -- another block has taken its place
          have hmalloc := hr.1.resolve_right hmem
          rw [Finset.card_insert_of_notMem hfresh, hcount.mallocs]
          exact (Finset.card_erase_add_one hmalloc).symm

theorem counted_new_iff {size : Uptr} (hinv : StatsInv t o) (hcount : Counted t o)
    (hcall : Runtime.operatorNew choice size t.heap = some (r, h'))
    (hstats : t'.stats = (ThreadCall.operatorNew choice size).onStats cfg t.stats) :
    Counted t' ((ThreadCall.operatorNew choice size).objects cfg t o r) ↔
      (ThreadCall.operatorNew choice size).Meets cfg t o := by
  rcases hinv.owns.allocated hcall with ⟨-, -, hnull, -, hw⟩
  have hiff := Counts.count_obtain_iff hcount.news hinv.owns.null.2 hw
  rw [counted_iff, hstats, ThreadCall.objects, ThreadCall.onStats, ThreadCall.Meets,
    LiveObjects.obtainNew_mallocs, LiveObjects.obtainNew_news, LiveObjects.obtainNew_stack, hiff,
    ne_eq, hnull, gt_iff_lt, UInt64.not_lt]
  constructor
  · intro hcounted
    exact hcounted.2.1
  · intro hsize
    exact ⟨hcount.mallocs, hsize, hcount.stack⟩

theorem counted_enter_iff {typeTable pointer allocSize : Uptr} (hinv : StatsInv t o)
    (hcount : Counted t o) (hpass : pointer ≠ 0)
    (hstats : t'.stats = (ThreadCall.stackEnter typeTable pointer allocSize).onStats cfg t.stats) :
    Counted t' ((ThreadCall.stackEnter typeTable pointer allocSize).objects cfg t o r) ↔
      (ThreadCall.stackEnter typeTable pointer allocSize).Meets cfg t o := by
  rw [counted_iff, hstats, ThreadCall.objects, ThreadCall.onStats, ThreadCall.Meets]
  by_cases hcheck : cfg.flags.noCheck = true
  · rw [if_pos hcheck, hcheck, Bool.true_or, if_pos rfl]
    exact iff_of_true ⟨hcount.mallocs, hcount.news, hcount.stack⟩ (Or.inl rfl)
  · rw [if_neg hcheck, or_iff_right hcheck, Bool.eq_false_of_not_eq_true hcheck, Bool.false_or]
    by_cases hroot : t.root = none
    · -- nothing is registered
      have hnone : t.root.isNone = true := Option.isNone_iff_eq_none.mpr hroot
      rw [if_pos hnone]
      refine iff_of_false ?_ fun hmeets => hmeets.1 hroot
      intro hcounted
      exact add_one_ne _ (hcounted.2.2.trans hcount.stack.symm)
    · have hnot : ¬ t.root.isNone = true := by
        rwa [Option.isNone_iff_eq_none]
      have hnull : 0 ∉ insert pointer o.stack := by
        rw [Finset.mem_insert, not_or]
        exact ⟨Ne.symm hpass, hinv.not_null⟩
      have hiff := Counts.count_insert_iff hcount.stack hnull
      rw [if_neg hnot, and_iff_right hroot, ← hiff]
      constructor
      · intro hcounted
        exact hcounted.2.2
      · intro hstack
        exact ⟨hcount.mallocs, hcount.news, hstack⟩

theorem counted_exit_iff {pointer : Uptr} (hcount : Counted t o)
    (hstats : t'.stats = (ThreadCall.stackExit pointer).onStats cfg t.stats) :
    Counted t' ((ThreadCall.stackExit pointer).objects cfg t o r) ↔
      (ThreadCall.stackExit pointer).Meets cfg t o := by
  rw [counted_iff, hstats, ThreadCall.objects, ThreadCall.onStats, ThreadCall.Meets]
  by_cases hcheck : cfg.flags.noCheck = true
  · rw [if_pos hcheck, if_pos hcheck]
    exact iff_of_true ⟨hcount.mallocs, hcount.news, hcount.stack⟩ (Or.inl hcheck)
  · have hiff := Counts.leave_erase_iff (p := pointer) hcount.stack
    rw [if_neg hcheck, if_neg hcheck, or_iff_right hcheck, ← hiff]
    constructor
    · intro hcounted
      exact hcounted.2.2
    · intro hstack
      exact ⟨hcount.mallocs, hcount.news, hstack⟩

theorem counted_call_iff (hflag : cfg.stats = true) (hinv : StatsInv t o) (hcount : Counted t o)
    (hpass : c.Passes t o) (hrun : c.run cfg t = some (r, t')) :
    Counted t' (c.objects cfg t o r) ↔ c.Meets cfg t o := by
  rcases c.run_some hflag hrun with ⟨hheap, -, hstats⟩
  cases c with
  | malloc choice size => exact counted_malloc_iff hinv hcount hheap hstats
  | calloc choice nmemb size =>
    rw [ThreadCall.Meets]
    rw [ThreadCall.onStats] at hstats
    -- a product that overflows allocates nothing and counts nothing
    rcases calloc_some hheap with ⟨hover, rfl, -⟩ | ⟨hover, hcall⟩
    · rw [if_pos hover] at hstats
      refine iff_of_true ?_ (Or.inl hover)
      rw [ThreadCall.objects, LiveObjects.obtain, if_pos rfl, counted_iff, hstats]
      exact ⟨hcount.mallocs, hcount.news, hcount.stack⟩
    · rw [hover, if_neg Bool.false_ne_true] at hstats
      rw [hover, or_iff_right Bool.false_ne_true]
      exact counted_malloc_iff hinv hcount hcall hstats
  | realloc choice ptr size => exact counted_realloc_iff hinv hcount hpass hheap hstats
  | memalign choice boundary size =>
    exact counted_same_iff hinv hcount (memalign_some hheap) hstats
  -- the counter of the other kind stays right exactly if the block was of this kind
  | free ptr =>
    have hm := Counts.uncount_erase_iff (p := ptr) hcount.mallocs
    have hw := Counts.same_erase_iff (p := ptr) hcount.news
    rw [counted_iff, hstats, ThreadCall.Meets, ← hm, ← hw]
    exact and_congr_right fun _ => and_iff_left hcount.stack
  | operatorNew choice size => exact counted_new_iff hinv hcount hheap hstats
  | operatorDelete ptr =>
    have hm := Counts.same_erase_iff (p := ptr) hcount.mallocs
    have hw := Counts.uncount_erase_iff (p := ptr) hcount.news
    rw [counted_iff, hstats, ThreadCall.Meets, ← hm, ← hw]
    constructor
    · intro hcounted
      exact ⟨hcounted.2.1, hcounted.1⟩
    · intro hmeets
      exact ⟨hmeets.2, hmeets.1, hcount.stack⟩
  | stackEnter typeTable pointer allocSize => exact counted_enter_iff hinv hcount hpass hstats
  | stackExit pointer => exact counted_exit_iff hcount hstats

/-! ## Runs -/

variable {ok : CverThread → LiveObjects → ThreadCall → Prop}

/-- What is live is there, in every run. -/
theorem ThreadRun.inv (hflag : cfg.stats = true) (hrun : ThreadRun cfg ok t o) : StatsInv t o := by
  induction hrun with
  | start hheap hroot =>
    refine ⟨⟨⟨_, hheap, ?_⟩, Finset.disjoint_empty_left ∅⟩, ?_, Finset.notMem_empty 0⟩
    · simp
    · rcases hroot with rfl | ⟨h, rfl⟩
      · exact Or.inl ⟨rfl, rfl⟩
      · exact Or.inr ⟨_, Registers.create h, by simp⟩
  | call _ hpass _ hcall ih => exact ih.call hflag hpass hcall
  | heap _ hlive ih =>
    rcases ih.owns.run with ⟨live, hrun, hdom⟩
    exact ⟨⟨⟨live, hlive live hrun, hdom⟩, ih.owns.apart⟩, ih.registers, ih.not_null⟩

/-- The counters are right in every state of a run all of whose calls are of the right kind. -/
theorem ThreadRun.counts_live (hflag : cfg.stats = true)
    (hrun : ThreadRun cfg (ThreadCall.Meets cfg) t o) : Counted t o := by
  induction hrun with
  | start _ _ => exact ⟨rfl, rfl, rfl⟩
  | call hprev hpass hmeets hcall ih =>
    exact (counted_call_iff hflag (hprev.inv hflag) ih hpass hcall).mpr hmeets
  | heap _ _ ih => exact ⟨ih.mallocs, ih.news, ih.stack⟩

end Counting

/-- Only the `stats` flag. -/
def statsConfig : StatsConfig := ⟨{}, true, Malloc.bump⟩

/-- 16 bytes. -/
theorem counted_malloc_small :
    ∃ t, ThreadRun statsConfig (ThreadCall.Meets statsConfig) t ⟨{0x602000000000}, ∅, ∅⟩ ∧
      Counted t ⟨{0x602000000000}, ∅, ∅⟩ := by
  have hinit : LiveRun (initialHeap (fun _ => 0) false) fun _ => none := .init _ _
  have hgrow : populate 1 (initialHeap (fun _ => 0) false) = some (⟨⟩, grownHeap) :=
    eval_of_wp (by simp [populate, initialHeap, populateFreeList_small, grownHeap])
  have hmalloc : Runtime.malloc ⟨0, 0⟩ 16 grownHeap =
      some (0x602000000000, smallHeap ⟨16, 0, 0⟩) :=
    malloc_grownHeap (by decide) (by decide) (by decide)
  have hstart : ThreadRun statsConfig (ThreadCall.Meets statsConfig) ⟨grownHeap, none, .clear⟩
      ⟨∅, ∅, ∅⟩ := .start (hinit.grow hgrow) (Or.inl rfl)
  have hmeets : (ThreadCall.malloc ⟨0, 0⟩ 16).Meets statsConfig ⟨grownHeap, none, .clear⟩
      ⟨∅, ∅, ∅⟩ := by
    show (16 : Uptr) ≤ kMaxAllowedMallocSize
    decide
  have hcall : (ThreadCall.malloc ⟨0, 0⟩ 16).run statsConfig ⟨grownHeap, none, .clear⟩ =
      some (0x602000000000, ⟨smallHeap ⟨16, 0, 0⟩, none,
        { CverStats.clear with numMalloc := CverStats.clear.numMalloc.count }⟩) := by
    rw [ThreadCall.run, CverThread.malloc, statMalloc, modifyStats_bind rfl, inHeap, hmalloc]
    rfl
  have hpass : (ThreadCall.malloc ⟨0, 0⟩ 16).Passes ⟨grownHeap, none, .clear⟩ ⟨∅, ∅, ∅⟩ := trivial
  have hrun := hstart.call hpass hmeets hcall
  exact ⟨_, hrun, ThreadRun.counts_live rfl hrun⟩

/-- The end of a scope whose declaration has been jumped over. -/
theorem stack_exit_wraps :
    ¬ ∀ (cfg : StatsConfig) (t : CverThread) (o : LiveObjects), cfg.stats = true →
      ThreadRun cfg (fun _ _ _ => True) t o → Counted t o := by
  intro hall
  let t : CverThread := ⟨initialHeap (fun _ => 0) false, some (rbtreeCreate Heap.empty), .clear⟩
  have hstart : ThreadRun statsConfig (fun _ _ _ => True) t ⟨∅, ∅, ∅⟩ :=
    .start (.init _ _) (Or.inr ⟨_, rfl⟩)
  have hcheck : statsConfig.flags.noCheck = false := rfl
  rcases handleStackExit_spec statsConfig.malloc hcheck 0x7ffe0010
    (Registers.create Heap.empty) with ⟨root, hexit, -⟩
  have hcall : (ThreadCall.stackExit 0x7ffe0010).run statsConfig t =
      some (0, ⟨t.heap, root, { t.stats with stackObj := t.stats.stackObj.leave }⟩) := by
    apply null_bind
    rw [CverThread.stackExit, hcheck, if_neg Bool.false_ne_true, modifyStats_bind rfl, inRoot,
      hexit]
    rfl
  have hpass : (ThreadCall.stackExit 0x7ffe0010).Passes t ⟨∅, ∅, ∅⟩ := trivial
  have hcounted := hall _ _ _ rfl (hstart.call hpass trivial hcall)
  have hstack : (0 - 1 : Uptr).toNat = (Finset.erase ∅ (0x7ffe0010 : Uptr)).card := hcounted.stack
  rw [Finset.erase_empty, Finset.card_empty] at hstack
  exact absurd hstack (by decide)

end Caver.Runtime
