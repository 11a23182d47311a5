import Caver.Runtime.LiveBlocks

/-!
# Caver.Runtime.EarlyCalloc — `calloc` before the runtime is initialised

Until then, `calloc` hands out words of a static pool, without headers or
records. Later calls meet these blocks like any other pointer.

* `ProcessRun pool s blocks`: a run of the process leads to `s`, and `blocks` are
  the blocks that it has got from the pool. `pool_inv` is its invariant.
* `EarlyStep.Holds`: what a program may expect of one more call.
* `earlyStep_holds_iff`: it gets it, unless the size of an early block wraps when
  it is rounded to words, or an early block is reallocated.
-/

namespace Caver.Runtime

open Caver.Core Caver.Sanitizer

/-! ## The process -/

def kCallocPoolSize : Uptr := 1024

def kWordSize : Uptr := 8

theorem kWordSize_toNat : kWordSize.toNat = 8 := rfl

/-- The state of the allocator, the words of `calloc_memory_for_dlsym` that are
`allocated`, and `cver_initialized`. -/
structure Process where
  heap : HeapState
  allocated : Uptr
  initialized : Bool

/-- A program on the allocator's state alone. -/
def onHeap {α : Type} (m : HeapM α) : Prog Process α := fun s =>
  (m s.heap).map fun r => (r.1, { s with heap := r.2 })

/-- `InitCverIfNecessary`. -/
def initCverIfNecessary : Prog Process PUnit := modify fun s => { s with initialized := true }

namespace Process

/-- `calloc`, with the pool at `pool`. -/
def calloc (pool : Uptr) (choice : Choice) (nmemb size : Uptr) : Prog Process Uptr := do
  if callocShouldReturnNullDueToOverflow size nmemb then onHeap allocatorReturnNull
  else if !(← get).initialized then do
    let sizeInWords := (nmemb * size + kWordSize - 1) / kWordSize
    let mem := pool + (← get).allocated * kWordSize
    modify fun s => { s with allocated := s.allocated + sizeInWords }
    check ((← get).allocated < kCallocPoolSize)
    return mem
  else onHeap (cverReallocate choice 0 (nmemb * size) 8 true)

def realloc (choice : Choice) (ptr size : Uptr) : Prog Process Uptr := do
  if !(← get).initialized then initCverIfNecessary
  onHeap (cverReallocate choice ptr size 8 false)

def free (ptr : Uptr) : Prog Process PUnit := onHeap (Runtime.free ptr)

end Process

/-! ## Runs -/

/-- The linker has put the pool into user space, and the primary allocator's
space is elsewhere. -/
structure PoolPlaced (pool : Uptr) : Prop where
  not_null : 0 < pool.toNat
  user : pool.toNat + 8192 ≤ 2 ^ 47
  outside : pool.toNat + 8192 ≤ 0x600000000000 ∨ 0x680000000000 ≤ pool.toNat

/-- The kernel has mapped no memory over the pool. -/
def PoolApart (pool : Uptr) (s : HeapState) : Prop :=
  ∀ h ∈ s.large, h.mapBeg.toNat + h.mapSize.toNat ≤ pool.toNat ∨
    pool.toNat + 8192 ≤ h.mapBeg.toNat

/-- The number of bytes can be rounded up to whole words. -/
def RoundsToWords (nmemb size : Uptr) : Prop := nmemb.toNat * size.toNat + 7 < 2 ^ 64

/-- One operation of the allocator. -/
inductive HeapStep (s : HeapState) : HeapState → Prop
  | request {req : Request} {choice : Choice} {r : Uptr} {s' : HeapState} :
      req.run choice s = some (r, s') → HeapStep s s'
  | deallocate {p : Uptr} {s' : HeapState} : cverDeallocate p s = some (⟨⟩, s') → HeapStep s s'
  | grow {c : ℕ} {s' : HeapState} : populate c s = some (⟨⟩, s') → HeapStep s s'

/-- Early blocks: where they are, and how many bytes were asked for. -/
abbrev EarlyBlocks := List (Uptr × ℕ)

/-- A run of the process. Before the initialisation, `calloc` is called with
sizes that can be rounded; after it, the allocator does whatever it is asked
for. The program does not write to words that it has not been given. -/
inductive ProcessRun (pool : Uptr) : Process → EarlyBlocks → Prop
  | start (mem : Uptr → Uptr) (mayReturnNull : Bool) :
      (∀ a, InBytes pool 8192 a → mem a = 0) →
      ProcessRun pool ⟨initialHeap mem mayReturnNull, 0, false⟩ []
  | calloc {s s' : Process} {blocks : EarlyBlocks} {choice : Choice} {nmemb size r : Uptr} :
      ProcessRun pool s blocks → s.initialized = false →
      (callocShouldReturnNullDueToOverflow size nmemb = true ∨ RoundsToWords nmemb size) →
      Process.calloc pool choice nmemb size s = some (r, s') →
      ProcessRun pool s' (if r = 0 then blocks else (r, nmemb.toNat * size.toNat) :: blocks)
  | init {s s' : Process} {blocks : EarlyBlocks} :
      ProcessRun pool s blocks → initCverIfNecessary s = some (⟨⟩, s') → ProcessRun pool s' blocks
  | heap {s : Process} {h : HeapState} {blocks : EarlyBlocks} :
      ProcessRun pool s blocks → s.initialized = true → HeapStep s.heap h → PoolApart pool h →
      ProcessRun pool { s with heap := h } blocks
  | write {s : Process} {blocks : EarlyBlocks} (mem : Uptr → Uptr) : ProcessRun pool s blocks →
      (∀ a, InBytes pool 8192 a → pool.toNat + 8 * s.allocated.toNat ≤ a.toNat →
        mem a = s.heap.mem a) →
      ProcessRun pool { s with heap := { s.heap with mem := mem } } blocks

/-- What the runs keep. -/
structure PoolInv (pool : Uptr) (s : Process) (blocks : EarlyBlocks) : Prop where
  heap : HeapRun s.heap
  apart : PoolApart pool s.heap
  allocated : s.allocated.toNat < 1024
  blocks : ∀ b ∈ blocks, pool.toNat ≤ b.1.toNat ∧
    b.1.toNat + b.2 ≤ pool.toNat + 8 * s.allocated.toNat ∧ b.1.toNat < pool.toNat + 8192
  zero : s.initialized = false → ∀ a, InBytes pool 8192 a →
    pool.toNat + 8 * s.allocated.toNat ≤ a.toNat → s.heap.mem a = 0

variable {pool p r nmemb size n : Uptr} {s s' : Process} {blocks : EarlyBlocks} {choice : Choice}

theorem HeapStep.run {h h' : HeapState} (hrun : HeapRun h) (hstep : HeapStep h h') :
    HeapRun h' := by
  cases hstep with
  | request hreq => exact hrun.request hreq
  | deallocate hfree => exact hrun.deallocate hfree
  | grow hgrow => exact hrun.grow hgrow

/-- `size_in_words`, where the number of bytes can be rounded. -/
theorem sizeInWords_toNat (hover : ¬ callocShouldReturnNullDueToOverflow size nmemb = true)
    (hround : RoundsToWords nmemb size) :
    ((nmemb * size + kWordSize - 1) / kWordSize).toNat = (nmemb.toNat * size.toNat + 7) / 8 := by
  have hmul := toNat_mul_of_no_overflow hover
  unfold RoundsToWords at hround
  rw [UInt64.toNat_div, UInt64.toNat_sub, UInt64.toNat_add, hmul, kWordSize_toNat, UInt64.toNat_one]
  omega

/-- And where it cannot: no words. -/
theorem sizeInWords_zero (hover : ¬ callocShouldReturnNullDueToOverflow size nmemb = true)
    (hround : ¬ RoundsToWords nmemb size) :
    (nmemb * size + kWordSize - 1) / kWordSize = 0 := by
  have hmul := toNat_mul_of_no_overflow hover
  have hlt := (nmemb * size).toNat_lt
  unfold RoundsToWords at hround
  rw [← UInt64.toNat_inj, UInt64.toNat_div, UInt64.toNat_sub, UInt64.toNat_add, kWordSize_toNat,
    UInt64.toNat_one, hmul]
  rw [hmul] at hlt
  show _ = 0
  omega

/-- An early `calloc` that is not refused: the next words of the pool, if there
are enough. -/
theorem calloc_early (pool : Uptr) (choice : Choice)
    (hover : ¬ callocShouldReturnNullDueToOverflow size nmemb = true)
    (hinit : s.initialized = false) :
    Process.calloc pool choice nmemb size s =
      if s.allocated + (nmemb * size + kWordSize - 1) / kWordSize < kCallocPoolSize then
        some (pool + s.allocated * kWordSize,
          { s with allocated := s.allocated + (nmemb * size + kWordSize - 1) / kWordSize })
      else none := by
  split
  · next hpool =>
    refine eval_of_wp ?_
    simp [Process.calloc, hover, hinit, hpool]
  · next hpool =>
    have hwlp : wlp (Process.calloc pool choice nmemb size) (fun _ _ => False) s := by
      simp [Process.calloc, hover, hinit, UInt64.not_lt.mp hpool]
    rcases hrun : Process.calloc pool choice nmemb size s with _ | ⟨r, s'⟩
    · rfl
    · exact (hwlp.elim hrun).elim

/-- One that is refused changes nothing. -/
theorem calloc_refused (hover : callocShouldReturnNullDueToOverflow size nmemb = true) :
    wlp (Process.calloc pool choice nmemb size) (fun r s' => r = 0 ∧ s' = s) s := by
  intro r s' hrun
  rw [Process.calloc, if_pos hover] at hrun
  rcases Option.map_eq_some_iff.mp hrun with ⟨⟨r₁, h⟩, hnull, heq⟩
  have hwlp : wlp allocatorReturnNull (fun r h => r = 0 ∧ h = s.heap) s.heap :=
    wlp_allocatorReturnNull ⟨rfl, rfl⟩
  rcases hwlp.elim hnull with ⟨hr, hh⟩
  cases heq
  exact ⟨hr, by rw [hh]⟩

/-- The address of the next word of the pool. -/
theorem poolWord_toNat (hp : PoolPlaced pool) (hall : s.allocated.toNat < 1024) :
    (pool + s.allocated * kWordSize).toNat = pool.toNat + 8 * s.allocated.toNat := by
  have huser := hp.user
  rw [toNat_add_of_lt, toNat_mul_of_lt, kWordSize_toNat, Nat.mul_comm]
  · rw [kWordSize_toNat]
    omega
  · rw [toNat_mul_of_lt, kWordSize_toNat]
    · omega
    · rw [kWordSize_toNat]
      omega

/-- An early `calloc` whose size can be rounded takes the next words of the pool. -/
theorem calloc_served (hp : PoolPlaced pool) (hall : s.allocated.toNat < 1024)
    (hinit : s.initialized = false)
    (hover : ¬ callocShouldReturnNullDueToOverflow size nmemb = true)
    (hround : RoundsToWords nmemb size)
    (hcall : Process.calloc pool choice nmemb size s = some (r, s')) :
    r.toNat = pool.toNat + 8 * s.allocated.toNat ∧
      ∃ words, s' = { s with allocated := words } ∧
        words.toNat = s.allocated.toNat + (nmemb.toNat * size.toNat + 7) / 8 ∧
        words.toNat < 1024 := by
  have hwords := sizeInWords_toNat hover hround
  have hk : kCallocPoolSize.toNat = 1024 := rfl
  have hsum : (s.allocated + (nmemb * size + kWordSize - 1) / kWordSize).toNat =
      s.allocated.toNat + (nmemb.toNat * size.toNat + 7) / 8 := by
    unfold RoundsToWords at hround
    rw [toNat_add_of_lt, hwords]
    rw [hwords]
    omega
  rw [calloc_early pool choice hover hinit] at hcall
  split at hcall
  · next hpool =>
    cases hcall
    rw [UInt64.lt_iff_toNat_lt, hk] at hpool
    exact ⟨poolWord_toNat hp hall, _, rfl, hsum, hpool⟩
  · exact absurd hcall (by simp)

/-- Every run keeps the invariant. -/
theorem pool_inv (hp : PoolPlaced pool) (hrun : ProcessRun pool s blocks) :
    PoolInv pool s blocks := by
  induction hrun with
  | start mem mayReturnNull hzero =>
    exact ⟨.init _ _, fun h hh => absurd hh List.not_mem_nil, Nat.zero_lt_succ _,
      fun b hb => absurd hb List.not_mem_nil, fun _ a ha _ => hzero a ha⟩
  | @calloc s s' blocks choice nmemb size r hrun hinit hok hcall ih =>
    -- before initialisation `calloc` takes words from the pool, unless the product overflows
    by_cases hover : callocShouldReturnNullDueToOverflow size nmemb = true
    · rcases (calloc_refused hover).elim hcall with ⟨hr, rfl⟩
      rw [if_pos hr]
      exact ih
    · rcases calloc_served hp ih.allocated hinit hover (hok.resolve_left hover) hcall with
        ⟨hr, words, rfl, hwords, hlt⟩
      have hne : ¬ r = 0 := by
        rintro rfl
        have hpos := hp.not_null
        have hz := UInt64.toNat_zero
        omega
      rw [if_neg hne]
      refine ⟨ih.heap, ih.apart, hlt, ?_, ?_⟩
      · intro b hb
        dsimp only
        rcases List.mem_cons.mp hb with rfl | hb
        · dsimp only
          omega
        · have hold := ih.blocks b hb
          omega
      · intro _ a ha hlo
        dsimp only at hlo
        exact ih.zero hinit a ha (by omega)
  | init hrun hcall ih =>
    cases hcall
    exact ⟨ih.heap, ih.apart, ih.allocated, ih.blocks, fun h => absurd h Bool.true_eq_false.mp⟩
  | heap hrun hinit hstep hapart ih =>
    -- from here on the pool is not used, so that it need not be zero
    refine ⟨hstep.run ih.heap, hapart, ih.allocated, ih.blocks, ?_⟩
    intro h
    dsimp only at h
    rw [hinit] at h
    exact absurd h (by decide)
  | write mem hrun hmem ih =>
    refine ⟨ih.heap.write mem, ih.apart, ih.allocated, ih.blocks, ?_⟩
    intro h a ha hlo
    exact (hmem a ha hlo).trans (ih.zero h a ha hlo)

/-! ## One more call -/

/-- A call on the pool or on one of its blocks. -/
inductive EarlyStep where
  | calloc (nmemb size : Uptr)
  | free (p : Uptr)
  | realloc (p n : Uptr)
deriving DecidableEq, Repr

/-- What a program may expect of the call.

* An early `calloc` returns null or stops the process, or it returns cleared
  bytes of the pool that no earlier block has.
* Freeing an early block changes nothing.
* Reallocating one within the limit returns a block that is large enough and
  starts with its bytes. -/
def EarlyStep.Holds (pool : Uptr) (choice : Choice) (s : Process) (blocks : EarlyBlocks) :
    EarlyStep → Prop
  | .calloc nmemb size => s.initialized = false →
      ∀ r s', Process.calloc pool choice nmemb size s = some (r, s') → r ≠ 0 →
        (pool.toNat ≤ r.toNat ∧ r.toNat + nmemb.toNat * size.toNat ≤ pool.toNat + 8192) ∧
          ∀ a, InBytes r (nmemb.toNat * size.toNat) a →
            s'.heap.mem a = 0 ∧ ∀ b ∈ blocks, ¬ InBytes b.1 b.2 a
  | .free p => s.initialized = true → (∃ k, (p, k) ∈ blocks) →
      Process.free p s = some (⟨⟩, s)
  | .realloc p n => s.initialized = true → n ≠ 0 → n ≤ kMaxAllowedMallocSize →
      ∀ k, (p, k) ∈ blocks → ∀ r s', Process.realloc choice p n s = some (r, s') →
        r ≠ 0 ∧ HasRoom s'.heap r n.toNat ∧ ∀ i, i < min k n.toNat →
          s'.heap.mem (r + UInt64.ofNat i) = s.heap.mem (p + UInt64.ofNat i)

/-- When the program gets it: the size of an early block can be rounded to
words, and no early block is reallocated. -/
def EarlyStep.Meets (s : Process) (blocks : EarlyBlocks) : EarlyStep → Prop
  | .calloc nmemb size => s.initialized = false →
      callocShouldReturnNullDueToOverflow size nmemb = true ∨ RoundsToWords nmemb size
  | .free _ => True
  | .realloc p n => ¬ (s.initialized = true ∧ n ≠ 0 ∧ n ≤ kMaxAllowedMallocSize ∧
      ∃ k, (p, k) ∈ blocks)

/-- The allocator has no block where the pool is. -/
theorem PoolInv.not_blockStart (hp : PoolPlaced pool) (hinv : PoolInv pool s blocks) {k : ℕ}
    (hb : (p, k) ∈ blocks) : p ≠ 0 ∧ ¬ IsBlockStart s.heap p := by
  have hbounds := hinv.blocks (p, k) hb
  have hpos := hp.not_null
  have hout := hp.outside
  dsimp only at hbounds
  constructor
  · rintro rfl
    have hz := UInt64.toNat_zero
    omega
  · rintro (⟨c, i, h0, hc, hmapped, hbeg⟩ | ⟨h, hh, hbeg⟩)
    · -- chunks are in the primary space
      have happart := (hinv.heap.blocks.regions c h0 hc).apart
      have hsize := chunkSize_pos h0 hc
      rw [Nat.succ_mul] at hmapped
      unfold chunkBeg at hbeg
      omega
    · have hok := hinv.heap.blocks.large h hh
      have hlo := UInt64.le_iff_toNat_le.mp hok.mapped.1
      have huser := hok.user_space
      have hpages := hinv.heap.blocks.pages h hh
      have hk := kPageSize_toNat
      have hsum : (h.header + kPageSize).toNat = h.header.toNat + 4096 := by
        rw [toNat_add_of_lt, hk]
        omega
      have hround : h.size.toNat ≤ (roundUp h.size kPageSize).toNat := by
        refine le_roundUp (by decide) ?_
        omega
      have hsize := hok.size_pos
      rw [hbeg, hsum] at hbounds
      rcases hinv.apart h hh with hlt | hlt
      · omega
      · omega

/-- An early `calloc` returns cleared words that no earlier block has. -/
theorem calloc_holds (hp : PoolPlaced pool) (hinv : PoolInv pool s blocks)
    (hmeets : (EarlyStep.calloc nmemb size).Meets s blocks) :
    (EarlyStep.calloc nmemb size).Holds pool choice s blocks := by
  intro hinit r s' hcall hr
  rcases hmeets hinit with hover | hround
  · exact absurd ((calloc_refused hover).elim hcall).1 hr
  by_cases hover : callocShouldReturnNullDueToOverflow size nmemb = true
  · exact absurd ((calloc_refused hover).elim hcall).1 hr
  rcases calloc_served hp hinv.allocated hinit hover hround hcall with
    ⟨hstart, words, rfl, hwords, hlt⟩
  constructor
  · constructor
    · omega
    · omega
  · intro a ha
    rcases ha with ⟨hlo, hhi⟩
    constructor
    · exact hinv.zero hinit a ⟨by omega, by omega⟩ (by omega)
    · intro b hb hbytes
      rcases hbytes with ⟨hlo', hhi'⟩
      have hold := hinv.blocks b hb
      omega

/-- Where the rounding wraps, no words are taken, and the first is returned. -/
theorem calloc_wraps (hp : PoolPlaced pool) (hinv : PoolInv pool s blocks)
    (hinit : s.initialized = false)
    (hover : ¬ callocShouldReturnNullDueToOverflow size nmemb = true)
    (hround : ¬ RoundsToWords nmemb size) :
    ¬ (EarlyStep.calloc nmemb size).Holds pool choice s blocks := by
  intro hholds
  have hnext := poolWord_toNat hp hinv.allocated
  have hpos := hp.not_null
  have hroom : s.allocated + 0 < kCallocPoolSize := by
    rw [UInt64.add_zero, UInt64.lt_iff_toNat_lt]
    exact hinv.allocated
  have hcall := calloc_early pool choice hover hinit
  rw [sizeInWords_zero hover hround, if_pos hroom] at hcall
  have hr : pool + s.allocated * kWordSize ≠ 0 := by
    intro hz
    have hz' : (0 : Uptr).toNat = 0 := rfl
    rw [hz, hz'] at hnext
    omega
  have hbytes := (hholds hinit _ _ hcall hr).1.2
  have huser := hp.user
  unfold RoundsToWords at hround
  omega

/-- `realloc` does not know the pool. -/
theorem realloc_early (hp : PoolPlaced pool) (hinv : PoolInv pool s blocks)
    (hinit : s.initialized = true) (h0 : n ≠ 0) {k : ℕ} (hb : (p, k) ∈ blocks) :
    Process.realloc choice p n s = some (0, s) := by
  rcases hinv.not_blockStart hp hb with ⟨hp0, hstart⟩
  have hrun : cverReallocate choice p n 8 false s.heap = some (0, s.heap) := by
    refine eval_of_wp ?_
    rw [cverReallocate, if_neg hp0, if_neg h0, wp_bind]
    refine (combinedGetBlockBegin_ne hinv.heap.blocks.large hp0 hstart).mono ?_
    rintro beg _ ⟨rfl, hne⟩
    rw [if_pos hne, wp_pure]
    exact ⟨rfl, rfl⟩
  have honHeap : onHeap (cverReallocate choice p n 8 false) s = some (0, s) := by
    unfold onHeap
    rw [hrun]
    rfl
  refine eval_of_wp ?_
  simp only [Process.realloc, wp_bind, wp_get, hinit, Bool.not_true, Bool.false_eq_true, if_false]
  exact (wp_eval honHeap).mpr ⟨rfl, rfl⟩

/-- In every run, one more call does what a program may expect exactly if it
meets the condition. -/
theorem earlyStep_holds_iff (hp : PoolPlaced pool) (hrun : ProcessRun pool s blocks)
    (choice : Choice) (step : EarlyStep) :
    step.Holds pool choice s blocks ↔ step.Meets s blocks := by
  have hinv := pool_inv hp hrun
  cases step with
  | calloc nmemb size =>
    constructor
    · intro hholds hinit
      by_contra hnot
      rw [not_or] at hnot
      exact calloc_wraps hp hinv hinit hnot.1 hnot.2 hholds
    · exact calloc_holds hp hinv
  | free p =>
    refine ⟨fun _ => trivial, ?_⟩
    rintro - - ⟨k, hb⟩
    rcases hinv.not_blockStart hp hb with ⟨hp0, hstart⟩
    have hfree := cverDeallocate_unchanged hinv.heap.blocks.large hp0 hstart
    have hcall : Runtime.free p s.heap = some (⟨⟩, s.heap) := by
      rw [Runtime.free, if_neg hp0]
      exact hfree
    show (Runtime.free p s.heap).map _ = _
    rw [hcall]
    rfl
  | realloc p n =>
    constructor
    · rintro hholds ⟨hinit, h0, hlimit, k, hb⟩
      exact (hholds hinit h0 hlimit k hb 0 s (realloc_early hp hinv hinit h0 hb)).1 rfl
    · intro hnot hinit h0 hlimit k hb
      exact absurd ⟨hinit, h0, hlimit, k, hb⟩ hnot

/-- A process before its first call, with the pool at `0x500000`. -/
def startProcess : Process := ⟨initialHeap (fun _ => 0) false, 0, false⟩

theorem startProcess_run : ProcessRun 0x500000 startProcess [] :=
  .start (fun _ => 0) false fun _ _ => rfl

theorem pool_placed : PoolPlaced 0x500000 := ⟨by decide, by decide, .inl (by decide)⟩

/-- 4 times 8 bytes are served. -/
theorem earlyStep_holds_first :
    (EarlyStep.calloc 4 8).Holds 0x500000 ⟨0, 0⟩ startProcess [] :=
  (earlyStep_holds_iff pool_placed startProcess_run ⟨0, 0⟩ (.calloc 4 8)).mpr
    fun _ => .inr (by unfold RoundsToWords; decide)

/-- `calloc(1, 2^64 - 1)` returns the pool. A block of 16 bytes that is
reallocated to 32 after the initialisation is refused. -/
theorem earlyStep_wraps_and_refuses :
    Process.calloc 0x500000 ⟨0, 0⟩ 1 0xffffffffffffffff startProcess =
        some (0x500000, startProcess) ∧
      ¬ (EarlyStep.calloc 1 0xffffffffffffffff).Holds 0x500000 ⟨0, 0⟩ startProcess [] ∧
      ∃ s, ProcessRun 0x500000 s [(0x500000, 16)] ∧ s.initialized = true ∧
        Process.realloc ⟨0, 0⟩ 0x500000 32 s = some (0, s) := by
  have hwraps : ¬ RoundsToWords 1 0xffffffffffffffff := by
    unfold RoundsToWords
    decide
  have hinv := pool_inv pool_placed startProcess_run
  -- one early block, and then the initialisation
  have hcall : Process.calloc 0x500000 ⟨0, 0⟩ 2 8 startProcess =
      some (0x500000, { startProcess with allocated := 2 }) := rfl
  have hrounds : RoundsToWords 2 8 := by
    unfold RoundsToWords
    decide
  have hblock := startProcess_run.calloc rfl (.inr hrounds) hcall
  have hstarted : initCverIfNecessary { startProcess with allocated := 2 } =
      some (⟨⟩, { startProcess with allocated := 2, initialized := true }) := rfl
  have hinit := hblock.init hstarted
  refine ⟨rfl, calloc_wraps pool_placed hinv rfl (by decide) hwraps, _, hinit, rfl, ?_⟩
  exact realloc_early pool_placed (pool_inv pool_placed hinit) rfl (by decide)
    List.mem_cons_self

end Caver.Runtime
