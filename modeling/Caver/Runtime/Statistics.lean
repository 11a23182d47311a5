import Caver.Runtime.Reallocation
import Caver.Runtime.StackRegistry

/-!
# Caver.Runtime.Statistics — counters of live objects

With the `stats` flag, the interceptors and the hooks for the stack count what is live.

* `Counts`: the four counters of one kind of object.
* `ThreadCall`: the interceptors and hooks. `ThreadCall.run` is what they do to a thread.
* `LiveObjects`: what is live. `ThreadCall.objects`: what is live after a call.
* `ThreadRun`: the runs of a thread, with what is live.
-/

namespace Caver.Runtime

open Caver.Core Caver.Sanitizer

/-! ## The counters -/

/-- How many objects have come and gone, how many there are, and how many there were at most. -/
structure Counts where
  alloc : Uptr
  free : Uptr
  current : Uptr
  peak : Uptr
deriving DecidableEq, Repr

/-- The counters for stack objects (`stackObjAlloc` to `stackObjPeak`), for the `malloc` family
(`numMalloc` to `numMallocPeak`) and for `operator new` (`numNew` to `numNewPeak`). -/
structure CverStats where
  stackObj : Counts
  numMalloc : Counts
  numNew : Counts
deriving DecidableEq, Repr

/-- `CverStats::Clear`. -/
def CverStats.clear : CverStats := ⟨⟨0, 0, 0, 0⟩, ⟨0, 0, 0, 0⟩, ⟨0, 0, 0, 0⟩⟩

namespace Counts

/-- One more. -/
def count (c : Counts) : Counts :=
  let current := c.current + 1
  { c with
    alloc := c.alloc + 1
    current := current
    peak := if current > c.peak then current else c.peak }

/-- One less, if there are any. -/
def uncount (c : Counts) : Counts :=
  { c with
    free := c.free + 1
    current := if c.current > 0 then c.current - 1 else c.current }

/-- One less. -/
def leave (c : Counts) : Counts := { c with free := c.free + 1, current := c.current - 1 }

end Counts

/-! ## The interceptors and hooks -/

/-- What a thread works on: the heap, the tree of its stack objects, and its counters. -/
structure CverThread where
  heap : HeapState
  root : Option RbTree
  stats : CverStats

/-- The flags, and the memory for tree nodes. -/
structure StatsConfig where
  flags : Flags
  stats : Bool
  malloc : Malloc

/-- `CVER_DEBUG_STMT(flags()->stats, …)`. -/
def modifyStats (cfg : StatsConfig) (f : CverStats → CverStats) : Prog CverThread PUnit :=
  if cfg.stats then modify fun t => { t with stats := f t.stats } else return ()

/-- `STAT_MALLOC`. -/
def statMalloc (cfg : StatsConfig) : Prog CverThread PUnit :=
  modifyStats cfg fun s => { s with numMalloc := s.numMalloc.count }

/-- `STAT_FREE`. -/
def statFree (cfg : StatsConfig) : Prog CverThread PUnit :=
  modifyStats cfg fun s => { s with numMalloc := s.numMalloc.uncount }

/-- `STAT_NEW`. -/
def statNew (cfg : StatsConfig) : Prog CverThread PUnit :=
  modifyStats cfg fun s => { s with numNew := s.numNew.count }

/-- `STAT_DELETE`. -/
def statDelete (cfg : StatsConfig) : Prog CverThread PUnit :=
  modifyStats cfg fun s => { s with numNew := s.numNew.uncount }

/-- A program on the heap alone. -/
def inHeap {α : Type} (m : HeapM α) : Prog CverThread α := fun t =>
  (m t.heap).map fun r => (r.1, { t with heap := r.2 })

/-- A hook on the tree alone. -/
def inRoot (f : Option RbTree → Option (Option RbTree)) : Prog CverThread PUnit := fun t =>
  (f t.root).map fun root => (⟨⟩, { t with root := root })

namespace CverThread

def malloc (cfg : StatsConfig) (choice : Choice) (size : Uptr) : Prog CverThread Uptr := do
  statMalloc cfg
  inHeap (Runtime.malloc choice size)

/-- `calloc` of an initialised runtime: the flags are read when it is initialised. -/
def calloc (cfg : StatsConfig) (choice : Choice) (nmemb size : Uptr) : Prog CverThread Uptr := do
  if callocShouldReturnNullDueToOverflow size nmemb then inHeap allocatorReturnNull
  else do
    statMalloc cfg
    inHeap (cverReallocate choice 0 (nmemb * size) 8 true)

def realloc (choice : Choice) (ptr size : Uptr) : Prog CverThread Uptr :=
  inHeap (Runtime.realloc choice ptr size)

def memalign (choice : Choice) (boundary size : Uptr) : Prog CverThread Uptr :=
  inHeap (Runtime.memalign choice boundary size)

def free (cfg : StatsConfig) (ptr : Uptr) : Prog CverThread PUnit := do
  statFree cfg
  inHeap (Runtime.free ptr)

def operatorNew (cfg : StatsConfig) (choice : Choice) (size : Uptr) : Prog CverThread Uptr := do
  statNew cfg
  inHeap (Runtime.operatorNew choice size)

def operatorDelete (cfg : StatsConfig) (ptr : Uptr) : Prog CverThread PUnit := do
  statDelete cfg
  inHeap (Runtime.operatorDelete ptr)

/-- `__cver_handle_stack_enter`, with its counters. -/
def stackEnter (cfg : StatsConfig) (typeTable pointer allocSize : Uptr) :
    Prog CverThread PUnit := do
  if cfg.flags.noCheck then return ()
  else do
    modifyStats cfg fun s => { s with stackObj := s.stackObj.count }
    inRoot (handleStackEnter cfg.flags cfg.malloc typeTable pointer allocSize)

/-- `__cver_handle_stack_exit`, with its counters. -/
def stackExit (cfg : StatsConfig) (pointer : Uptr) : Prog CverThread PUnit := do
  if cfg.flags.noCheck then return ()
  else do
    modifyStats cfg fun s => { s with stackObj := s.stackObj.leave }
    inRoot (handleStackExit cfg.flags cfg.malloc pointer)

end CverThread

inductive ThreadCall where
  | malloc (choice : Choice) (size : Uptr)
  | calloc (choice : Choice) (nmemb size : Uptr)
  | realloc (choice : Choice) (ptr size : Uptr)
  | memalign (choice : Choice) (boundary size : Uptr)
  | free (ptr : Uptr)
  | operatorNew (choice : Choice) (size : Uptr)
  | operatorDelete (ptr : Uptr)
  | stackEnter (typeTable pointer allocSize : Uptr)
  | stackExit (pointer : Uptr)

/-- A call and what it returns; null, if it returns nothing. -/
def ThreadCall.run (cfg : StatsConfig) : ThreadCall → Prog CverThread Uptr
  | .malloc choice size => CverThread.malloc cfg choice size
  | .calloc choice nmemb size => CverThread.calloc cfg choice nmemb size
  | .realloc choice ptr size => CverThread.realloc choice ptr size
  | .memalign choice boundary size => CverThread.memalign choice boundary size
  | .free ptr => do
    CverThread.free cfg ptr
    return 0
  | .operatorNew choice size => CverThread.operatorNew cfg choice size
  | .operatorDelete ptr => do
    CverThread.operatorDelete cfg ptr
    return 0
  | .stackEnter typeTable pointer allocSize => do
    CverThread.stackEnter cfg typeTable pointer allocSize
    return 0
  | .stackExit pointer => do
    CverThread.stackExit cfg pointer
    return 0

/-! ## What is live -/

/-- The live blocks of the `malloc` family and of `operator new`, and the registered objects. -/
structure LiveObjects where
  mallocs : Finset Uptr
  news : Finset Uptr
  stack : Finset Uptr

namespace LiveObjects

/-- The `malloc` family has returned `r`. -/
def obtain (o : LiveObjects) (r : Uptr) : LiveObjects :=
  if r = 0 then o else { o with mallocs := insert r o.mallocs }

/-- `operator new` has returned `r`. -/
def obtainNew (o : LiveObjects) (r : Uptr) : LiveObjects :=
  if r = 0 then o else { o with news := insert r o.news }

/-- The block at `p` is given back. -/
def release (o : LiveObjects) (p : Uptr) : LiveObjects :=
  { o with mallocs := o.mallocs.erase p, news := o.news.erase p }

@[simp] theorem obtain_stack (o : LiveObjects) (r : Uptr) : (o.obtain r).stack = o.stack := by
  unfold obtain
  split <;> rfl

@[simp] theorem obtainNew_stack (o : LiveObjects) (r : Uptr) :
    (o.obtainNew r).stack = o.stack := by
  unfold obtainNew
  split <;> rfl

@[simp] theorem release_stack (o : LiveObjects) (p : Uptr) : (o.release p).stack = o.stack := rfl

end LiveObjects

/-- What is live after a call that has returned `r`. Only a thread with a tree registers. -/
def ThreadCall.objects (cfg : StatsConfig) (t : CverThread) (o : LiveObjects) (r : Uptr) :
    ThreadCall → LiveObjects
  | .malloc _ _ | .calloc _ _ _ | .memalign _ _ _ => o.obtain r
  | .realloc _ ptr size =>
    if ptr = 0 then o.obtain r
    else if size = 0 then o.release ptr
    else if r = 0 then o else (o.release ptr).obtain r
  | .operatorNew _ _ => o.obtainNew r
  | .free ptr | .operatorDelete ptr => o.release ptr
  | .stackEnter _ pointer _ =>
    if cfg.flags.noCheck || t.root.isNone then o
    else { o with stack := insert pointer o.stack }
  | .stackExit pointer =>
    if cfg.flags.noCheck then o else { o with stack := o.stack.erase pointer }

/-- Null, a live block, or a pointer at which no block starts. -/
def MayPass (t : CverThread) (o : LiveObjects) (p : Uptr) : Prop :=
  p = 0 ∨ p ∈ o.mallocs ∨ p ∈ o.news ∨ ¬ IsBlockStart t.heap p

/-- What a program passes. No object is at null. -/
def ThreadCall.Passes (t : CverThread) (o : LiveObjects) : ThreadCall → Prop
  | .realloc _ ptr _ | .free ptr | .operatorDelete ptr => MayPass t o ptr
  | .stackEnter _ pointer _ => pointer ≠ 0
  | _ => True

/-- The runs of a thread of which every call is as `ok` says. What else happens on the heap
neither obtains nor gives back a block. -/
inductive ThreadRun (cfg : StatsConfig) (ok : CverThread → LiveObjects → ThreadCall → Prop) :
    CverThread → LiveObjects → Prop
  | start {heap : HeapState} {root : Option RbTree} : LiveRun heap (fun _ => none) →
      (root = none ∨ ∃ h, root = some (rbtreeCreate h)) →
      ThreadRun cfg ok ⟨heap, root, .clear⟩ ⟨∅, ∅, ∅⟩
  | call {t t' : CverThread} {o : LiveObjects} {c : ThreadCall} {r : Uptr} :
      ThreadRun cfg ok t o → c.Passes t o → ok t o c → c.run cfg t = some (r, t') →
      ThreadRun cfg ok t' (c.objects cfg t o r)
  | heap {t : CverThread} {o : LiveObjects} {h : HeapState} : ThreadRun cfg ok t o →
      (∀ live, LiveRun t.heap live → LiveRun h live) → ThreadRun cfg ok { t with heap := h } o

/-- The counters are the numbers of what is live. -/
@[mk_iff]
structure Counted (t : CverThread) (o : LiveObjects) : Prop where
  mallocs : t.stats.numMalloc.current.toNat = o.mallocs.card
  news : t.stats.numNew.current.toNat = o.news.card
  stack : t.stats.stackObj.current.toNat = o.stack.card

end Caver.Runtime
