import Caver.Runtime.CastCache
import Caver.Runtime.HeapAllocator
import Caver.Runtime.RbTree
import Caver.Runtime.TypeTable

/-!
# Caver.Runtime.HandleCast — `__cver_handle_cast`

A cast is judged in three steps: find the object that `BeforePtr` points into,
move to the element of an array, and search the object's table.

* `locate`: stack, heap and globals, in this order.
* `adjustUserAllocBeg`: the element of a registered array.
* `slowPath`: `CheckCastValidity`, then the bases of the target class that have
  its layout.
* `handleCast`: these, with the verdict cache in front of the last two.
* `castHook`: the hook, which does not return if a report ends the program.
-/

namespace Caver.Runtime

open Caver.Core Caver.Sanitizer

/-! ## What a cast reads -/

/-- The current thread's stack and its tree of registered objects. -/
structure ThreadStack where
  stackBottom : Uptr
  stackTop : Uptr
  rbtreeRoot : Option RbTree

/-- The registered objects at the time of a cast. -/
structure Objects where
  thread : Option ThreadStack
  heap : HeapState
  globals : RbTree

/-- `CastHookArgs`; of the location only the file name is used. -/
structure CastHookArgs where
  filename : String
  typeTable : Uptr
  hash : Uptr
deriving DecidableEq, Repr

/-- `SuppressionType`. -/
inductive SuppressionType where
  | castSrcType
  | castDstType
  | castFilename
deriving DecidableEq, Repr

/-- What stays the same over a run: flags, tables and suppressions. -/
structure CastConfig where
  flags : Flags
  tables : TypeTables
  matchSuppression : String → SuppressionType → Bool

/-- A bad-casting report. -/
structure Report where
  filename : String
  dstTypeName : String
  srcTypeName : String
  pointer : Uptr
deriving DecidableEq, Repr

/-- The value that a cast hook returns, if it does, and the report that it makes. -/
structure Verdict where
  ret : ℕ
  report : Option Report
deriving DecidableEq, Repr

/-- How a cast hook ends. -/
inductive HookResult where
  | returns (verdict : Verdict)
  | dies (report : Report)
deriving DecidableEq, Repr

/-- The report, whether the hook returns or not. -/
def HookResult.report : HookResult → Option Report
  | .returns verdict => verdict.report
  | .dies report => some report

def badCastRet : ℕ := 0
def goodCastRet : ℕ := 1
def unknownCastRet : ℕ := 1

/-! ## Locating the object -/

/-- The object that a pointer was found in. -/
structure Located where
  containVec : Uptr
  numElements : Uptr
  userRequestedSize : Uptr
  userAllocBeg : Uptr
deriving DecidableEq, Repr

/-- `AddrIsInStack`. -/
def ThreadStack.addrIsInStack (t : ThreadStack) (addr : Uptr) : Bool :=
  addr ≥ t.stackBottom && addr < t.stackTop

/-- `rbtree_lookup_range` for an object without elements. -/
def lookupObject (tree : RbTree) (beforePtr : Uptr) : Option (Option Located) := do
  let ((containVec, userAllocBeg), _) ← rbtreeLookupRange beforePtr 0 tree
  return if containVec = 0 then none else some ⟨containVec, 0, 0, userAllocBeg⟩

/-- Stack pointers: nothing but the thread's tree is asked. -/
def locateStack (flags : Flags) (t : ThreadStack) (beforePtr : Uptr) : Option (Option Located) :=
  match flags.noStack, t.rbtreeRoot with
  | false, some tree => lookupObject tree beforePtr
  | _, _ => some none

/-- Dynamic pointers: the record of their block. -/
def locateHeap (heap : HeapState) (beforePtr : Uptr) : Option Located :=
  let (userAllocBeg, m) := getBlockBeginAndMetaData heap.regions beforePtr 0
  if userAllocBeg ≠ 0 ∧ m ≠ 0 then
    let md := loadMetadata heap.mem m
    if md.typeTable = 0 then none
    else some ⟨md.typeTable, md.numElements, md.requestedSize, userAllocBeg⟩
  else none

/-- The object of a pointer, if one is known. It fails where the lookup in a
tree does. -/
def locate (flags : Flags) (o : Objects) (beforePtr : Uptr) : Option (Option Located) :=
  match o.thread.filter (·.addrIsInStack beforePtr) with
  | some t => locateStack flags t beforePtr
  | none =>
    if pointerIsMine beforePtr then some (locateHeap o.heap beforePtr)
    else if flags.noGlobal then some none
    else lookupObject o.globals beforePtr

/-! ## Judging the cast -/

/-- The base of the element that `BeforePtr` is in. It fails where a `CHECK`
does, and where the element size is zero. -/
def adjustUserAllocBeg (l : Located) (beforePtr : Uptr) : Option Uptr :=
  if l.numElements > 0 then
    if l.userRequestedSize % l.numElements ≠ 0 then none
    else if beforePtr < l.userAllocBeg then none
    else
      let elementSize := l.userRequestedSize / l.numElements
      if elementSize = 0 then none
      else some (beforePtr - (beforePtr - l.userAllocBeg) % elementSize)
  else some l.userAllocBeg

/-- The loop over the bases of the target class that have its layout. -/
def matchesSameLayout (check : Uptr → Option Bool) : List BaseElem → Option Bool
  | [] => some false
  | e :: es =>
    if isSameLayout e.baseHash then do
      let targetMatched ← check e.baseHash
      if targetMatched then return true else matchesSameLayout check es
    else matchesSameLayout check es

/-- Whether the object's table accepts the cast. -/
def slowPath (cfg : CastConfig) (l : Located) (data : CastHookArgs) (beforePtr afterPtr : Uptr) :
    Option Bool := do
  let userAllocBeg ← adjustUserAllocBeg l beforePtr
  let check := fun pointer hash => checkCastValidity cfg.tables cfg.flags.noCastValidity
    cfg.flags.noComposition pointer userAllocBeg hash l.containVec
  let matched ← check afterPtr data.hash
  if matched then return true
  else do
    let target ← cfg.tables.table data.typeTable
    if cfg.flags.emptyInherit then return false
    else matchesSameLayout (check beforePtr) target.baseElems

/-- What is done with a cast that no table accepts, but for the end of `ReportBadCasting`. -/
def rejectCast (cfg : CastConfig) (l : Located) (data : CastHookArgs) (beforePtr : Uptr) :
    Option Verdict := do
  let alloc ← cfg.tables.table l.containVec
  let target ← cfg.tables.table data.typeTable
  if cfg.flags.noReport then return ⟨unknownCastRet, none⟩
  else if cfg.matchSuppression alloc.mangledName .castSrcType ||
      cfg.matchSuppression target.mangledName .castDstType ||
      cfg.matchSuppression data.filename .castFilename then
    return ⟨unknownCastRet, none⟩
  else
    let report := ⟨data.filename, target.mangledName, alloc.mangledName, beforePtr⟩
    return ⟨if cfg.flags.nullify then badCastRet else unknownCastRet, some report⟩

/-- `computeCacheKey`. -/
def computeCacheKey (vec hash : Uptr) : Uptr := vec ^^^ (hash <<< 32)

/-- A step that does not touch the cache. -/
def liftCast {α : Type} (m : Option α) : Prog Cache α := fun c => m.map fun a => (a, c)

/-- The cast of a located object. -/
def judgeCast (cfg : CastConfig) (l : Located) (data : CastHookArgs) (beforePtr afterPtr : Uptr) :
    Prog Cache Verdict := do
  let key := computeCacheKey l.containVec data.hash
  let (hit, bucket) ← if cfg.flags.noCache then pure (false, 0) else isInCache key
  if hit then return ⟨goodCastRet, none⟩
  else do
    let matched ← liftCast (slowPath cfg l data beforePtr afterPtr)
    if matched then do
      if !cfg.flags.noCache then updateCache key bucket
      return ⟨goodCastRet, none⟩
    else liftCast (rejectCast cfg l data beforePtr)

/-- `__cver_handle_cast`, where reports return. -/
def handleCast (cfg : CastConfig) (o : Objects) (data : CastHookArgs)
    (beforePtr afterPtr : Uptr) : Prog Cache Verdict := do
  if cfg.flags.noCheck || cfg.flags.noHandleCast then return ⟨unknownCastRet, none⟩
  else if beforePtr = 0 || afterPtr = 0 then return ⟨unknownCastRet, none⟩
  else do
    match ← liftCast (locate cfg.flags o beforePtr) with
    | none => return ⟨unknownCastRet, none⟩
    | some l => judgeCast cfg l data beforePtr afterPtr

end Caver.Runtime
