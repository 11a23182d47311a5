import Caver.Basic
import Caver.Core.Prog
import Caver.Core.RedBlack

/-!
# Caver.Runtime.RbTree — the pointer code of `cver_rbtree.cc`

The red-black tree that the runtime keeps for each thread's stack objects and
for the globals, function by function: nodes in a heap, child and parent
links that may be null, `rbtree_insert` with its five cases and
`rbtree_delete` with its six.

* Following a null pointer or one that was freed is failure (`none`).
* A loop or a recursion of the source takes fuel; it starts with one unit
  more than the heap has addresses in use, and running out is failure, so a
  run that succeeds has terminated.
* `Malloc` stands for `rbtree_malloc`: it answers with an unused address.
-/

namespace Caver.Runtime

open Caver.Core

/-! ## Data -/

/-- `KEY`: the interval `[addr, addr + size)`. -/
structure Key where
  addr : Uptr
  size : Uptr
deriving DecidableEq, Repr

/-- The address of an allocated node. -/
abbrev Ptr := ℕ

/-- `rbtree_node`, with `none` for `NULL`. -/
abbrev Ref := Option Ptr

/-- `rbtree_node_t`. -/
structure Node where
  key : Key
  value : Uptr
  left : Ref
  right : Ref
  parent : Ref
  color : Color
deriving Repr

/-- `rbtree_t` with the nodes it lives among; `mallocs` counts allocations. -/
structure RbTree where
  heap : Heap Node
  root : Ref
  mallocs : ℕ

/-- `rbtree_malloc`: the `i`-th request is answered with an unused address. -/
structure Malloc where
  answer : ℕ → Heap Node → Ptr
  answer_fresh : ∀ i (h : Heap Node), h.get (answer i h) = none

/-- The allocator that takes the first address above everything in use. -/
def Malloc.bump : Malloc where
  answer _ h := h.bound
  answer_fresh _ h := h.fresh h.bound le_rfl

abbrev M := Prog RbTree

/-! ## Memory access -/

/-- Change the node at a pointer, if it is allocated. -/
def RbTree.update (s : RbTree) (r : Ref) (f : Node → Node) : RbTree :=
  match r with
  | none => s
  | some p => { s with heap := s.heap.modify p f }

/-- The node behind a pointer. -/
def load (r : Ref) : M Node := fun s =>
  match r with
  | none => none
  | some p => (s.heap.get p).map fun nd => (nd, s)

/-- Assign to fields of the node behind a pointer. -/
def store (r : Ref) (f : Node → Node) : M Unit := do
  let _ ← load r
  modify fun s => s.update r f

/-- Assign to `t->root`. -/
def setRoot (r : Ref) : M Unit :=
  modify fun s => { s with root := r }

/-- Fuel for a loop or recursion that visits no node twice. -/
def treeFuel : M ℕ := do
  return (← get).heap.bound + 1

/-- A loop that has used up its fuel. -/
def outOfFuel {α : Type} : M α := fun _ => none

/-- `rbtree_malloc` of a node with the given contents. -/
def rbtreeMalloc (malloc : Malloc) (nd : Node) : M Ref := do
  let s ← get
  let p := malloc.answer s.mallocs s.heap
  modify fun s => { s with heap := s.heap.insert p nd, mallocs := s.mallocs + 1 }
  return some p

/-- `rbtree_free`. -/
def rbtreeFree (r : Ref) : M Unit := do
  let _ ← load r
  modify fun s => match r with
    | none => s
    | some p => { s with heap := s.heap.erase p }

/-! ## Small helpers of the source -/

/-- `compare_obj`. -/
def compareObj (left right : Key) : Ordering :=
  if left.addr < right.addr then .lt
  else if left.addr > right.addr then .gt
  else .eq

/-- `compare_obj_range`; the end of the interval is computed modulo `2 ^ 64`. -/
def compareObjRange (left : Uptr) (right : Key) : Ordering :=
  if left < right.addr then .lt
  else if left ≥ right.addr + right.size then .gt
  else .eq

def grandparent (n : Ref) : M Ref := do
  return (← load (← load n).parent).parent

def sibling (n : Ref) : M Ref := do
  if n = (← load (← load n).parent).left then
    return (← load (← load n).parent).right
  else
    return (← load (← load n).parent).left

def uncle (n : Ref) : M Ref := do
  sibling (← load n).parent

def nodeColor (n : Ref) : M Color := do
  if n = none then return .black else return (← load n).color

/-- `n == n->parent->left`. -/
def isLeft (n : Ref) : M Bool := do
  return n = (← load (← load n).parent).left

/-- `n == n->parent->right`. -/
def isRight (n : Ref) : M Bool := do
  return n = (← load (← load n).parent).right

/-- `n->parent == grandparent(n)->left`. -/
def parentIsLeft (n : Ref) : M Bool := do
  return (← load n).parent = (← load (← grandparent n)).left

/-- `n->parent == grandparent(n)->right`. -/
def parentIsRight (n : Ref) : M Bool := do
  return (← load n).parent = (← load (← grandparent n)).right

/-- `node_color(m) == c`, with `m` computed. -/
def hasColor (m : M Ref) (c : Color) : M Bool := do
  return (← nodeColor (← m)) = c

/-- `n->parent`. -/
def parent (n : Ref) : M Ref := do
  return (← load n).parent

/-- `sibling(n)->left`. -/
def siblingLeft (n : Ref) : M Ref := do
  return (← load (← sibling n)).left

/-- `sibling(n)->right`. -/
def siblingRight (n : Ref) : M Ref := do
  return (← load (← sibling n)).right

/-- `if (r != NULL) r->parent = par`. -/
def setParent (r par : Ref) : M Unit := do
  if r ≠ none then store r fun nd => { nd with parent := par }

def newNode (malloc : Malloc) (key : Key) (value : Uptr) (nodeColor : Color)
    (left right : Ref) : M Ref := do
  let result ← rbtreeMalloc malloc ⟨key, value, left, right, none, nodeColor⟩
  setParent left result
  setParent right result
  return result

/-- The first half of `replace_node`: the pointer to `oldn` is redirected. -/
def replaceLink (oldn newn : Ref) : M Unit := do
  if (← load oldn).parent = none then
    setRoot newn
  else if oldn = (← load (← load oldn).parent).left then
    store (← load oldn).parent fun nd => { nd with left := newn }
  else
    store (← load oldn).parent fun nd => { nd with right := newn }

def replaceNode (oldn newn : Ref) : M Unit := do
  replaceLink oldn newn
  if newn ≠ none then
    let o ← load oldn
    store newn fun nd => { nd with parent := o.parent }

/-- The child of a node on a side. -/
def Node.child (nd : Node) : Side → Ref
  | .left => nd.left
  | .right => nd.right

/-- Assign the child of a node on a side. -/
def Node.setChild (d : Side) (r : Ref) (nd : Node) : Node :=
  match d with
  | .left => { nd with left := r }
  | .right => { nd with right := r }

/-- Rotation towards side `d`: the child on the other side comes up. -/
def rotate (d : Side) (n : Ref) : M Unit := do
  let r := (← load n).child d.opp
  replaceNode n r
  let nr ← load r
  store n (Node.setChild d.opp (nr.child d))
  setParent (nr.child d) n
  store r (Node.setChild d n)
  store n fun nd => { nd with parent := r }

def rotateLeft (n : Ref) : M Unit := rotate .left n

def rotateRight (n : Ref) : M Unit := rotate .right n

/-! ## Lookup -/

/-- The loop of `lookup_node`. -/
def lookupNodeLoop (key : Key) : ℕ → Ref → M Ref
  | 0, _ => outOfFuel
  | fuel + 1, n => do
    if n = none then return none
    match compareObj key (← load n).key with
    | .eq => return n
    | .lt => lookupNodeLoop key fuel (← load n).left
    | .gt => lookupNodeLoop key fuel (← load n).right

def lookupNode (key : Key) : M Ref := do
  lookupNodeLoop key (← treeFuel) (← get).root

/-- The loop of `lookup_node_range`. -/
def lookupNodeRangeLoop (addr : Uptr) : ℕ → Ref → M Ref
  | 0, _ => outOfFuel
  | fuel + 1, n => do
    if n = none then return none
    match compareObjRange addr (← load n).key with
    | .eq => return n
    | .lt => lookupNodeRangeLoop addr fuel (← load n).left
    | .gt => lookupNodeRangeLoop addr fuel (← load n).right

def lookupNodeRange (addr : Uptr) : M Ref := do
  lookupNodeRangeLoop addr (← treeFuel) (← get).root

/-- `rbtree_lookup`; the null result is 0. -/
def rbtreeLookup (key : Key) : M Uptr := do
  let n ← lookupNode key
  if n = none then return 0 else return (← load n).value

/-- `rbtree_lookup_range`: the value and the contents of `*baseAddr` after the
call, `baseAddr` before it. -/
def rbtreeLookupRange (addr baseAddr : Uptr) : M (Uptr × Uptr) := do
  let n ← lookupNodeRange addr
  if n = none then return (0, baseAddr)
  else return ((← load n).value, (← load n).key.addr)

/-! ## Insertion -/

def insertCase5 (n : Ref) : M Unit := do
  store (← parent n) fun nd => { nd with color := .black }
  store (← grandparent n) fun nd => { nd with color := .red }
  if (← andAlso (isLeft n) (parentIsLeft n)) then
    rotateRight (← grandparent n)
  else
    rotateLeft (← grandparent n)

def insertCase4 (n : Ref) : M Unit := do
  if (← andAlso (isRight n) (parentIsLeft n)) then
    rotateLeft (← parent n)
    insertCase5 (← load n).left
  else if (← andAlso (isLeft n) (parentIsRight n)) then
    rotateRight (← parent n)
    insertCase5 (← load n).right
  else
    insertCase5 n

/-- `insert_case3`, with the recursive call of `insert_case1` as a parameter. -/
def insertCase3 (case1 : Ref → M Unit) (n : Ref) : M Unit := do
  if (← nodeColor (← uncle n)) = .red then
    store (← parent n) fun nd => { nd with color := .black }
    store (← uncle n) fun nd => { nd with color := .black }
    store (← grandparent n) fun nd => { nd with color := .red }
    case1 (← grandparent n)
  else
    insertCase4 n

def insertCase2 (case1 : Ref → M Unit) (n : Ref) : M Unit := do
  if (← nodeColor (← parent n)) = .black then
    return
  else
    insertCase3 case1 n

def insertCase1 : ℕ → Ref → M Unit
  | 0, _ => outOfFuel
  | fuel + 1, n => do
    if (← parent n) = none then
      store n fun nd => { nd with color := .black }
    else
      insertCase2 (insertCase1 fuel) n

/-- The loop of `rbtree_insert`. It gives back the node under which the new
node was hung, or nothing if the key was there and its value has been set. -/
def insertLoop (key : Key) (value : Uptr) (insertedNode : Ref) : ℕ → Ref → M (Option Ref)
  | 0, _ => outOfFuel
  | fuel + 1, n => do
    match compareObj key (← load n).key with
    | .eq =>
      store n fun nd => { nd with value := value }
      return none
    | .lt =>
      if (← load n).left = none then
        store n fun nd => { nd with left := insertedNode }
        return some n
      else
        insertLoop key value insertedNode fuel (← load n).left
    | .gt =>
      if (← load n).right = none then
        store n fun nd => { nd with right := insertedNode }
        return some n
      else
        insertLoop key value insertedNode fuel (← load n).right

/-- `rbtree_insert`. A node allocated for a key that is already there is not
freed. -/
def rbtreeInsert (malloc : Malloc) (key : Key) (value : Uptr) : M Unit := do
  let insertedNode ← newNode malloc key value .red none none
  if (← get).root = none then
    setRoot insertedNode
    insertCase1 (← treeFuel) insertedNode
  else
    match ← insertLoop key value insertedNode (← treeFuel) (← get).root with
    | none => return
    | some n =>
      store insertedNode fun nd => { nd with parent := n }
      insertCase1 (← treeFuel) insertedNode

/-! ## Deletion -/

/-- The loop of `maximum_node`. -/
def maximumNode : ℕ → Ref → M Ref
  | 0, _ => outOfFuel
  | fuel + 1, n => do
    if (← load n).right ≠ none then maximumNode fuel (← load n).right
    else return n

def deleteCase6 (n : Ref) : M Unit := do
  let c ← nodeColor (← parent n)
  store (← sibling n) fun nd => { nd with color := c }
  store (← parent n) fun nd => { nd with color := .black }
  if (← isLeft n) then
    store (← siblingRight n) fun nd => { nd with color := .black }
    rotateLeft (← parent n)
  else
    store (← siblingLeft n) fun nd => { nd with color := .black }
    rotateRight (← parent n)

def deleteCase5 (n : Ref) : M Unit := do
  if (← andAlso (isLeft n)
      (andAlso (hasColor (sibling n) .black)
      (andAlso (hasColor (siblingLeft n) .red)
        (hasColor (siblingRight n) .black)))) then
    store (← sibling n) fun nd => { nd with color := .red }
    store (← siblingLeft n) fun nd => { nd with color := .black }
    rotateRight (← sibling n)
  else if (← andAlso (isRight n)
      (andAlso (hasColor (sibling n) .black)
      (andAlso (hasColor (siblingRight n) .red)
        (hasColor (siblingLeft n) .black)))) then
    store (← sibling n) fun nd => { nd with color := .red }
    store (← siblingRight n) fun nd => { nd with color := .black }
    rotateLeft (← sibling n)
  deleteCase6 n

def deleteCase4 (n : Ref) : M Unit := do
  if (← andAlso (hasColor (parent n) .red)
      (andAlso (hasColor (sibling n) .black)
      (andAlso (hasColor (siblingLeft n) .black)
        (hasColor (siblingRight n) .black)))) then
    store (← sibling n) fun nd => { nd with color := .red }
    store (← parent n) fun nd => { nd with color := .black }
  else
    deleteCase5 n

/-- `delete_case3`, with the recursive call of `delete_case1` as a parameter. -/
def deleteCase3 (case1 : Ref → M Unit) (n : Ref) : M Unit := do
  if (← andAlso (hasColor (parent n) .black)
      (andAlso (hasColor (sibling n) .black)
      (andAlso (hasColor (siblingLeft n) .black)
        (hasColor (siblingRight n) .black)))) then
    store (← sibling n) fun nd => { nd with color := .red }
    case1 (← parent n)
  else
    deleteCase4 n

def deleteCase2 (case1 : Ref → M Unit) (n : Ref) : M Unit := do
  if (← nodeColor (← sibling n)) = .red then
    store (← parent n) fun nd => { nd with color := .red }
    store (← sibling n) fun nd => { nd with color := .black }
    if (← isLeft n) then
      rotateLeft (← parent n)
    else
      rotateRight (← parent n)
  deleteCase3 case1 n

def deleteCase1 : ℕ → Ref → M Unit
  | 0, _ => outOfFuel
  | fuel + 1, n => do
    if (← parent n) = none then
      return
    else
      deleteCase2 (deleteCase1 fuel) n

/-- `rbtree_delete` from the point where `n` has at most one child. -/
def deleteNode (n : Ref) : M Unit := do
  let nd ← load n
  let child := if nd.right = none then nd.left else nd.right
  if (← nodeColor n) = .black then
    let c ← nodeColor child
    store n fun nd => { nd with color := c }
    deleteCase1 (← treeFuel) n
  replaceNode n child
  if (← load n).parent = none ∧ child ≠ none then
    store child fun nd => { nd with color := .black }
  rbtreeFree n

def rbtreeDelete (key : Key) : M Unit := do
  let n ← lookupNode key
  if n = none then return
  else if (← load n).left ≠ none ∧ (← load n).right ≠ none then
    -- the predecessor's key and value move up and its node is removed instead
    let pred ← maximumNode (← treeFuel) (← load n).left
    let np ← load pred
    store n fun nd => { nd with key := np.key }
    store n fun nd => { nd with value := np.value }
    deleteNode pred
  else
    deleteNode n

/-! ## Sequences of operations -/

/-- A call that changes the tree. -/
inductive Op where
  | insert (key : Key) (value : Uptr)
  | delete (key : Key)
deriving Repr

/-- `rbtree_create`, among the nodes that are in use already. -/
def rbtreeCreate (heap : Heap Node) : RbTree := ⟨heap, none, 0⟩

/-- One operation. -/
def runOp (malloc : Malloc) (s : RbTree) : Op → Option RbTree
  | .insert key value => (rbtreeInsert malloc key value s).map (·.2)
  | .delete key => (rbtreeDelete key s).map (·.2)

/-- A sequence of operations. -/
def runOps (malloc : Malloc) (ops : List Op) (s : RbTree) : Option RbTree :=
  ops.foldlM (runOp malloc) s

end Caver.Runtime
