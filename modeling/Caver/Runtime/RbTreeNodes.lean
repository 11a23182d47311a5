import Caver.Runtime.RbTree

/-!
# Caver.Runtime.RbTreeNodes — which nodes the tree code allocates and frees

All of `cver_rbtree.cc` but `rbtree_malloc` and `rbtree_free` keeps the set of
allocated nodes, since assignments go through `store`.

* `KeepsNodes m`: the program `m` neither allocates nor frees a node. A class,
  closed under the ways to build programs, so that it is found for each function
  from those that it calls.
* `rbtreeInsert_nodes`: one node more, also for a key that is there already.
* `FreesNode p m`: the program frees the node `p` and no other.
-/

namespace Caver.Runtime

open Caver.Core

variable {α β : Type} {s : RbTree}

/-- The nodes that are allocated. -/
def allocatedNodes (s : RbTree) : Set Ptr := {p | (s.heap.get p).isSome}

/-- The program neither allocates nor frees a node. -/
class KeepsNodes (m : M α) : Prop where
  keeps : ∀ s, wlp m (fun _ s' => allocatedNodes s' = allocatedNodes s) s

/-! ## Programs -/

theorem allocatedNodes_update (s : RbTree) (r : Ref) (f : Node → Node) :
    allocatedNodes (s.update r f) = allocatedNodes s := by
  cases r with
  | none => rfl
  | some p =>
    ext q
    show ((s.heap.modify p f).get q).isSome = true ↔ (s.heap.get q).isSome = true
    rw [Heap.get_modify]
    split
    · rw [Option.isSome_map]
    · rfl

instance (a : α) : KeepsNodes (pure a : M α) where
  keeps s := by rw [wlp_pure]

instance KeepsNodes.bind (m : M β) (f : β → M α) [hm : KeepsNodes m] [hf : ∀ b, KeepsNodes (f b)] :
    KeepsNodes (m >>= f) where
  keeps s := by
    rw [wlp_bind]
    refine (hm.keeps s).mono fun b s' hs' => ((hf b).keeps s').mono fun a s'' hs'' => ?_
    rw [hs'', hs']

instance {p : Prop} [Decidable p] (m n : M α) [hm : KeepsNodes m] [hn : KeepsNodes n] :
    KeepsNodes (if p then m else n) where
  keeps s := by
    rw [wlp_ite]
    split
    · exact hm.keeps s
    · exact hn.keeps s

instance : KeepsNodes (get : M RbTree) where
  keeps s := by rw [wlp_get]

instance : KeepsNodes (outOfFuel : M α) where
  keeps s a s' h := by cases h

instance (r : Ref) : KeepsNodes (load r) where
  keeps s nd s' h := by
    cases r with
    | none => cases h
    | some p =>
      rcases Option.map_eq_some_iff.mp h with ⟨nd', -, heq⟩
      cases heq
      rfl

instance (r : Ref) (f : Node → Node) : KeepsNodes (store r f) where
  keeps s := by
    have hload : KeepsNodes (load r) := inferInstance
    rw [store, wlp_bind]
    refine (hload.keeps s).mono ?_
    intro _ s' hs'
    rw [wlp_modify, allocatedNodes_update, hs']

instance (r : Ref) : KeepsNodes (setRoot r) where
  keeps s := by
    rw [setRoot, wlp_modify]
    rfl

instance (m n : M Bool) [KeepsNodes m] [KeepsNodes n] : KeepsNodes (andAlso m n) :=
  inferInstanceAs (KeepsNodes (m >>= _))

instance : KeepsNodes treeFuel := by
  unfold treeFuel
  infer_instance

/-! ## Functions -/

instance (n : Ref) : KeepsNodes (parent n) := by
  unfold parent
  infer_instance

instance (n : Ref) : KeepsNodes (grandparent n) := by
  unfold grandparent
  infer_instance

instance (n : Ref) : KeepsNodes (sibling n) := by
  unfold sibling
  infer_instance

instance (n : Ref) : KeepsNodes (uncle n) := by
  unfold uncle
  infer_instance

instance (n : Ref) : KeepsNodes (nodeColor n) := by
  unfold nodeColor
  infer_instance

instance (n : Ref) : KeepsNodes (isLeft n) := by
  unfold isLeft
  infer_instance

instance (n : Ref) : KeepsNodes (isRight n) := by
  unfold isRight
  infer_instance

instance (n : Ref) : KeepsNodes (parentIsLeft n) := by
  unfold parentIsLeft
  infer_instance

instance (n : Ref) : KeepsNodes (parentIsRight n) := by
  unfold parentIsRight
  infer_instance

instance (n : Ref) : KeepsNodes (siblingLeft n) := by
  unfold siblingLeft
  infer_instance

instance (n : Ref) : KeepsNodes (siblingRight n) := by
  unfold siblingRight
  infer_instance

instance (m : M Ref) (c : Color) [KeepsNodes m] : KeepsNodes (hasColor m c) := by
  unfold hasColor
  infer_instance

instance (r par : Ref) : KeepsNodes (setParent r par) := by
  unfold setParent
  infer_instance

instance (oldn newn : Ref) : KeepsNodes (replaceLink oldn newn) := by
  unfold replaceLink
  infer_instance

instance (oldn newn : Ref) : KeepsNodes (replaceNode oldn newn) := by
  unfold replaceNode
  infer_instance

instance (d : Side) (n : Ref) : KeepsNodes (rotate d n) := by
  unfold rotate
  infer_instance

instance (n : Ref) : KeepsNodes (rotateLeft n) := inferInstanceAs (KeepsNodes (rotate .left n))

instance (n : Ref) : KeepsNodes (rotateRight n) := inferInstanceAs (KeepsNodes (rotate .right n))

-- the longest functions make some twenty steps
set_option synthInstance.maxSize 512

/-! ## Insertion -/

instance (n : Ref) : KeepsNodes (insertCase5 n) := by
  unfold insertCase5
  infer_instance

instance (n : Ref) : KeepsNodes (insertCase4 n) := by
  unfold insertCase4
  infer_instance

instance (case1 : Ref → M Unit) (n : Ref) [∀ r, KeepsNodes (case1 r)] :
    KeepsNodes (insertCase3 case1 n) := by
  unfold insertCase3
  infer_instance

instance (case1 : Ref → M Unit) (n : Ref) [∀ r, KeepsNodes (case1 r)] :
    KeepsNodes (insertCase2 case1 n) := by
  unfold insertCase2
  infer_instance

instance (fuel : ℕ) (n : Ref) : KeepsNodes (insertCase1 fuel n) := by
  induction fuel generalizing n with
  | zero =>
    unfold insertCase1
    infer_instance
  | succ fuel ih =>
    unfold insertCase1
    infer_instance

instance (key : Key) (value : Uptr) (r : Ref) (fuel : ℕ) (n : Ref) :
    KeepsNodes (insertLoop key value r fuel n) := by
  induction fuel generalizing n with
  | zero =>
    unfold insertLoop
    infer_instance
  | succ fuel ih =>
    unfold insertLoop
    refine @KeepsNodes.bind _ _ (load n) _ inferInstance ?_
    intro nd
    cases compareObj key nd.key <;> infer_instance

/-- What `rbtree_insert` does with the node that it has allocated. -/
def insertNode (key : Key) (value : Uptr) (insertedNode : Ref) : M Unit := do
  if (← get).root = none then
    setRoot insertedNode
    insertCase1 (← treeFuel) insertedNode
  else
    match ← insertLoop key value insertedNode (← treeFuel) (← get).root with
    | none => return
    | some n =>
      store insertedNode fun nd => { nd with parent := n }
      insertCase1 (← treeFuel) insertedNode

theorem rbtreeInsert_eq (malloc : Malloc) (key : Key) (value : Uptr) :
    rbtreeInsert malloc key value =
      newNode malloc key value .red none none >>= insertNode key value := rfl

instance (key : Key) (value : Uptr) (r : Ref) : KeepsNodes (insertNode key value r) := by
  have hend : ∀ res : Option Ref, KeepsNodes (match res with
      | none => return
      | some n => do
        store r fun nd => { nd with parent := n }
        insertCase1 (← treeFuel) r : M Unit) := by
    intro res
    cases res <;> infer_instance
  unfold insertNode
  infer_instance

theorem newNode_nodes (malloc : Malloc) (key : Key) (value : Uptr) :
    wlp (newNode malloc key value .red none none) (fun _ s' =>
      allocatedNodes s' = insert (malloc.answer s.mallocs s.heap) (allocatedNodes s)) s := by
  have hmalloc : wlp (rbtreeMalloc malloc ⟨key, value, none, none, none, .red⟩) (fun _ s' =>
      allocatedNodes s' = insert (malloc.answer s.mallocs s.heap) (allocatedNodes s)) s := by
    simp only [rbtreeMalloc, wlp_bind, wlp_get, wlp_modify, wlp_pure]
    ext q
    by_cases hq : q = malloc.answer s.mallocs s.heap
    · subst hq
      simp [allocatedNodes]
    · simp [allocatedNodes, hq, Heap.get_insert_of_ne]
  rw [newNode, wlp_bind]
  refine hmalloc.mono ?_
  intro r s' hs'
  -- there are no children whose parent is set
  have hrest : KeepsNodes (do
    setParent none r
    setParent none r
    return r) := inferInstance
  refine (hrest.keeps s').mono ?_
  intro _ s'' hs''
  rw [hs'', hs']

/-- `rbtree_insert` allocates one node, whether the key is there or not. -/
theorem rbtreeInsert_nodes (malloc : Malloc) (key : Key) (value : Uptr) :
    wlp (rbtreeInsert malloc key value) (fun _ s' =>
      allocatedNodes s' = insert (malloc.answer s.mallocs s.heap) (allocatedNodes s)) s := by
  rw [rbtreeInsert_eq, wlp_bind]
  refine (newNode_nodes malloc key value).mono ?_
  intro r s' hs'
  have hnode : KeepsNodes (insertNode key value r) := inferInstance
  refine (hnode.keeps s').mono ?_
  intro _ s'' hs''
  rw [hs'', hs']

/-! ## Deletion -/

instance (n : Ref) : KeepsNodes (deleteCase6 n) := by
  unfold deleteCase6
  infer_instance

instance (n : Ref) : KeepsNodes (deleteCase5 n) := by
  unfold deleteCase5
  infer_instance

instance (n : Ref) : KeepsNodes (deleteCase4 n) := by
  unfold deleteCase4
  infer_instance

instance (case1 : Ref → M Unit) (n : Ref) [∀ r, KeepsNodes (case1 r)] :
    KeepsNodes (deleteCase3 case1 n) := by
  unfold deleteCase3
  infer_instance

instance (case1 : Ref → M Unit) (n : Ref) [∀ r, KeepsNodes (case1 r)] :
    KeepsNodes (deleteCase2 case1 n) := by
  have hcase3 : KeepsNodes (deleteCase3 case1 n) := inferInstance
  unfold deleteCase2
  infer_instance

instance (fuel : ℕ) (n : Ref) : KeepsNodes (deleteCase1 fuel n) := by
  induction fuel generalizing n with
  | zero =>
    unfold deleteCase1
    infer_instance
  | succ fuel ih =>
    unfold deleteCase1
    infer_instance

/-- The program frees the node. -/
class FreesNode (p : Ptr) (m : M α) : Prop where
  frees : ∀ s, wlp m (fun _ s' => allocatedNodes s' = allocatedNodes s \ {p}) s

instance (p : Ptr) : FreesNode p (rbtreeFree (some p)) where
  frees s := by
    have hload : KeepsNodes (load (some p)) := inferInstance
    rw [rbtreeFree, wlp_bind]
    refine (hload.keeps s).mono ?_
    intro _ s' hs'
    rw [wlp_modify, ← hs']
    ext q
    by_cases hq : q = p
    · subst hq
      simp [allocatedNodes, Heap.get, Heap.erase]
    · simp [allocatedNodes, hq, Heap.get_erase_of_ne]

instance (p : Ptr) (m : M β) (f : β → M α) [hm : KeepsNodes m] [hf : ∀ b, FreesNode p (f b)] :
    FreesNode p (m >>= f) where
  frees s := by
    rw [wlp_bind]
    refine (hm.keeps s).mono fun b s' hs' => ((hf b).frees s').mono fun a s'' hs'' => ?_
    rw [hs'', hs']

instance (p : Ptr) {c : Prop} [Decidable c] (m n : M α) [hm : FreesNode p m]
    [hn : FreesNode p n] : FreesNode p (if c then m else n) where
  frees s := by
    rw [wlp_ite]
    split
    · exact hm.frees s
    · exact hn.frees s

/-- The last steps of `rbtree_delete` free the node that they are called for. -/
instance (p : Ptr) : FreesNode p (deleteNode (some p)) := by
  unfold deleteNode
  infer_instance

end Caver.Runtime
