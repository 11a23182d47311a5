import Caver.Runtime.RbTreeLookup

/-!
# Caver.Runtime.RbTreeOwnership — who holds the nodes of a tree

Every node that `rbtree_malloc` hands out should hang in the tree until
`rbtree_free` gets it. A failing run has used or freed a node that was not
allocated, so what remains is to compare two sets:

* `liveNodes`: allocated since the tree was created.
* `Linked`: found from the root along child links.

`rbtree_insert` allocates before it searches, and where it finds the key it
returns without the new node: `rbtreeOps_nodes` says that this is the only leak.
-/

namespace Caver.Runtime

open Caver.Core Caver.Core.RedBlackTree

variable {s s' : RbTree} {h : Heap Node} {t T : RedBlackTree Cell} {x : Cell} {par : Ref}
  {p q : Ptr}
  {m : Entries} {rest : Set Ptr}

/-! ## Nodes of the tree -/

/-- The nodes that are found from the root along child links. -/
inductive Linked (s : RbTree) : Ptr → Prop
  | root {p : Ptr} : s.root = some p → Linked s p
  | child {p q : Ptr} {nd : Node} (d : Side) :
      Linked s p → s.heap.get p = some nd → nd.child d = some q → Linked s q

/-- The nodes obtained from `rbtree_malloc` since the tree was created among the
nodes of `h`, and not yet passed to `rbtree_free`. -/
def liveNodes (h : Heap Node) (s : RbTree) : Set Ptr :=
  allocatedNodes s \ {p | (h.get p).isSome}

/-- The addresses of a tree. -/
def ptrs (t : RedBlackTree Cell) : List Ptr := t.toList.map Cell.ptr

theorem mem_ptrs_node {c : Color} {l r : RedBlackTree Cell} :
    p ∈ ptrs (.node c l x r) ↔ p ∈ ptrs l ∨ p = x.ptr ∨ p ∈ ptrs r := by
  simp only [ptrs, toList_node, List.map_append, List.map_cons, List.mem_append, List.mem_cons]

theorem ref_mem_ptrs (ht : ref t = some p) : p ∈ ptrs t := by
  cases t with
  | nil => cases ht
  | node c l x r =>
    obtain rfl : x.ptr = p := Option.some.inj ht
    exact mem_ptrs_node.mpr (Or.inr (Or.inl rfl))

/-- The child links of a stored tree stay in the tree. -/
theorem Rep.child_mem (hr : Rep h par t) (hp : p ∈ ptrs t) {nd : Node} (hnd : h.get p = some nd)
    {d : Side} (hq : nd.child d = some q) : q ∈ ptrs t := by
  induction t generalizing par with
  | nil => exact absurd hp List.not_mem_nil
  | node c l x r ihl ihr =>
    rcases hr with ⟨hx, hl, hr⟩
    rcases mem_ptrs_node.mp hp with hp | rfl | hp
    · exact mem_ptrs_node.mpr (Or.inl (ihl hl hp))
    · obtain rfl := Option.some.inj (hx.symm.trans hnd)
      cases d with
      | left => exact mem_ptrs_node.mpr (Or.inl (ref_mem_ptrs hq))
      | right => exact mem_ptrs_node.mpr (Or.inr (Or.inr (ref_mem_ptrs hq)))
    · exact mem_ptrs_node.mpr (Or.inr (Or.inr (ihr hr hp)))

/-- A tree is reached from its root. -/
theorem Rep.linked (hr : Rep s.heap par t) (hroot : ∀ p, ref t = some p → Linked s p)
    (hp : p ∈ ptrs t) : Linked s p := by
  induction t generalizing par with
  | nil => exact absurd hp List.not_mem_nil
  | node c l x r ihl ihr =>
    rcases hr with ⟨hx, hl, hr⟩
    have hreach := hroot x.ptr rfl
    rcases mem_ptrs_node.mp hp with hp | rfl | hp
    · exact ihl hl (fun q hq => hreach.child .left hx hq) hp
    · exact hreach
    · exact ihr hr (fun q hq => hreach.child .right hx hq) hp

theorem Holds.linked_iff (hT : Holds s [] T) : Linked s p ↔ p ∈ ptrs T := by
  have hroot : s.root = ref T := hT.ctx
  constructor
  · intro hp
    induction hp with
    | root hp => exact ref_mem_ptrs (hroot ▸ hp)
    | child d _ hnd hq ih => exact hT.focus.child_mem ih hnd hq
  · exact hT.focus.linked fun p hp => .root (hroot.trans hp)

/-! ## Ownership -/

/-- The state holds a tree with the entries of `m`, and the allocated nodes are
those of the tree and, apart from them, `rest`. -/
structure Owns (s : RbTree) (m : Entries) (rest : Set Ptr) (T : RedBlackTree Cell) : Prop where
  holds : Holds s [] T
  balanced : ∃ n, Balanced T .black n
  listing : Listing (T.toList.map Cell.entry) m
  allocated : ∀ p, p ∈ allocatedNodes s ↔ p ∈ ptrs T ∨ p ∈ rest
  apart : ∀ p ∈ ptrs T, p ∉ rest

theorem Owns.create (h : Heap Node) :
    Owns (rbtreeCreate h) (fun _ => none) {p | (h.get p).isSome} .nil where
  holds := ⟨rfl, trivial, by simp⟩
  balanced := ⟨0, .nil⟩
  listing := ⟨List.Pairwise.nil, by simp⟩
  allocated p := by
    rw [ptrs, toList_nil, List.map_nil, or_iff_right List.not_mem_nil]
    rfl
  apart p hp := absurd hp List.not_mem_nil

/-- What the tree has allocated is what it reaches, if the rest is what there was
before. -/
theorem Owns.liveNodes_iff (ho : Owns s m rest T) (hrest : {p | (h.get p).isSome} ⊆ rest) :
    (∀ p, p ∈ liveNodes h s ↔ Linked s p) ↔ rest = {p | (h.get p).isSome} := by
  simp only [liveNodes, Set.mem_sdiff, ho.allocated, ho.holds.linked_iff]
  constructor
  · intro hexact
    refine Set.Subset.antisymm (fun p hp => ?_) hrest
    by_contra hnot
    exact ho.apart p ((hexact p).mp ⟨Or.inr hp, hnot⟩) hp
  · rintro rfl p
    constructor
    · rintro ⟨hp | hp, hnot⟩
      · exact hp
      · exact absurd hp hnot
    · intro hp
      exact ⟨Or.inl hp, ho.apart p hp⟩

/-! ## Operations -/

/-- A new key takes the new node into the tree; for a key that is there the new
node is left over. -/
theorem rbtreeInsert_owns (malloc : Malloc) (key : Key) (value : Uptr) (ho : Owns s m rest T) :
    wp (rbtreeInsert malloc key value) (fun _ s' => ∃ T',
      Owns s' (Op.apply m (.insert key value))
        (if m key.addr = none then rest else insert (malloc.answer s.mallocs s.heap) rest) T')
      s := by
  rcases ho.balanced with ⟨n, hbal⟩
  have hnew : malloc.answer s.mallocs s.heap ∉ allocatedNodes s := by
    simp [allocatedNodes, malloc.answer_fresh]
  have hnew' := (ho.allocated _).not.mp hnew
  rw [not_or] at hnew'
  have hinserted := rbtreeInsert_inserted malloc key value ho.holds hbal ho.listing.sorted_cells
  refine (hinserted.and_wlp (rbtreeInsert_nodes malloc key value)).mono ?_
  rintro - s' ⟨hs', hnodes⟩
  rcases hs'.tree hbal ho.listing with ⟨T', hT', hbal', hL', hptrs⟩
  rcases hptrs with ⟨habs, hperm, -⟩ | ⟨hkey, heq⟩
  · -- the new node hangs in the tree
    have hmem : ∀ p, p ∈ ptrs T' ↔ p = malloc.answer s.mallocs s.heap ∨ p ∈ ptrs T := by
      intro p
      rw [ptrs, hperm.mem_iff, List.mem_cons]
      rfl
    rw [if_pos habs]
    refine ⟨T', hT', hbal', hL', fun p => ?_, fun p hp => ?_⟩
    · rw [hnodes, Set.mem_insert_iff, ho.allocated, hmem, or_assoc]
    · rcases (hmem p).mp hp with rfl | hp
      · exact hnew'.2
      · exact ho.apart p hp
  · -- the tree has the nodes that it had, and the new one is in none
    have hmem : ∀ p, p ∈ ptrs T' ↔ p ∈ ptrs T := by
      have hlist := congrArg (fun t => t.toList.map Prod.fst) heq
      simp only [toList_map, List.map_map] at hlist
      exact fun p => iff_of_eq (congrArg (p ∈ ·) hlist)
    rw [if_neg hkey]
    refine ⟨T', hT', hbal', hL', fun p => ?_, fun p hp => ?_⟩
    · rw [hnodes, Set.mem_insert_iff, Set.mem_insert_iff, ho.allocated, hmem, or_left_comm]
    · rw [hmem] at hp
      rw [Set.mem_insert_iff, not_or]
      refine ⟨?_, ho.apart p hp⟩
      rintro rfl
      exact hnew'.1 hp

/-- The node that is freed is one of the tree. -/
theorem rbtreeDelete_owns (key : Key) (ho : Owns s m rest T) :
    wp (rbtreeDelete key) (fun _ s' => ∃ T', Owns s' (Op.apply m (.delete key)) rest T') s := by
  rcases ho.balanced with ⟨n, hbal⟩
  refine (rbtreeDelete_deleted key ho.holds hbal ho.listing.sorted_cells).mono ?_
  intro _ s' hs'
  rcases hs'.tree ho.holds hbal ho.listing with ⟨T', hT', hbal', hL', hptrs⟩
  rcases hptrs with ⟨rfl, rfl⟩ | ⟨y, hperm, hfreed⟩
  · exact ⟨T', hT', hbal', hL', ho.allocated, ho.apart⟩
  · have hmem : ∀ p, p ∈ ptrs T ↔ p = y ∨ p ∈ ptrs T' := by
      intro p
      rw [ptrs, hperm.mem_iff, List.mem_cons]
      rfl
    have hnodup : (y :: ptrs T').Nodup := hperm.nodup_iff.mp ho.holds.nodup
    have hy : y ∈ ptrs T := (hmem y).mpr (Or.inl rfl)
    refine ⟨T', hT', hbal', hL', fun p => ?_, fun p hp => ho.apart p ((hmem p).mpr (Or.inr hp))⟩
    rw [hfreed, Set.mem_sdiff, ho.allocated, Set.mem_singleton_iff, hmem]
    by_cases hp : p = y
    · subst hp
      have hout := ho.apart p hy
      simp [(List.nodup_cons.mp hnodup).1, hout]
    · simp [hp]

/-! ## Whole runs -/

/-- One operation, whatever has been left over so far. -/
theorem runOp_owns (malloc : Malloc) (op : Op) (ho : Owns s m rest T) :
    ∃ s' rest' T', runOp malloc s op = some s' ∧ Owns s' (op.apply m) rest' T' ∧ rest ⊆ rest' ∧
      (rest' = rest ↔ ∀ key value, op = .insert key value → m key.addr = none) := by
  have hnew : malloc.answer s.mallocs s.heap ∉ rest := by
    intro hmem
    have hall := (ho.allocated _).mpr (Or.inr hmem)
    simp [allocatedNodes, malloc.answer_fresh] at hall
  cases op with
  | insert key value =>
    rcases rbtreeInsert_owns malloc key value ho with ⟨a, s', hrun, T', ho'⟩
    refine ⟨s', _, T', by simp [runOp, hrun], ho', ?_⟩
    by_cases hkey : m key.addr = none
    · simp [hkey]
    · rw [if_neg hkey]
      refine ⟨Set.subset_insert _ _, ?_⟩
      simp [hkey, Set.insert_eq_self, hnew]
  | delete key =>
    rcases rbtreeDelete_owns key ho with ⟨a, s', hrun, T', ho'⟩
    exact ⟨s', rest, T', by simp [runOp, hrun], ho', Set.Subset.rfl, by simp⟩

theorem runOps_concat (malloc : Malloc) (ops : List Op) (op : Op) (s : RbTree) :
    runOps malloc (ops ++ [op]) s = (runOps malloc ops s).bind (runOp malloc · op) := by
  rw [runOps, List.foldlM_append]
  refine bind_congr ?_
  intro s'
  exact bind_pure _

theorem entriesOf_concat (ops : List Op) (op : Op) :
    entriesOf (ops ++ [op]) = op.apply (entriesOf ops) := by
  rw [entriesOf, List.foldl_append]
  rfl

/-- No key is inserted that is there already. -/
def NoReinsert (ops : List Op) : Prop :=
  ∀ pre key value, pre ++ [.insert key value] <+: ops → entriesOf pre key.addr = none

theorem noReinsert_concat {ops : List Op} {op : Op} :
    NoReinsert (ops ++ [op]) ↔
      NoReinsert ops ∧ ∀ key value, op = .insert key value → entriesOf ops key.addr = none := by
  constructor
  · intro hno
    refine ⟨fun pre key value hpre => ?_, ?_⟩
    · exact hno pre key value (hpre.trans (List.prefix_append ops [op]))
    · rintro key value rfl
      exact hno ops key value List.prefix_rfl
  · rintro ⟨hops, hop⟩ pre key value hpre
    rcases List.prefix_concat_iff.mp hpre with heq | hpre
    · rcases List.append_inj' heq rfl with ⟨rfl, hlast⟩
      exact hop key value (List.singleton_inj.mp hlast).symm
    · exact hops pre key value hpre

/-- A run succeeds, and only inserting a key again leaves nodes over. -/
theorem runOps_owns (malloc : Malloc) (h : Heap Node) (ops : List Op) :
    ∃ s rest T, runOps malloc ops (rbtreeCreate h) = some s ∧ Owns s (entriesOf ops) rest T ∧
      {p | (h.get p).isSome} ⊆ rest ∧ (rest = {p | (h.get p).isSome} ↔ NoReinsert ops) := by
  induction ops using List.reverseRecOn with
  | nil =>
    refine ⟨_, _, _, rfl, Owns.create h, Set.Subset.rfl, iff_of_true rfl ?_⟩
    intro pre key value hpre
    exact absurd hpre.length_le (by simp)
  | append_singleton ops op ih =>
    rcases ih with ⟨s, rest, T, hrun, ho, hsub, hiff⟩
    rcases runOp_owns malloc op ho with ⟨s', rest', T', hrun', ho', hsub', hiff'⟩
    refine ⟨s', rest', T', ?_, ?_, hsub.trans hsub', ?_⟩
    · rw [runOps_concat, hrun]
      exact hrun'
    · rwa [entriesOf_concat]
    · rw [noReinsert_concat, ← hiff, ← hiff']
      constructor
      · rintro rfl
        have heq := Set.Subset.antisymm hsub' hsub
        exact ⟨heq, heq.symm⟩
      · rintro ⟨heq, heq'⟩
        exact heq'.trans heq

/-- No operation of a run uses or frees a node that is not allocated. The live
nodes are the linked ones after every operation exactly if no key is inserted
that is there already. -/
theorem rbtreeOps_nodes (malloc : Malloc) (h : Heap Node) (ops : List Op) :
    (∀ pre, pre <+: ops → ∃ s, runOps malloc pre (rbtreeCreate h) = some s ∧
      liveNodes h s = {p | Linked s p}) ↔ NoReinsert ops := by
  constructor
  · intro hexact
    rcases hexact ops List.prefix_rfl with ⟨s, hrun, hlive⟩
    rcases runOps_owns malloc h ops with ⟨s', rest, T, hrun', ho, hsub, hiff⟩
    obtain rfl : s = s' := Option.some.inj (hrun.symm.trans hrun')
    exact hiff.mp ((ho.liveNodes_iff hsub).mp fun p => by rw [hlive, Set.mem_ofPred_eq])
  · intro hno pre hpre
    rcases runOps_owns malloc h pre with ⟨s, rest, T, hrun, ho, hsub, hiff⟩
    have hno' : NoReinsert pre := fun pre' key value hpre' => hno pre' key value (hpre'.trans hpre)
    exact ⟨s, hrun, Set.ext ((ho.liveNodes_iff hsub).mpr (hiff.mpr hno'))⟩

/-- Registering an address a second time leaks the second node. -/
theorem rbtreeInsert_leak :
    ∃ s, runOps .bump [.insert ⟨16, 8⟩ 1, .insert ⟨16, 8⟩ 2] (rbtreeCreate .empty) = some s ∧
      1 ∈ liveNodes .empty s ∧ ¬ Linked s 1 := by
  refine ⟨_, rfl, ⟨rfl, by simp [Heap.get, Heap.empty]⟩, ?_⟩
  intro hreach
  -- the root is the first node, and it has no children
  suffices hall : ∀ s : RbTree, s.root = some 0 →
      s.heap.get 0 = some ⟨⟨16, 8⟩, 2, none, none, none, .black⟩ → ∀ p, Linked s p → p = 0 from
    absurd (hall _ rfl rfl 1 hreach) (by decide)
  intro s hroot hnode p hp
  induction hp with
  | root hp => exact (Option.some.inj (hroot.symm.trans hp)).symm
  | child d _ hnd hq ih =>
    subst ih
    obtain rfl := Option.some.inj (hnode.symm.trans hnd)
    cases d <;> cases hq

end Caver.Runtime
