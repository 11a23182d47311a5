import Caver.Runtime.RbTree

/-!
# Caver.Runtime.RbTreeRep — trees in memory

`Holds s C t`: the nodes reachable from the root of `s` are the tree with `t`
in the context `C`, with consistent parent links and no node shared. The
labels are `Cell`s: a node's address with the key and value stored there.

Every pointer operation of the source is described here once, as a change of
the focus or of its context:

* reading at, above and beside the focus (`Holds.load`, `Holds.sibling`, …);
* assigning to a field that the shape does not depend on (`Holds.set_node`);
* `replace_node` and the two rotations (`Holds.rotate`).
-/

namespace Caver.Runtime

open Caver.Core Caver.Core.RedBlackTree

/-! ## Representation -/

/-- A node's address with its key and value. -/
structure Cell where
  ptr : Ptr
  key : Key
  value : Uptr
deriving DecidableEq, Repr

/-- The pointer to a tree. -/
def ref : RedBlackTree Cell → Ref
  | .nil => none
  | .node _ _ x _ => some x.ptr

@[simp] theorem ref_nil : ref .nil = none := rfl
@[simp] theorem ref_node (c : Color) (l r : RedBlackTree Cell) (x : Cell) :
    ref (.node c l x r) = some x.ptr := rfl

@[simp] theorem ref_join (d : Side) (c : Color) (near far : RedBlackTree Cell) (x : Cell) :
    ref (join d c near x far) = some x.ptr := by
  cases d <;> rfl

/-- The contents of the node labelled `x`. -/
def Cell.node (x : Cell) (d : Side) (c : Color) (par near far : Ref) : Node :=
  match d with
  | .left => ⟨x.key, x.value, near, far, par, c⟩
  | .right => ⟨x.key, x.value, far, near, par, c⟩

/-- The heap stores the tree, with `par` as the parent link of its root. -/
def Rep (h : Heap Node) (par : Ref) : RedBlackTree Cell → Prop
  | .nil => True
  | .node c l x r =>
    h.get x.ptr = some ⟨x.key, x.value, ref l, ref r, par, c⟩ ∧
      Rep h (some x.ptr) l ∧ Rep h (some x.ptr) r

/-- The parent link of the hole of a context. -/
def up : Ctx Cell → Ref
  | [] => none
  | f :: _ => some f.label.ptr

@[simp] theorem up_nil : up [] = none := rfl
@[simp] theorem up_cons (f : Frame Cell) (C : Ctx Cell) : up (f :: C) = some f.label.ptr := rfl

/-- The state stores the context, with `hole` as the pointer into its hole. -/
def RepCtx (s : RbTree) : Ctx Cell → Ref → Prop
  | [], hole => s.root = hole
  | f :: C, hole =>
    s.heap.get f.label.ptr = some (f.label.node f.side f.color (up C) hole (ref f.sib)) ∧
      Rep s.heap (some f.label.ptr) f.sib ∧ RepCtx s C (some f.label.ptr)

/-- The state stores the tree with focus `t` in the context `C`. -/
structure Holds (s : RbTree) (C : Ctx Cell) (t : RedBlackTree Cell) : Prop where
  ctx : RepCtx s C (ref t)
  focus : Rep s.heap (up C) t
  nodup : ((plug C t).toList.map Cell.ptr).Nodup

/-! ## Frame lemmas -/

variable {s s' : RbTree} {h h' : Heap Node} {C : Ctx Cell} {f : Frame Cell}
  {t l r : RedBlackTree Cell} {x : Cell} {c c' : Color} {d : Side} {par hole : Ref} {p : Ptr}

theorem rep_join {near far : RedBlackTree Cell} :
    Rep h par (join d c near x far) ↔
      h.get x.ptr = some (x.node d c par (ref near) (ref far)) ∧
        Rep h (some x.ptr) near ∧ Rep h (some x.ptr) far := by
  cases d
  · exact Iff.rfl
  · simp only [join_right, Rep, Cell.node]
    exact and_congr_right fun _ => and_comm

/-- A stored tree depends on the nodes at its own addresses only. -/
theorem Rep.congr (hr : Rep h par t) (heq : ∀ y ∈ t.toList, h'.get y.ptr = h.get y.ptr) :
    Rep h' par t := by
  induction t generalizing par with
  | nil => trivial
  | node c l x r ihl ihr =>
    rcases hr with ⟨hx, hl, hr⟩
    simp only [toList_node, List.mem_append, List.mem_cons] at heq
    refine ⟨(heq x (by simp)).trans hx, ihl hl ?_, ihr hr ?_⟩
    · exact fun y hy => heq y (Or.inl hy)
    · exact fun y hy => heq y (Or.inr (Or.inr hy))

/-- A stored context depends on the root pointer and on its own addresses. -/
theorem RepCtx.congr (hc : RepCtx s C hole) (hroot : s'.root = s.root)
    (heq : ∀ y ∈ before C ++ after C, s'.heap.get y.ptr = s.heap.get y.ptr) :
    RepCtx s' C hole := by
  induction C generalizing hole with
  | nil => exact hroot.trans hc
  | cons f C ih =>
    rcases hc with ⟨hx, hsib, hc⟩
    have hsub : (∀ y, y = f.label ∨ y ∈ f.sib.toList ∨ y ∈ before C ++ after C →
        s'.heap.get y.ptr = s.heap.get y.ptr) := by
      intro y hy
      refine heq y ?_
      rcases f with ⟨d, fc, fx, fs⟩
      cases d <;> simp only [before, after, List.mem_append, List.mem_cons] at hy ⊢ <;> grind
    refine ⟨(hsub f.label (Or.inl rfl)).trans hx, hsib.congr fun y hy => ?_, ih hc fun y hy => ?_⟩
    · exact hsub y (Or.inr (Or.inl hy))
    · exact hsub y (Or.inr (Or.inr hy))

/-- No address occurs twice in the context. -/
def CtxNodup (C : Ctx Cell) : Prop := ((before C ++ after C).map Cell.ptr).Nodup

/-- The addresses of a tree: those of the context and of the focus, apart. -/
theorem nodup_plug :
    ((plug C t).toList.map Cell.ptr).Nodup ↔
      CtxNodup C ∧ (t.toList.map Cell.ptr).Nodup ∧
        ∀ y ∈ t.toList, ∀ z ∈ before C ++ after C, z.ptr ≠ y.ptr := by
  rw [toList_plug, CtxNodup]
  simp only [List.map_append, List.nodup_append, List.mem_append, List.mem_map]
  grind

theorem ctxNodup_cons :
    CtxNodup (f :: C) ↔
      CtxNodup C ∧ (f.sib.toList.map Cell.ptr).Nodup ∧
        (∀ y ∈ f.sib.toList, y.ptr ≠ f.label.ptr) ∧
        (∀ z ∈ before C ++ after C, z.ptr ≠ f.label.ptr) ∧
        (∀ y ∈ f.sib.toList, ∀ z ∈ before C ++ after C, z.ptr ≠ y.ptr) := by
  rcases f with ⟨d, fc, fx, fs⟩
  cases d <;>
    simp only [CtxNodup, before, after, List.map_append, List.map_cons, List.map_nil,
      List.nodup_append, List.nodup_cons, List.mem_append, List.mem_cons, List.mem_map,
      List.not_mem_nil, List.cons_append] <;>
    grind

theorem nodup_join {near far : RedBlackTree Cell} :
    ((join d c near x far).toList.map Cell.ptr).Nodup ↔
      (near.toList.map Cell.ptr).Nodup ∧ (far.toList.map Cell.ptr).Nodup ∧
        (∀ y ∈ near.toList, y.ptr ≠ x.ptr) ∧ (∀ y ∈ far.toList, y.ptr ≠ x.ptr) ∧
        (∀ y ∈ near.toList, ∀ z ∈ far.toList, z.ptr ≠ y.ptr) := by
  cases d <;>
    simp only [join_left, join_right, toList_node, List.map_append, List.map_cons,
      List.nodup_append, List.nodup_cons, List.mem_cons, List.mem_map] <;>
    grind

theorem mem_join {near far : RedBlackTree Cell} {y : Cell} :
    y ∈ (join d c near x far).toList ↔ y = x ∨ y ∈ near.toList ∨ y ∈ far.toList := by
  cases d <;> simp only [join_left, join_right, toList_node, List.mem_append, List.mem_cons] <;>
    tauto

/-- The focus may take in the frame above it. -/
theorem holds_cons : Holds s (f :: C) t ↔ Holds s C (f.fill t) := by
  constructor
  · rintro ⟨⟨hx, hsib, hc⟩, ht, hnd⟩
    refine ⟨?_, ?_, hnd⟩
    · simpa [Frame.fill] using hc
    · exact rep_join.mpr ⟨hx, ht, hsib⟩
  · rintro ⟨hc, ht, hnd⟩
    rcases rep_join.mp ht with ⟨hx, ht, hsib⟩
    refine ⟨⟨hx, hsib, ?_⟩, ht, hnd⟩
    simpa [Frame.fill] using hc

/-- The focus may change sides with the tree beside it. -/
theorem holds_swap {y : Cell} {sib : RedBlackTree Cell} :
    Holds s (⟨d, c, y, sib⟩ :: C) t ↔ Holds s (⟨d.opp, c, y, t⟩ :: C) sib := by
  rw [holds_cons, holds_cons]
  cases d <;> exact Iff.rfl

/-- The focus may be moved anywhere in the tree. -/
theorem holds_plug {D : Ctx Cell} : Holds s (D ++ C) t ↔ Holds s C (plug D t) := by
  induction D generalizing t with
  | nil => exact Iff.rfl
  | cons f D ih => exact holds_cons.trans ih

theorem holds_root : Holds s C t ↔ Holds s [] (plug C t) := by
  rw [← holds_plug, List.append_nil]

/-! ## Reading -/

@[simp] theorem heap_update (s : RbTree) (p : Ptr) (g : Node → Node) :
    (s.update (some p) g).heap = s.heap.modify p g := rfl

theorem load_some {nd : Node} (hp : s.heap.get p = some nd) : load (some p) s = some (nd, s) := by
  simp [load, hp]

theorem store_some (hp : (s.heap.get p).isSome) (g : Node → Node) :
    store (some p) g s = some ((), s.update (some p) g) := by
  rcases Option.isSome_iff_exists.mp hp with ⟨nd, hp⟩
  refine eval_of_wp ?_
  simp [store, wp_eval (load_some hp)]

/-- `node_color` of a stored tree, null or not. -/
theorem Rep.nodeColor (hr : Rep s.heap par t) : nodeColor (ref t) s = some (t.color, s) := by
  cases t with
  | nil => rfl
  | node c l x r =>
    refine eval_of_wp ?_
    simp [Runtime.nodeColor, wp_eval (load_some hr.1)]

theorem hasColor_eval {m : M Ref} (hm : m s = some (ref t, s)) (hr : Rep s.heap par t) (c : Color) :
    hasColor m c s = some (decide (t.color = c), s) := by
  refine eval_of_wp ?_
  simp [hasColor, wp_eval hm, wp_eval hr.nodeColor]

/-- Of two different children, the near one is on side `d`. -/
theorem Cell.eq_left {sib : Ref} (hne : sib ≠ some p) :
    some p = (x.node d c par (some p) sib).left ↔ d = .left := by
  cases d
  · simp [Cell.node]
  · simp [Cell.node, Ne.symm hne]

theorem Cell.eq_right {sib : Ref} (hne : sib ≠ some p) :
    some p = (x.node d c par (some p) sib).right ↔ d = .right := by
  cases d
  · simp [Cell.node, Ne.symm hne]
  · simp [Cell.node]

namespace Holds

theorem get (hs : Holds s C (node c l x r)) :
    s.heap.get x.ptr = some ⟨x.key, x.value, ref l, ref r, up C, c⟩ := hs.focus.1

theorem get_join {near far : RedBlackTree Cell} (hs : Holds s C (join d c near x far)) :
    s.heap.get x.ptr = some (x.node d c (up C) (ref near) (ref far)) := (rep_join.mp hs.focus).1

theorem get_up (hs : Holds s (f :: C) t) :
    s.heap.get f.label.ptr = some (f.label.node f.side f.color (up C) (ref t) (ref f.sib)) :=
  hs.ctx.1

theorem load (hs : Holds s C (node c l x r)) :
    load (some x.ptr) s = some (⟨x.key, x.value, ref l, ref r, up C, c⟩, s) :=
  load_some hs.get

theorem load_up (hs : Holds s (f :: C) t) :
    Runtime.load (some f.label.ptr) s =
      some (f.label.node f.side f.color (up C) (ref t) (ref f.sib), s) :=
  load_some hs.get_up

/-- The two children of the node above the focus are different nodes. -/
theorem sib_ne (hs : Holds s (f :: C) (node c l x r)) : ref f.sib ≠ some x.ptr := by
  rcases nodup_plug.mp hs.nodup with ⟨-, -, hne⟩
  intro heq
  cases hsib : f.sib with
  | nil => simp [hsib] at heq
  | node c' l' y r' =>
    have hmem : y ∈ before (f :: C) ++ after (f :: C) := by
      rcases f with ⟨d, fc, fx, fs⟩
      cases hsib
      cases d <;> simp [before, after]
    refine hne x (by simp) y hmem ?_
    simpa [hsib] using heq

theorem parent (hs : Holds s C (node c l x r)) : parent (some x.ptr) s = some (up C, s) := by
  refine eval_of_wp ?_
  simp [Runtime.parent, wp_eval hs.load]

theorem isLeft (hs : Holds s (f :: C) (node c l x r)) :
    isLeft (some x.ptr) s = some (decide (f.side = .left), s) := by
  refine eval_of_wp ?_
  simp [Runtime.isLeft, wp_eval hs.load, wp_eval hs.load_up, Cell.eq_left hs.sib_ne]

theorem isRight (hs : Holds s (f :: C) (node c l x r)) :
    isRight (some x.ptr) s = some (decide (f.side = .right), s) := by
  refine eval_of_wp ?_
  simp [Runtime.isRight, wp_eval hs.load, wp_eval hs.load_up, Cell.eq_right hs.sib_ne]

theorem sibling (hs : Holds s (f :: C) (node c l x r)) :
    sibling (some x.ptr) s = some (ref f.sib, s) := by
  have hne := hs.sib_ne
  refine eval_of_wp ?_
  simp only [Runtime.sibling, wp_bind, wp_ite, wp_pure, wp_eval hs.load, up_cons,
    wp_eval hs.load_up, ref_node]
  rcases f with ⟨d, fc, fx, fs⟩
  cases d
  · simp [Cell.node]
  · simp [Cell.node, Ne.symm hne]

theorem grandparent (hs : Holds s (f :: C) (node c l x r)) :
    grandparent (some x.ptr) s = some (up C, s) := by
  refine eval_of_wp ?_
  simp only [Runtime.grandparent, wp_bind, wp_pure, wp_eval hs.load, up_cons,
    wp_eval hs.load_up]
  rcases f with ⟨d, fc, fx, fs⟩
  cases d <;> simp [Cell.node]

theorem uncle {g : Frame Cell} (hs : Holds s (f :: g :: C) (node c l x r)) :
    uncle (some x.ptr) s = some (ref g.sib, s) := by
  refine eval_of_wp ?_
  have hup := holds_cons.mp hs
  rcases f with ⟨d, fc, fx, fs⟩
  cases d <;>
    simp [Runtime.uncle, wp_eval hs.load, wp_eval (sibling (f := g) hup)]

theorem nodeColor_up (hs : Holds s (f :: C) t) :
    nodeColor (some f.label.ptr) s = some (f.color, s) := by
  refine eval_of_wp ?_
  rcases f with ⟨d, fc, fx, fs⟩
  cases d <;> simp [Runtime.nodeColor, wp_eval hs.load_up, Cell.node]

theorem rep_sib (hs : Holds s (f :: C) t) : Rep s.heap (some f.label.ptr) f.sib := hs.ctx.2.1

/-- The two nodes above the focus, seen from below. -/
theorem load_up_up {g : Frame Cell} (hs : Holds s (f :: g :: C) t) :
    Runtime.load (some g.label.ptr) s =
        some (g.label.node g.side g.color (up C) (some f.label.ptr) (ref g.sib), s) ∧
      ref g.sib ≠ some f.label.ptr := by
  have hup := holds_cons.mp hs
  refine ⟨by simpa [Frame.fill] using hup.load_up, ?_⟩
  rcases f with ⟨d, fc, fx, fs⟩
  cases d <;> exact hup.sib_ne

theorem parentIsLeft {g : Frame Cell} (hs : Holds s (f :: g :: C) (node c l x r)) :
    parentIsLeft (some x.ptr) s = some (decide (g.side = .left), s) := by
  rcases hs.load_up_up with ⟨hload, hne⟩
  refine eval_of_wp ?_
  simp [Runtime.parentIsLeft, wp_eval hs.load, wp_eval hs.grandparent, wp_eval hload,
    Cell.eq_left hne]

theorem parentIsRight {g : Frame Cell} (hs : Holds s (f :: g :: C) (node c l x r)) :
    parentIsRight (some x.ptr) s = some (decide (g.side = .right), s) := by
  rcases hs.load_up_up with ⟨hload, hne⟩
  refine eval_of_wp ?_
  simp [Runtime.parentIsRight, wp_eval hs.load, wp_eval hs.grandparent, wp_eval hload,
    Cell.eq_right hne]

theorem hasColor_parent (hs : Holds s (f :: C) (node c l x r)) (k : Color) :
    hasColor (Runtime.parent (some x.ptr)) k s = some (decide (f.color = k), s) := by
  refine eval_of_wp ?_
  simp [hasColor, wp_eval hs.parent, wp_eval hs.nodeColor_up]

theorem hasColor_sibling (hs : Holds s (f :: C) (node c l x r)) (k : Color) :
    hasColor (Runtime.sibling (some x.ptr)) k s = some (decide (f.sib.color = k), s) :=
  hasColor_eval hs.sibling hs.rep_sib k

section Nephews

variable {y z : Cell} {e : Color} {u v : RedBlackTree Cell}
  (hs : Holds s (⟨d, c, z, node e u y v⟩ :: C) (node c' l x r))

include hs

/-- The children of the node beside the focus. -/
theorem siblingLeft : siblingLeft (some x.ptr) s = some (ref u, s) := by
  refine eval_of_wp ?_
  simp [Runtime.siblingLeft, wp_eval hs.sibling, wp_eval (holds_swap.mp hs).load]

theorem siblingRight : siblingRight (some x.ptr) s = some (ref v, s) := by
  refine eval_of_wp ?_
  simp [Runtime.siblingRight, wp_eval hs.sibling, wp_eval (holds_swap.mp hs).load]

theorem hasColor_siblingLeft (k : Color) :
    hasColor (Runtime.siblingLeft (some x.ptr)) k s = some (decide (u.color = k), s) :=
  hasColor_eval hs.siblingLeft hs.rep_sib.2.1 k

theorem hasColor_siblingRight (k : Color) :
    hasColor (Runtime.siblingRight (some x.ptr)) k s = some (decide (v.color = k), s) :=
  hasColor_eval hs.siblingRight hs.rep_sib.2.2 k

end Nephews

end Holds

/-! ## Assigning -/

theorem RepCtx.update_focus {g : Node → Node} (hc : RepCtx s C hole)
    (hne : ∀ y ∈ before C ++ after C, y.ptr ≠ p) : RepCtx (s.update (some p) g) C hole :=
  hc.congr rfl fun y hy => Heap.get_modify_of_ne _ _ (hne y hy)

theorem Rep.modify {g : Node → Node} (hr : Rep h par t) (hne : ∀ y ∈ t.toList, y.ptr ≠ p) :
    Rep (h.modify p g) par t :=
  hr.congr fun y hy => Heap.get_modify_of_ne _ _ (hne y hy)

/-- Assigning to key, value or colour of the node at the focus. -/
theorem Holds.set_node {near far : RedBlackTree Cell} {g : Node → Node} {Q : Unit → RbTree → Prop}
    (hs : Holds s C (join d c near x far)) (x' : Cell) (c' : Color) (hp : x'.ptr = x.ptr)
    (hg : ∀ par nr fr, g (x.node d c par nr fr) = x'.node d c' par nr fr)
    (hQ : ∀ s', Holds s' C (join d c' near x' far) → Q () s') :
    wp (store (some x.ptr) g) Q s := by
  rcases hs with ⟨hc, hf, hnd⟩
  rcases rep_join.mp hf with ⟨hx, hnear, hfar⟩
  rcases nodup_plug.mp hnd with ⟨hcnd, htnd, hap⟩
  rcases nodup_join.mp htnd with ⟨-, -, hnearx, hfarx, -⟩
  -- the addresses stay the same
  have hlist : (join d c' near x' far).toList.map Cell.ptr =
      (join d c near x far).toList.map Cell.ptr := by
    cases d <;> simp [hp]
  refine (wp_eval (store_some (Option.isSome_of_eq_some hx) g)).mpr (hQ _ ⟨?_, ?_, ?_⟩)
  · rw [ref_join, hp]
    rw [ref_join] at hc
    exact hc.update_focus (hap x (mem_join.mpr (Or.inl rfl)))
  · rw [rep_join, hp]
    refine ⟨?_, hnear.modify hnearx, hfar.modify hfarx⟩
    simp [hx, hg]
  · rw [toList_plug] at hnd ⊢
    simpa only [List.map_append, hlist] using hnd

/-- Assigning the colour of the node at the focus, above it, above that one,
and beside it. -/
theorem Holds.set_color {Q : Unit → RbTree → Prop} (hs : Holds s C (node c l x r)) (c' : Color)
    (hQ : ∀ s', Holds s' C (node c' l x r) → Q () s') :
    wp (store (some x.ptr) fun nd => { nd with color := c' }) Q s :=
  hs.set_node (d := .left) x c' rfl (fun _ _ _ => rfl) hQ

theorem Holds.set_color_up {Q : Unit → RbTree → Prop} (hs : Holds s (⟨d, c, x, r⟩ :: C) t)
    (c' : Color) (hQ : ∀ s', Holds s' (⟨d, c', x, r⟩ :: C) t → Q () s') :
    wp (store (some x.ptr) fun nd => { nd with color := c' }) Q s := by
  refine (holds_cons.mp hs).set_node x c' rfl (fun _ _ _ => ?_) fun s' hs' => ?_
  · cases d <;> rfl
  · exact hQ s' (holds_cons.mpr hs')

theorem Holds.set_color_up_up {Q : Unit → RbTree → Prop}
    (hs : Holds s (f :: ⟨d, c, x, r⟩ :: C) t) (c' : Color)
    (hQ : ∀ s', Holds s' (f :: ⟨d, c', x, r⟩ :: C) t → Q () s') :
    wp (store (some x.ptr) fun nd => { nd with color := c' }) Q s :=
  (holds_cons.mp hs).set_color_up c' fun s' hs' => hQ s' (holds_cons.mpr hs')

theorem Holds.set_color_sib {a : Side} {y : Cell} {e : Color} {Q : Unit → RbTree → Prop}
    (hs : Holds s (⟨d, e, y, join a c l x r⟩ :: C) t) (c' : Color)
    (hQ : ∀ s', Holds s' (⟨d, e, y, join a c' l x r⟩ :: C) t → Q () s') :
    wp (store (some x.ptr) fun nd => { nd with color := c' }) Q s := by
  refine (holds_swap.mp hs).set_node x c' rfl (fun _ _ _ => ?_) fun s' hs' => ?_
  · cases a <;> rfl
  · exact hQ s' (holds_swap.mpr hs')

/-- Recolouring a child of the node beside the focus. -/
theorem Holds.set_color_nephew {a k : Side} {y w : Cell} {e b : Color} {o : RedBlackTree Cell}
    {Q : Unit → RbTree → Prop}
    (hs : Holds s (⟨d, e, y, join a b (join k c l x r) w o⟩ :: C) t) (c' : Color)
    (hQ : ∀ s', Holds s' (⟨d, e, y, join a b (join k c' l x r) w o⟩ :: C) t → Q () s') :
    wp (store (some x.ptr) fun nd => { nd with color := c' }) Q s := by
  have hsib := (holds_cons (f := ⟨a, b, w, o⟩)).mpr (holds_swap.mp hs)
  refine hsib.set_node x c' rfl (fun _ _ _ => ?_) fun s' hs' => ?_
  · cases k <;> rfl
  · exact hQ s' (holds_swap.mpr (holds_cons.mp hs'))

/-! ## `replace_node` and the rotations -/

/-- Assign to the pointer that leads into the hole of a context. -/
def RbTree.setHole (s : RbTree) (C : Ctx Cell) (r : Ref) : RbTree :=
  match C with
  | [] => { s with root := r }
  | f :: _ => s.update (some f.label.ptr) (Node.setChild f.side r)

/-- Assign to the parent link of a node that may be null. -/
def RbTree.setParent (s : RbTree) (r par : Ref) : RbTree :=
  s.update r fun nd => { nd with parent := par }

theorem Cell.setChild_node (x : Cell) (d : Side) (c : Color) (par near far r : Ref) :
    Node.setChild d r (x.node d c par near far) = x.node d c par r far := by
  cases d <;> rfl

theorem Cell.setChild_opp_node (x : Cell) (d : Side) (c : Color) (par near far r : Ref) :
    Node.setChild d.opp r (x.node d c par near far) = x.node d c par near r := by
  cases d <;> rfl

theorem Cell.child_node (x : Cell) (d : Side) (c : Color) (par near far : Ref) :
    (x.node d c par near far).child d = near := by
  cases d <;> rfl

theorem Cell.child_opp_node (x : Cell) (d : Side) (c : Color) (par near far : Ref) :
    (x.node d c par near far).child d.opp = far := by
  cases d <;> rfl

theorem Cell.parent_node (x : Cell) (d : Side) (c : Color) (par near far : Ref) :
    (x.node d c par near far).parent = par := by
  cases d <;> rfl

/-- Only the pointer into the hole changes. -/
theorem RepCtx.setHole {r : Ref} (hc : RepCtx s C hole) (hnd : CtxNodup C) :
    RepCtx (s.setHole C r) C r := by
  cases C with
  | nil => rfl
  | cons f C =>
    rcases hc with ⟨hx, hsib, hc⟩
    rcases ctxNodup_cons.mp hnd with ⟨-, -, hsx, hCx, -⟩
    refine ⟨?_, hsib.modify hsx, hc.update_focus hCx⟩
    simp [RbTree.setHole, hx, Cell.setChild_node]

/-- Cells away from the context keep their contents. -/
theorem get_setHole {r : Ref} (hne : ∀ y ∈ before C ++ after C, y.ptr ≠ p) :
    (s.setHole C r).heap.get p = s.heap.get p := by
  cases C with
  | nil => rfl
  | cons f C =>
    refine Heap.get_modify_of_ne _ _ fun heq => hne f.label ?_ heq.symm
    rcases f with ⟨d, fc, fx, fs⟩
    cases d <;> simp [before, after]

theorem get_update (s : RbTree) (r : Ref) (p : Ptr) (g : Node → Node) :
    (s.update r g).heap.get p = if r = some p then (s.heap.get p).map g else s.heap.get p := by
  cases r with
  | none => simp [RbTree.update]
  | some q => simp [Heap.get_modify, eq_comm]

/-- Assignments allocate and free nothing. -/
theorem isSome_update {r : Ref} {g : Node → Node} :
    ((s.update r g).heap.get p).isSome = (s.heap.get p).isSome := by
  rw [get_update]
  split <;> simp

theorem isSome_setParent {r par : Ref} :
    ((s.setParent r par).heap.get p).isSome = (s.heap.get p).isSome :=
  isSome_update

theorem isSome_setHole {r : Ref} :
    ((s.setHole C r).heap.get p).isSome = (s.heap.get p).isSome := by
  cases C with
  | nil => rfl
  | cons f C => exact isSome_update

/-- The pointer to a node that hangs in the hole of a stored context is the
pointer into that hole. -/
theorem replaceLink_eval {nd : Node} (hc : RepCtx s C (some p)) (hp : s.heap.get p = some nd)
    (hpar : nd.parent = up C) (hne : ∀ y ∈ before C ++ after C, y.ptr ≠ p) (newn : Ref) :
    replaceLink (some p) newn s = some ((), s.setHole C newn) := by
  have hload := load_some hp
  refine eval_of_wp ?_
  cases C with
  | nil => simp [replaceLink, wp_ite, wp_eval hload, hpar, setRoot, RbTree.setHole]
  | cons f C =>
    rcases hc with ⟨hx, -, -⟩
    -- the other child of the parent is another node
    have hsib : ref f.sib ≠ some p := by
      intro heq
      cases hs : f.sib with
      | nil => simp [hs] at heq
      | node c l y r =>
        refine hne y ?_ (by simpa [hs] using heq)
        rcases f with ⟨d, fc, fx, fs⟩
        cases hs
        cases d <;> simp [before, after]
    simp only [replaceLink, wp_bind, wp_ite, wp_eval hload, hpar, up_cons,
      wp_eval (load_some hx), wp_eval (store_some (Option.isSome_of_eq_some hx) _),
      reduceCtorEq, if_false]
    rcases f with ⟨d, fc, fx, fs⟩
    cases d
    · simp [Cell.node, RbTree.setHole]
      rfl
    · simp [Cell.node, RbTree.setHole, Ne.symm hsib]
      rfl

/-- `replace_node`, on a node that hangs in the hole of a stored context. -/
theorem replaceNode_eval {nd : Node} (hc : RepCtx s C (some p)) (hp : s.heap.get p = some nd)
    (hpar : nd.parent = up C) (hne : ∀ y ∈ before C ++ after C, y.ptr ≠ p) (newn : Ref)
    (hnew : ∀ q, newn = some q → (s.heap.get q).isSome) :
    replaceNode (some p) newn s = some ((), (s.setHole C newn).setParent newn (up C)) := by
  have hload : load (some p) (s.setHole C newn) = some (nd, s.setHole C newn) :=
    load_some ((get_setHole hne).trans hp)
  refine eval_of_wp ?_
  simp only [replaceNode, wp_bind, wp_eval (replaceLink_eval hc hp hpar hne newn), wp_ite]
  cases newn with
  | none => simp [RbTree.setParent, RbTree.update]
  | some q =>
    have hq : ((s.setHole C (some q)).heap.get q).isSome := isSome_setHole.trans (hnew q rfl)
    simp [wp_eval hload, wp_eval (store_some hq _), RbTree.setParent, hpar]

theorem Rep.isSome_ref (hr : Rep h par t) : ∀ q, ref t = some q → (h.get q).isSome := by
  cases t with
  | nil => simp
  | node c l x r =>
    rintro q ⟨⟩
    exact Option.isSome_of_eq_some hr.1

theorem ref_ne (hne : ∀ z ∈ t.toList, z.ptr ≠ p) : ref t ≠ some p := by
  cases t with
  | nil => simp
  | node c l x r => simpa using hne x (by simp)

theorem setParent_eval {r : Ref} (hr : ∀ q, r = some q → (s.heap.get q).isSome) (par : Ref) :
    setParent r par s = some ((), s.setParent r par) := by
  cases r with
  | none => rfl
  | some q => exact store_some (hr q rfl) _

theorem wp_store {g : Node → Node} {Q : Unit → RbTree → Prop} (hp : (s.heap.get p).isSome) :
    wp (store (some p) g) Q s ↔ Q () (s.update (some p) g) :=
  wp_eval (store_some hp g)

theorem wp_setParent {r : Ref} {Q : Unit → RbTree → Prop}
    (hr : ∀ q, r = some q → (s.heap.get q).isSome) :
    wp (setParent r par) Q s ↔ Q () (s.setParent r par) :=
  wp_eval (setParent_eval hr par)

/-- A stored tree may be hung under another parent. -/
theorem Rep.setParent (hr : Rep s.heap par t) (hnd : (t.toList.map Cell.ptr).Nodup)
    (par' : Ref) : Rep (s.setParent (ref t) par').heap par' t := by
  cases t with
  | nil => trivial
  | node c l x r =>
    rcases hr with ⟨hx, hl, hr⟩
    rcases nodup_join (d := .left).mp hnd with ⟨-, -, hlx, hrx, -⟩
    refine ⟨?_, hl.modify hlx, hr.modify hrx⟩
    simp [RbTree.setParent, hx]

/-- The state after a rotation: `y` takes the place of `x`, and `b` changes
from `y` to `x`. -/
def RbTree.rotated (s : RbTree) (d : Side) (C : Ctx Cell) (x y : Ptr) (b : Ref) : RbTree :=
  (((((s.setHole C (some y)).setParent (some y) (up C)).update (some x)
    (Node.setChild d.opp b)).setParent b (some x)).update (some y)
    (Node.setChild d (some x))).setParent (some x) (some y)

/-- Cells that a rotation does not touch. -/
theorem get_rotated {q y : Ptr} {b : Ref} (hx : q ≠ p) (hy : q ≠ y) (hb : b ≠ some q) :
    (s.rotated d C p y b).heap.get q = (s.setHole C (some y)).heap.get q := by
  simp only [RbTree.rotated, RbTree.setParent, get_update, Option.some.injEq, hx.symm, hy.symm,
    hb, if_false]

/-- The code of a rotation, at a node `x` whose far child is `y`. -/
theorem rotate_eval {a b e : RedBlackTree Cell} {y : Cell} {j k : Color}
    (hc : RepCtx s C (some x.ptr))
    (hx : s.heap.get x.ptr = some (x.node d j (up C) (ref a) (some y.ptr)))
    (hy : s.heap.get y.ptr = some (y.node d k (some x.ptr) (ref b) (ref e)))
    (hb : Rep s.heap (some y.ptr) b) (hxC : ∀ z ∈ before C ++ after C, z.ptr ≠ x.ptr)
    (hyC : ∀ z ∈ before C ++ after C, z.ptr ≠ y.ptr) :
    Runtime.rotate d (some x.ptr) s = some ((), s.rotated d C x.ptr y.ptr (ref b)) := by
  -- `replace_node` has changed the parent of `y` when its child is read
  have hy₂ : ((s.setHole C (some y.ptr)).setParent (some y.ptr) (up C)).heap.get y.ptr =
      some (y.node d k (up C) (ref b) (ref e)) := by
    simp only [RbTree.setParent, get_update, get_setHole hyC, hy, if_true, Option.map_some]
    cases d <;> rfl
  have hxs : (s.heap.get x.ptr).isSome := Option.isSome_of_eq_some hx
  have hys : (s.heap.get y.ptr).isSome := Option.isSome_of_eq_some hy
  refine eval_of_wp ?_
  simp only [Runtime.rotate, wp_bind, wp_eval (load_some hx), Cell.child_opp_node,
    wp_eval (replaceNode_eval hc hx (Cell.parent_node ..) hxC (some y.ptr)
      (by rintro q ⟨⟩; exact hys)),
    wp_eval (load_some hy₂), Cell.child_node, wp_store, isSome_setParent, isSome_setHole, hxs]
  rw [wp_setParent fun q hq => by
    simp only [isSome_update, isSome_setParent, isSome_setHole, hb.isSome_ref q hq]]
  simp only [wp_store, isSome_update, isSome_setParent, isSome_setHole, hxs, hys]
  exact ⟨trivial, rfl⟩

/-- The rotation towards `d` at the focus: the child `y` on the far side comes
up, and the subtree between the two nodes changes hands. -/
theorem Holds.rotate {a b e : RedBlackTree Cell} {y : Cell} {j k : Color} {Q : Unit → RbTree → Prop}
    (hs : Holds s C (join d j a x (join d k b y e)))
    (hQ : ∀ s', Holds s' C (join d k (join d j a x b) y e) → Q () s') :
    wp (rotate d (some x.ptr)) Q s := by
  rcases hs with ⟨hc, hf, hnd⟩
  rcases rep_join.mp hf with ⟨hx, ha, hf⟩
  rcases rep_join.mp hf with ⟨hy, hb, he⟩
  rcases nodup_plug.mp hnd with ⟨hcnd, htnd, hap⟩
  rcases nodup_join.mp htnd with ⟨-, hynd, hax, hyx, hay⟩
  rcases nodup_join.mp hynd with ⟨hbnd, -, hby, hey, hbe⟩
  simp only [mem_join] at hap hyx hay
  -- the two nodes are none of the context, and different
  have hxC := hap x (Or.inl rfl)
  have hyC := hap y (Or.inr (Or.inr (Or.inl rfl)))
  have hyx' : y.ptr ≠ x.ptr := hyx y (Or.inl rfl)
  have hbx : ref b ≠ some x.ptr := ref_ne fun z hz => hyx z (Or.inr (Or.inl hz))
  have hby' : ref b ≠ some y.ptr := ref_ne hby
  rw [ref_join] at hx hc
  -- the cells of the state after the rotation
  have hgx : (s.rotated d C x.ptr y.ptr (ref b)).heap.get x.ptr =
      some (x.node d j (some y.ptr) (ref a) (ref b)) := by
    simp only [RbTree.rotated, RbTree.setParent, get_update, get_setHole hxC, hx, hyx', hbx,
      Option.some.injEq, if_true, if_false, Option.map_some, Cell.setChild_opp_node]
    cases d <;> rfl
  have hgy : (s.rotated d C x.ptr y.ptr (ref b)).heap.get y.ptr =
      some (y.node d k (up C) (some x.ptr) (ref e)) := by
    simp only [RbTree.rotated, RbTree.setParent, get_update, get_setHole hyC, hy, hyx'.symm, hby',
      Option.some.injEq, if_true, if_false, Option.map_some]
    cases d <;> rfl
  -- only the parent link of the subtree between the nodes changes
  have hgb : ∀ z ∈ b.toList, (s.rotated d C x.ptr y.ptr (ref b)).heap.get z.ptr =
      (s.setParent (ref b) (some x.ptr)).heap.get z.ptr := by
    intro z hz
    have hzx : x.ptr ≠ z.ptr := (hyx z (Or.inr (Or.inl hz))).symm
    have hzC := hap z (Or.inr (Or.inr (Or.inr (Or.inl hz))))
    simp only [RbTree.rotated, RbTree.setParent, get_update, get_setHole hzC, Option.some.injEq,
      (hby z hz).symm, hzx, if_false]
  have hrest : ∀ z : Cell, z.ptr ≠ x.ptr → z.ptr ≠ y.ptr → ref b ≠ some z.ptr →
      (∀ w ∈ before C ++ after C, w.ptr ≠ z.ptr) →
      (s.rotated d C x.ptr y.ptr (ref b)).heap.get z.ptr = s.heap.get z.ptr :=
    fun z h₁ h₂ h₃ h₄ => (get_rotated h₁ h₂ h₃).trans (get_setHole h₄)
  have hrun := rotate_eval hc hx hy hb hxC hyC
  refine (wp_eval hrun).mpr (hQ _ ⟨?_, ?_, ?_⟩)
  · rw [ref_join]
    refine (hc.setHole (r := some y.ptr) hcnd).congr ?_ fun z hz => ?_
    · cases b <;> rfl
    · refine get_rotated (hxC z hz) (hyC z hz) (ref_ne fun w hw => ?_)
      exact (hap w (Or.inr (Or.inr (Or.inr (Or.inl hw)))) z hz).symm
  · rw [rep_join, rep_join, ref_join]
    refine ⟨hgy, ⟨hgx, ha.congr fun z hz => ?_, (hb.setParent hbnd _).congr hgb⟩,
      he.congr fun z hz => ?_⟩
    · exact hrest z (hax z hz) (hay z hz y (Or.inl rfl)).symm
        (ref_ne fun w hw => hay z hz w (Or.inr (Or.inl hw))) (hap z (Or.inr (Or.inl hz)))
    · exact hrest z (hyx z (Or.inr (Or.inr hz))) (hey z hz)
        (ref_ne fun w hw => (hbe w hw z hz).symm) (hap z (Or.inr (Or.inr (Or.inr (Or.inr hz)))))
  · -- the order of the nodes stays
    have hlist : (join d k (join d j a x b) y e).toList =
        (join d j a x (join d k b y e)).toList := by
      cases d <;> simp
    rw [toList_plug] at hnd ⊢
    rwa [hlist]

/-! ## Adding and removing nodes -/

/-- A stored tree does not see the nodes at other addresses. -/
theorem Holds.congr (hs : Holds s C t) (hroot : s'.root = s.root)
    (heq : ∀ y ∈ (plug C t).toList, s'.heap.get y.ptr = s.heap.get y.ptr) : Holds s' C t := by
  rw [toList_plug] at heq
  simp only [List.mem_append] at heq
  refine ⟨hs.ctx.congr hroot fun y hy => heq y ?_, hs.focus.congr fun y hy => heq y ?_, hs.nodup⟩
  · rcases List.mem_append.mp hy with h | h
    · exact Or.inl (Or.inl h)
    · exact Or.inr h
  · exact Or.inl (Or.inr hy)

/-- Every node of a stored tree is allocated. -/
theorem Rep.isSome (hr : Rep h par t) : ∀ y ∈ t.toList, (h.get y.ptr).isSome := by
  induction t generalizing par with
  | nil => simp
  | node c l x r ihl ihr =>
    rcases hr with ⟨hx, hl, hr⟩
    simp only [toList_node, List.mem_append, List.mem_cons]
    rintro y (hy | rfl | hy)
    · exact ihl hl y hy
    · exact Option.isSome_of_eq_some hx
    · exact ihr hr y hy

theorem Holds.isSome (hs : Holds s C t) :
    ∀ y ∈ (plug C t).toList, (s.heap.get y.ptr).isSome :=
  (holds_root.mp hs).focus.isSome

/-- A stored tree has no more nodes than the heap has addresses in use. -/
theorem Holds.length_le (hs : Holds s C t) : (plug C t).toList.length ≤ s.heap.bound := by
  have h := Heap.length_le_bound (h := s.heap) hs.nodup fun p hp => by
    rcases List.mem_map.mp hp with ⟨y, hy, rfl⟩
    exact Option.isSome_iff_exists.mp (hs.isSome y hy)
  simpa using h

theorem length_le_context (C : Ctx Cell) : C.length ≤ (before C ++ after C).length := by
  induction C with
  | nil => simp
  | cons f C ih =>
    rcases f with ⟨d, fc, fx, fs⟩
    simp only [List.length_append] at ih
    cases d <;> simp [before, after] <;> omega

/-- The fuel that `insert_case1` and `delete_case1` start with is enough. -/
theorem Holds.context_lt (hs : Holds s C t) : C.length < s.heap.bound + 1 := by
  have h := hs.length_le
  have hC := length_le_context C
  rw [toList_plug] at h
  simp only [List.length_append] at h hC
  omega

/-- A node hung into an empty hole. -/
theorem Holds.hang {nd : Node} (hs : Holds s C .nil) (hp : s.heap.get p = some nd)
    (hnd : nd = ⟨nd.key, nd.value, none, none, nd.parent, c⟩)
    (hfresh : ∀ z ∈ before C ++ after C, z.ptr ≠ p) :
    Holds ((s.setHole C (some p)).setParent (some p) (up C)) C
      (node c .nil ⟨p, nd.key, nd.value⟩ .nil) := by
  rcases hs with ⟨hc, -, hnd'⟩
  rcases nodup_plug.mp hnd' with ⟨hcnd, -, -⟩
  refine ⟨?_, ⟨?_, trivial, trivial⟩, ?_⟩
  · exact (hc.setHole hcnd).update_focus hfresh
  · simp only [RbTree.setParent, get_update, get_setHole hfresh, hp, if_true, Option.map_some]
    rw [hnd]
    rfl
  · exact nodup_plug.mpr ⟨hcnd, by simp, by simpa using hfresh⟩

/-- `replace_node` of the focus by its only child. -/
theorem Holds.replaceNode {Q : Unit → RbTree → Prop} (hs : Holds s C (join d c t x .nil))
    (hQ : ∀ s', Holds s' C t → (∃ nd, s'.heap.get x.ptr = some nd ∧ nd.parent = up C) →
      (∀ z ∈ (plug C t).toList, z.ptr ≠ x.ptr) → Q () s') :
    wp (replaceNode (some x.ptr) (ref t)) Q s := by
  rcases hs with ⟨hc, hf, hnd⟩
  rcases rep_join.mp hf with ⟨hx, ht, -⟩
  rcases nodup_plug.mp hnd with ⟨hcnd, htnd, hap⟩
  rcases nodup_join.mp htnd with ⟨htnd, -, htx, -, -⟩
  simp only [mem_join] at hap
  have hxC := hap x (Or.inl rfl)
  have htC := fun z hz => hap z (Or.inr (Or.inl hz))
  rw [ref_join] at hc
  -- the child hangs in the hole, and its parent link goes up
  rw [wp_eval (replaceNode_eval hc hx (Cell.parent_node ..) hxC _ ht.isSome_ref)]
  refine hQ _ ⟨?_, ?_, ?_⟩ ⟨_, ?_, Cell.parent_node x d c (up C) (ref t) none⟩ ?_
  · refine (hc.setHole hcnd).congr ?_ fun z hz => ?_
    · cases t <;> rfl
    · rw [RbTree.setParent, get_update, if_neg (ref_ne fun w hw => (htC w hw z hz).symm)]
  · exact Rep.setParent (ht.congr fun z hz => get_setHole (htC z hz)) htnd _
  · exact nodup_plug.mpr ⟨hcnd, htnd, htC⟩
  · rw [RbTree.setParent, get_update, if_neg (ref_ne htx), get_setHole hxC, hx]
    rfl
  · rw [toList_plug]
    simp only [List.mem_append]
    rintro z ((hz | hz) | hz)
    · exact hxC z (List.mem_append.mpr (Or.inl hz))
    · exact htx z hz
    · exact hxC z (List.mem_append.mpr (Or.inr hz))

end Caver.Runtime
