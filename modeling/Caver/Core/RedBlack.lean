import Mathlib.Order.Lattice
import Mathlib.Data.List.Nodup

/-!
# Caver.Core.RedBlack — red-black trees seen from a focus

Binary search trees with colours, and the *contexts* around a subtree: an
algorithm that climbs from a leaf to the root changes one focus after the
other, and what it must keep is stated about the context and the focus.

* `plug C t` is the whole tree; `before C` and `after C` are the labels to the
  left and to the right of the focus, so `toList_plug` splits the in-order list
  and a rebalancing that keeps the list keeps order and content.
* `Balanced t c n`: root colour `c`, black height `n`, no red node with a red
  child. `CtxBal C c n`: the context turns every balanced tree of colour `c`
  and height `n` into a balanced tree with a black root.
* `zoom key k C t`: the descent of a search for `k`.
-/

namespace Caver.Core

universe u v

/-! ## Trees and contexts -/

/-- The colour of a node. -/
inductive Color where
  | red
  | black
deriving DecidableEq, Repr

/-- Binary trees with coloured, labelled nodes. -/
inductive RedBlackTree (α : Type u) where
  | nil
  | node (c : Color) (l : RedBlackTree α) (x : α) (r : RedBlackTree α)
deriving Repr

/-- The two sides of a node. -/
inductive Side where
  | left
  | right
deriving DecidableEq, Repr

/-- The opposite side. -/
def Side.opp : Side → Side
  | .left => .right
  | .right => .left

@[simp] theorem Side.opp_left : Side.left.opp = .right := rfl
@[simp] theorem Side.opp_right : Side.right.opp = .left := rfl

/-- One step of a context: the node above the hole, the side the hole is on
and the subtree on the other side. -/
structure Frame (α : Type u) where
  side : Side
  color : Color
  label : α
  sib : RedBlackTree α

/-- A context, innermost frame first. -/
abbrev Ctx (α : Type u) := List (Frame α)

variable {α : Type u}

namespace RedBlackTree

/-- The node with `near` on side `d` and `far` on the other side. -/
def join (d : Side) (c : Color) (near : RedBlackTree α) (x : α) (far : RedBlackTree α) :
    RedBlackTree α :=
  match d with
  | .left => node c near x far
  | .right => node c far x near

@[simp] theorem join_left (c : Color) (near far : RedBlackTree α) (x : α) :
    join .left c near x far = node c near x far := rfl

@[simp] theorem join_right (c : Color) (near far : RedBlackTree α) (x : α) :
    join .right c near x far = node c far x near := rfl

/-- The labels in order. -/
def toList : RedBlackTree α → List α
  | nil => []
  | node _ l x r => l.toList ++ x :: r.toList

@[simp] theorem toList_nil : (nil : RedBlackTree α).toList = [] := rfl

@[simp] theorem toList_node (c : Color) (l r : RedBlackTree α) (x : α) :
    (node c l x r).toList = l.toList ++ x :: r.toList := rfl

/-- The tree with the labels changed by `f`. -/
def map {β : Type v} (f : α → β) : RedBlackTree α → RedBlackTree β
  | nil => nil
  | node c l x r => node c (l.map f) (f x) (r.map f)

theorem toList_map {β : Type v} (f : α → β) (t : RedBlackTree α) :
    (t.map f).toList = t.toList.map f := by
  induction t with
  | nil => rfl
  | node c l x r ihl ihr =>
    simp only [map, toList_node, ihl, ihr, List.map_append, List.map_cons]

/-- The colour of the root; the empty tree counts as black. -/
def color : RedBlackTree α → Color
  | nil => .black
  | node c _ _ _ => c

@[simp] theorem color_node (c : Color) (l r : RedBlackTree α) (x : α) :
    (node c l x r).color = c := rfl

@[simp] theorem color_join (d : Side) (c : Color) (near far : RedBlackTree α) (x : α) :
    (join d c near x far).color = c := by
  cases d <;> rfl

end RedBlackTree

open RedBlackTree

/-- The tree of a frame with `t` in the hole. -/
def Frame.fill (f : Frame α) (t : RedBlackTree α) : RedBlackTree α :=
  join f.side f.color t f.label f.sib

/-- The whole tree: the context with `t` in the hole. -/
def plug : Ctx α → RedBlackTree α → RedBlackTree α
  | [], t => t
  | f :: C, t => plug C (f.fill t)

@[simp] theorem plug_nil (t : RedBlackTree α) : plug [] t = t := rfl

@[simp] theorem plug_cons (f : Frame α) (C : Ctx α) (t : RedBlackTree α) :
    plug (f :: C) t = plug C (f.fill t) := rfl

theorem plug_append (D C : Ctx α) (t : RedBlackTree α) : plug (D ++ C) t = plug C (plug D t) := by
  induction D generalizing t with
  | nil => rfl
  | cons f D ih => exact ih (f.fill t)

/-- The labels left of the hole. -/
def before : Ctx α → List α
  | [] => []
  | f :: C => match f.side with
    | .left => before C
    | .right => before C ++ (f.sib.toList ++ [f.label])

/-- The labels right of the hole. -/
def after : Ctx α → List α
  | [] => []
  | f :: C => match f.side with
    | .left => f.label :: f.sib.toList ++ after C
    | .right => after C

@[simp] theorem before_nil : before ([] : Ctx α) = [] := rfl
@[simp] theorem after_nil : after ([] : Ctx α) = [] := rfl

theorem before_append (D C : Ctx α) : before (D ++ C) = before C ++ before D := by
  induction D with
  | nil => simp
  | cons f D ih => rcases f with ⟨d, c, x, s⟩; cases d <;> simp [before, ih]

theorem after_append (D C : Ctx α) : after (D ++ C) = after D ++ after C := by
  induction D with
  | nil => simp
  | cons f D ih => rcases f with ⟨d, c, x, s⟩; cases d <;> simp [after, ih]

/-- A node whose left subtree has the hole is on the right of it, and the other way round. -/
theorem label_mem {C : Ctx α} {f : Frame α} (h : f ∈ C) :
    (f.side = .left ∧ f.label ∈ after C) ∨ (f.side = .right ∧ f.label ∈ before C) := by
  induction C with
  | nil => cases h
  | cons g C ih =>
    rcases g with ⟨d, c, x, s⟩
    rcases List.mem_cons.mp h with rfl | h
    · cases d <;> simp [before, after]
    · rcases ih h with ⟨hf, hmem⟩ | ⟨hf, hmem⟩
      · cases d <;> simp [after, hf, hmem]
      · cases d <;> simp [before, hf, hmem]

/-- Labels outside the focus do not depend on it. -/
theorem map_plug_congr {β : Type v} {f : α → β} (C : Ctx α) {t t' : RedBlackTree α}
    (h : t.map f = t'.map f) : (plug C t).map f = (plug C t').map f := by
  induction C generalizing t t' with
  | nil => exact h
  | cons fr C ih =>
    refine ih ?_
    rcases fr with ⟨d, c, x, sib⟩
    cases d <;> simp only [Frame.fill, join_left, join_right, map, h]

/-- The in-order list splits at the focus. -/
theorem toList_plug (C : Ctx α) (t : RedBlackTree α) :
    (plug C t).toList = before C ++ t.toList ++ after C := by
  induction C generalizing t with
  | nil => simp
  | cons f C ih =>
    rcases f with ⟨d, c, x, s⟩
    rw [plug_cons, ih]
    cases d <;> simp [Frame.fill, before, after]

/-- Trees with equal lists stay interchangeable inside a context. -/
theorem toList_plug_focus (C : Ctx α) {t t' : RedBlackTree α} (h : t.toList = t'.toList) :
    (plug C t).toList = (plug C t').toList := by
  rw [toList_plug, toList_plug, h]

/-! ## Balance -/

/-- Root colour, black height, and no red node with a red child. -/
inductive Balanced : RedBlackTree α → Color → ℕ → Prop where
  | nil : Balanced .nil .black 0
  | red {l r : RedBlackTree α} {x : α} {n : ℕ} :
      Balanced l .black n → Balanced r .black n → Balanced (.node .red l x r) .red n
  | black {l r : RedBlackTree α} {x : α} {n : ℕ} {c₁ c₂ : Color} :
      Balanced l c₁ n → Balanced r c₂ n → Balanced (.node .black l x r) .black (n + 1)

theorem Balanced.color_eq {t : RedBlackTree α} {c : Color} {n : ℕ} (h : Balanced t c n) :
    t.color = c := by
  cases h <;> rfl

theorem Balanced.join_red {d : Side} {s t : RedBlackTree α} {x : α} {n : ℕ}
    (hs : Balanced s .black n) (ht : Balanced t .black n) :
    Balanced (RedBlackTree.join d .red s x t) .red n := by
  cases d
  · exact .red hs ht
  · exact .red ht hs

theorem Balanced.join_black {d : Side} {s t : RedBlackTree α} {x : α} {n : ℕ} {c₁ c₂ : Color}
    (hs : Balanced s c₁ n) (ht : Balanced t c₂ n) :
    Balanced (RedBlackTree.join d .black s x t) .black (n + 1) := by
  cases d
  · exact .black hs ht
  · exact .black ht hs

/-- A red tree is a node with two black children of its own height. -/
theorem Balanced.red_inv {t : RedBlackTree α} {n : ℕ} (h : Balanced t .red n) :
    ∃ l x r, t = .node .red l x r ∧ Balanced l .black n ∧ Balanced r .black n := by
  cases h with
  | red hl hr => exact ⟨_, _, _, rfl, hl, hr⟩

/-- A black tree of positive height is a node; its children are one lower. -/
theorem Balanced.black_inv {t : RedBlackTree α} {n : ℕ} (h : Balanced t .black (n + 1)) :
    ∃ l x r c₁ c₂, t = .node .black l x r ∧ Balanced l c₁ n ∧ Balanced r c₂ n := by
  cases h with
  | black hl hr => exact ⟨_, _, _, _, _, rfl, hl, hr⟩

/-- A red root may be painted black: the height grows by one. -/
theorem Balanced.blacken {l r : RedBlackTree α} {x : α} {c : Color} {n : ℕ}
    (h : Balanced (.node c l x r) c n) : ∃ m, Balanced (.node .black l x r) .black m := by
  cases h with
  | red hl hr => exact ⟨_, .black hl hr⟩
  | black hl hr => exact ⟨_, .black hl hr⟩

/-- A balanced node with an empty far subtree is a leaf's parent at most. -/
theorem Balanced.join_nil {d : Side} {t : RedBlackTree α} {x : α} {c c' : Color} {n : ℕ}
    (h : Balanced (RedBlackTree.join d c t x .nil) c' n) :
    c' = c ∧ (c = .red ∧ n = 0 ∧ Balanced t .black 0 ∨
      c = .black ∧ n = 1 ∧ ∃ ct, Balanced t ct 0) := by
  cases d with
  | left =>
    cases h with
    | red hl hr =>
      cases hr
      exact ⟨rfl, Or.inl ⟨rfl, rfl, hl⟩⟩
    | black hl hr =>
      cases hr
      exact ⟨rfl, Or.inr ⟨rfl, rfl, _, hl⟩⟩
  | right =>
    cases h with
    | red hl hr =>
      cases hl
      exact ⟨rfl, Or.inl ⟨rfl, rfl, hr⟩⟩
    | black hl hr =>
      cases hl
      exact ⟨rfl, Or.inr ⟨rfl, rfl, _, hr⟩⟩

/-- Balance does not depend on the labels. -/
theorem Balanced.relabel {l r : RedBlackTree α} {x : α} {c c' : Color} {n : ℕ}
    (h : Balanced (.node c l x r) c' n) (y : α) : Balanced (.node c l y r) c' n := by
  cases h with
  | red hl hr => exact .red hl hr
  | black hl hr => exact .black hl hr

/-- The context accepts balanced trees of colour `c` and height `n`, and the
whole tree then has a black root. -/
def CtxBal : Ctx α → Color → ℕ → Prop
  | [], c, _ => c = .black
  | f :: C, c, n => match f.color with
    | .red => c = .black ∧ Balanced f.sib .black n ∧ CtxBal C .red n
    | .black => (∃ c', Balanced f.sib c' n) ∧ CtxBal C .black (n + 1)

/-- A context that accepts a red tree accepts a black one. -/
theorem CtxBal.to_black {C : Ctx α} {c : Color} {n : ℕ} (h : CtxBal C c n) :
    CtxBal C .black n := by
  cases C with
  | nil => exact rfl
  | cons f C =>
    rcases f with ⟨d, fc, x, s⟩
    cases fc with
    | red => exact ⟨rfl, h.2⟩
    | black => exact h

/-- Only a context with a black frame next to the hole accepts a red tree. -/
theorem CtxBal.red_inv {C : Ctx α} {n : ℕ} (h : CtxBal C .red n) :
    ∃ d x s D c', C = ⟨d, .black, x, s⟩ :: D ∧ Balanced s c' n ∧ CtxBal D .black (n + 1) := by
  cases C with
  | nil => cases h
  | cons f C =>
    rcases f with ⟨d, fc, x, s⟩
    cases fc with
    | red => cases h.1
    | black =>
      rcases h with ⟨⟨c', hs⟩, hC⟩
      exact ⟨d, x, s, C, c', rfl, hs, hC⟩

/-- Filling an accepting context gives a balanced tree with a black root. -/
theorem CtxBal.plug {C : Ctx α} {t : RedBlackTree α} {c : Color} {n : ℕ}
    (hC : CtxBal C c n) (ht : Balanced t c n) : ∃ m, Balanced (plug C t) .black m := by
  induction C generalizing t c n with
  | nil =>
    cases hC
    exact ⟨n, ht⟩
  | cons f C ih =>
    rcases f with ⟨d, fc, x, s⟩
    cases fc with
    | red =>
      rcases hC with ⟨rfl, hs, hC⟩
      exact ih hC (Balanced.join_red ht hs)
    | black =>
      rcases hC with ⟨⟨c', hs⟩, hC⟩
      exact ih hC (Balanced.join_black ht hs)

/-- Every focus of a balanced tree with a black root sits in an accepting
context. -/
theorem Balanced.of_plug {C : Ctx α} {t : RedBlackTree α} {m : ℕ}
    (h : Balanced (plug C t) .black m) : ∃ c n, CtxBal C c n ∧ Balanced t c n := by
  induction C generalizing t with
  | nil => exact ⟨.black, m, rfl, h⟩
  | cons f C ih =>
    rcases ih h with ⟨c, n, hC, ht⟩
    rcases f with ⟨d, fc, x, s⟩
    cases d <;> cases ht with
    | red hl hr => exact ⟨.black, n, ⟨rfl, by assumption, hC⟩, by assumption⟩
    | black hl hr => exact ⟨_, _, ⟨⟨_, by assumption⟩, hC⟩, by assumption⟩

/-! ## The last label of a tree -/

/-- The descent to the last label: its context, and the node there. -/
def rightmost : Ctx α → RedBlackTree α → Ctx α × RedBlackTree α
  | C, .nil => (C, .nil)
  | C, .node c l x .nil => (C, .node c l x .nil)
  | C, .node c l x r => rightmost (⟨.right, c, x, l⟩ :: C) r

theorem plug_rightmost (C : Ctx α) (t : RedBlackTree α) :
    plug (rightmost C t).1 (rightmost C t).2 = plug C t := by
  induction C, t using rightmost.induct with
  | case1 C => rfl
  | case2 C c l x => rfl
  | case3 C c l x r hr ih =>
    rw [rightmost]
    · exact ih
    · exact hr

/-- The descent ends at a node without right child. -/
theorem rightmost_snd (C : Ctx α) {t : RedBlackTree α} (ht : t ≠ .nil) :
    ∃ c l x, (rightmost C t).2 = .node c l x .nil := by
  induction C, t using rightmost.induct with
  | case1 C => exact absurd rfl ht
  | case2 C c l x => exact ⟨c, l, x, rfl⟩
  | case3 C c l x r hr ih =>
    rw [rightmost]
    · exact ih hr
    · exact hr

/-- Nothing is passed on the right. -/
theorem after_rightmost (C : Ctx α) (t : RedBlackTree α) : after (rightmost C t).1 = after C := by
  induction C, t using rightmost.induct with
  | case1 C => rfl
  | case2 C c l x => rfl
  | case3 C c l x r hr ih =>
    rw [rightmost]
    · exact ih
    · exact hr

/-! ## Searching -/

section Search

variable {K : Type v} [LinearOrder K] (key : α → K)

/-- The descent of a search for `k`: the context of the place where it ends,
and the tree there (empty, or a node with key `k`). -/
def zoom (k : K) : Ctx α → RedBlackTree α → Ctx α × RedBlackTree α
  | C, .nil => (C, .nil)
  | C, .node c l x r =>
    if k < key x then zoom k (⟨.left, c, x, r⟩ :: C) l
    else if key x < k then zoom k (⟨.right, c, x, l⟩ :: C) r
    else (C, .node c l x r)

/-- Labels are strictly ordered by key. -/
def Sorted (l : List α) : Prop := l.Pairwise (fun x y => key x < key y)

/-- The two subtrees of a sorted tree, and where their labels are. -/
theorem Sorted.node {c : Color} {l r : RedBlackTree α} {y : α}
    (hs : Sorted key (RedBlackTree.node c l y r).toList) :
    Sorted key l.toList ∧ Sorted key r.toList ∧ (∀ x ∈ l.toList, key x < key y) ∧
      ∀ x ∈ r.toList, key y < key x := by
  simp only [Sorted, toList_node, List.pairwise_append, List.pairwise_cons, List.mem_cons,
    forall_eq_or_imp] at hs
  rcases hs with ⟨hl, ⟨hyr, hr⟩, hly⟩
  exact ⟨hl, hr, fun x hx => (hly x hx).1, hyr⟩

theorem Sorted.mem_cases {c : Color} {l r : RedBlackTree α} {x y : α}
    (hs : Sorted key (RedBlackTree.node c l y r).toList)
    (hx : x ∈ (RedBlackTree.node c l y r).toList) :
    (key x < key y ∧ x ∈ l.toList) ∨ x = y ∨ (key y < key x ∧ x ∈ r.toList) := by
  rcases hs.node with ⟨-, -, hl, hr⟩
  simp only [toList_node, List.mem_append, List.mem_cons] at hx
  rcases hx with hx | hx | hx
  · exact Or.inl ⟨hl x hx, hx⟩
  · exact Or.inr (Or.inl hx)
  · exact Or.inr (Or.inr ⟨hr x hx, hx⟩)

theorem plug_zoom (k : K) (C : Ctx α) (t : RedBlackTree α) :
    plug (zoom key k C t).1 (zoom key k C t).2 = plug C t := by
  induction t generalizing C with
  | nil => rfl
  | node c l x r ihl ihr =>
    simp only [zoom]
    split
    · exact ihl _
    · split
      · exact ihr _
      · rfl

/-- The search ends at a leaf or at the key it looks for. -/
theorem zoom_snd (k : K) (C : Ctx α) (t : RedBlackTree α) :
    (zoom key k C t).2 = .nil ∨
      ∃ c l x r, (zoom key k C t).2 = .node c l x r ∧ key x = k := by
  induction t generalizing C with
  | nil => exact Or.inl rfl
  | node c l x r ihl ihr =>
    simp only [zoom]
    split
    · exact ihl _
    · split
      · exact ihr _
      · next h₁ h₂ => exact Or.inr ⟨c, l, x, r, rfl, le_antisymm (not_lt.mp h₁) (not_lt.mp h₂)⟩

/-- The labels the search leaves on its left are smaller, those on its right
larger than the key. -/
theorem zoom_bounds {k : K} {C : Ctx α} {t : RedBlackTree α} (hs : Sorted key (plug C t).toList)
    (hb : ∀ x ∈ before C, key x < k) (ha : ∀ x ∈ after C, k < key x) :
    (∀ x ∈ before (zoom key k C t).1, key x < k) ∧
      (∀ x ∈ after (zoom key k C t).1, k < key x) := by
  induction t generalizing C with
  | nil => exact ⟨hb, ha⟩
  | node c l x r ihl ihr =>
    -- what is passed on the way is on the right side of the key, with its other subtree
    have hsplit := hs
    rw [toList_plug] at hsplit
    simp only [Sorted, toList_node, List.pairwise_append, List.pairwise_cons] at hsplit
    rcases hsplit with ⟨⟨-, ⟨-, ⟨hxr, -⟩, hlx⟩, -⟩, -⟩
    simp only [zoom]
    split
    · next hlt =>
      refine ihl (C := ⟨.left, c, x, r⟩ :: C) hs hb ?_
      intro y hy
      simp only [after, List.cons_append, List.mem_cons, List.mem_append] at hy
      rcases hy with rfl | hy | hy
      · exact hlt
      · exact hlt.trans (hxr y hy)
      · exact ha y hy
    · split
      · next hlt =>
        refine ihr (C := ⟨.right, c, x, l⟩ :: C) hs ?_ ha
        intro y hy
        simp only [before, List.mem_append, List.mem_singleton] at hy
        rcases hy with hy | hy | rfl
        · exact hb y hy
        · exact (hlx y hy x List.mem_cons_self).trans hlt
        · exact hlt
      · exact ⟨hb, ha⟩

end Search

end Caver.Core
