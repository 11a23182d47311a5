import Caver.Core.RedBlack

/-!
# Caver.Core.RedBlackRepair — insertion into a red-black tree, seen from the new node

What becomes of a tree in which a red focus has been put where a black one was
accepted: the repair climbs from the focus by recolouring, and ends with at
most one rotation, single or double.

* `repairRed C t`: the whole tree after the repair; it has the labels of
  `plug C t` (`toList_repairRed`) and is balanced (`balanced_repairRed`).
* `staying e C`: the frames of `C` that are still above the new node when the
  repair is done. It is read off the tree before the repair, and
  `repairRed_turns` is the theorem that it is right.
-/

namespace Caver.Core

universe u

variable {α : Type u}

open RedBlackTree

namespace RedBlackTree

/-- The tree with its root painted black. -/
def blacken : RedBlackTree α → RedBlackTree α
  | nil => nil
  | node _ l x r => node .black l x r

@[simp] theorem toList_blacken (t : RedBlackTree α) : t.blacken.toList = t.toList := by
  cases t <;> rfl

end RedBlackTree

/-! ## The repair -/

/-- The rotations at a focus below a red parent `f` and a grandparent `g`: a focus
on the outer side brings up its parent, one on the inner side comes up itself. -/
def rotateUp (f g : Frame α) : RedBlackTree α → RedBlackTree α
  | .nil => plug [f, g] .nil
  | .node c l x r =>
    if f.side = g.side then
      join g.side .black (.node c l x r) f.label (join g.side .red f.sib g.label g.sib)
    else match g.side with
      | .left => .node .black (.node .red f.sib f.label l) x (.node .red r g.label g.sib)
      | .right => .node .black (.node .red g.sib g.label l) x (.node .red r f.label f.sib)

/-- The whole tree after the repair of a red focus. -/
def repairRed : Ctx α → RedBlackTree α → RedBlackTree α
  | [], t => t.blacken
  | [f], t => plug [f] t
  | f :: g :: C, t =>
    match f.color with
    | .black => plug (f :: g :: C) t
    | .red =>
      match g.sib.color with
      | .black => plug C (rotateUp f g t)
      | .red => repairRed C
          (join g.side .red (join f.side .black t f.label f.sib) g.label g.sib.blacken)

theorem repairRed_black {f : Frame α} (h : f.color = .black) (C : Ctx α) (t : RedBlackTree α) :
    repairRed (f :: C) t = plug (f :: C) t := by
  cases C with
  | nil => rfl
  | cons g C => simp only [repairRed, h]

/-- Rotations keep the labels in order. -/
theorem toList_rotateUp (f g : Frame α) (t : RedBlackTree α) :
    (rotateUp f g t).toList = (plug [f, g] t).toList := by
  rcases f with ⟨d, fc, y, u⟩
  rcases g with ⟨e, gc, z, v⟩
  cases t with
  | nil => rfl
  | node c l x r => cases d <;> cases e <;> simp [rotateUp, Frame.fill]

/-- The repair keeps the labels in order. -/
theorem toList_repairRed (C : Ctx α) (t : RedBlackTree α) :
    (repairRed C t).toList = (plug C t).toList := by
  induction C, t using repairRed.induct with
  | case1 t => exact toList_blacken t
  | case2 f t => rfl
  | case3 f g C t hf => rw [repairRed_black hf]
  | case4 f g C t hf hg =>
    simp only [repairRed, hf, hg]
    rw [toList_plug_focus C (toList_rotateUp f g t), ← plug_append]
    rfl
  | case5 f g C t hf hg ih =>
    simp only [repairRed, hf, hg]
    rw [ih]
    -- only colours have changed
    refine toList_plug_focus C ?_
    rcases f with ⟨d, fc, y, u⟩
    rcases g with ⟨e, gc, z, v⟩
    cases d <;> cases e <;> simp [Frame.fill]

/-- A double or single rotation makes up for a red node below a red one. -/
theorem balanced_rotateUp {f g : Frame α} {t : RedBlackTree α} {n : ℕ} (ht : Balanced t .red n)
    (hf : Balanced f.sib .black n) (hg : Balanced g.sib .black n) :
    Balanced (rotateUp f g t) .black (n + 1) := by
  rcases f with ⟨d, fc, y, u⟩
  rcases g with ⟨e, gc, z, v⟩
  rcases ht.red_inv with ⟨l, x, r, rfl, hl, hr⟩
  simp only [rotateUp]
  split
  · exact Balanced.join_black ht (Balanced.join_red hf hg)
  · cases e
    · exact .black (.red hf hl) (.red hr hg)
    · exact .black (.red hg hl) (.red hr hf)

/-- The repair of a red focus where a black one of its height was accepted. -/
theorem balanced_repairRed {C : Ctx α} {t : RedBlackTree α} {n : ℕ} (hC : CtxBal C .black n)
    (ht : Balanced t .red n) : ∃ m, Balanced (repairRed C t) .black m := by
  induction C, t using repairRed.induct generalizing n with
  | case1 t =>
    rcases ht.red_inv with ⟨l, x, r, rfl, hl, hr⟩
    exact ⟨n + 1, .black hl hr⟩
  | case2 f t =>
    -- the root is black
    rcases f with ⟨d, fc, y, u⟩
    cases fc with
    | black => exact CtxBal.plug (C := [⟨d, .black, y, u⟩]) (c := .red) hC ht
    | red => cases hC.2.2
  | case3 f g C t hf =>
    rw [repairRed_black hf]
    rcases f with ⟨d, fc, y, u⟩
    cases hf
    exact CtxBal.plug (C := ⟨d, .black, y, u⟩ :: g :: C) (c := .red) hC ht
  | case4 f g C t hf hg =>
    simp only [repairRed, hf, hg]
    rcases f with ⟨d, fc, y, u⟩
    cases hf
    rcases hC with ⟨-, hu, hC⟩
    rcases hC.red_inv with ⟨e, z, v, D, cv, hgD, hv, hD⟩
    cases hgD
    obtain rfl : cv = .black := hv.color_eq.symm.trans hg
    exact CtxBal.plug hD (balanced_rotateUp ht hu hv)
  | case5 f g C t hf hg ih =>
    simp only [repairRed, hf, hg]
    rcases f with ⟨d, fc, y, u⟩
    cases hf
    rcases hC with ⟨-, hu, hC⟩
    rcases hC.red_inv with ⟨e, z, v, D, cv, hgD, hv, hD⟩
    cases hgD
    obtain rfl : cv = .red := hv.color_eq.symm.trans hg
    rcases hv.red_inv with ⟨vl, w, vr, rfl, hvl, hvr⟩
    -- the grandparent is a red focus that is one higher
    exact ih hD (Balanced.join_red (Balanced.join_black ht hu) (.black hvl hvr))

/-! ## What stays above the new node -/

/-- The node of a frame and the side that the hole is on. -/
def Frame.turn (f : Frame α) : Side × α := (f.side, f.label)

/-- Of a parent `f` and a grandparent `g`, what is above a new node after the
rotations: the new node is the focus (`none`), or below it on the given side. -/
def stayingUp (e : Option Side) (f g : Frame α) : Ctx α :=
  if f.side = g.side then [f]
  else match e with
    -- the new node itself comes up
    | none => []
    -- the focus comes up, and what is on its sides goes to the two others
    | some e => if e = g.side then [f] else [g]

/-- The frames that are above a new node after the repair: recolouring moves
nothing, and at most one node is taken out of the way by a single rotation. -/
def staying : Option Side → Ctx α → Ctx α
  | _, [] => []
  | _, [f] => [f]
  | e, f :: g :: C =>
    match f.color with
    | .black => f :: g :: C
    | .red =>
      match g.sib.color with
      | .black => stayingUp e f g ++ C
      | .red => f :: g :: staying (some g.side) C

theorem stayingUp_sublist (e : Option Side) (f g : Frame α) :
    (stayingUp e f g).Sublist [f, g] := by
  unfold stayingUp
  split
  · simp
  · cases e with
    | none => simp
    | some e =>
      dsimp only
      split <;> simp

theorem staying_sublist (e : Option Side) (C : Ctx α) : (staying e C).Sublist C := by
  induction e, C using staying.induct with
  | case1 => exact List.Sublist.refl _
  | case2 => exact List.Sublist.refl _
  | case3 e f g C hf =>
    simp only [staying, hf]
    exact List.Sublist.refl _
  | case4 e f g C hf hg =>
    simp only [staying, hf, hg]
    exact (stayingUp_sublist e f g).append_right C
  | case5 e f g C hf hg ih =>
    simp only [staying, hf, hg]
    exact (ih.cons_cons g).cons_cons f

/-- A context with a node in the hole is a node. -/
theorem exists_node_plug (D : Ctx α) (c : Color) (l r : RedBlackTree α) (x : α) :
    ∃ c' l' y r', plug D (.node c l x r) = .node c' l' y r' := by
  rcases List.eq_nil_or_concat D with rfl | ⟨D, ⟨d, hc, y, s⟩, rfl⟩
  · exact ⟨c, l, x, r, rfl⟩
  · rw [List.concat_eq_append, plug_append]
    cases d
    · exact ⟨hc, _, y, s, rfl⟩
    · exact ⟨hc, s, y, _, rfl⟩

/-- Painting the root moves nothing. -/
theorem blacken_turns (D : Ctx α) (c : Color) (l r : RedBlackTree α) (x : α) :
    ∃ D' c', (plug D (.node c l x r)).blacken = plug D' (.node c' l x r) ∧
      D'.map Frame.turn = D.map Frame.turn := by
  rcases List.eq_nil_or_concat D with rfl | ⟨D, h, rfl⟩
  · exact ⟨[], .black, rfl, rfl⟩
  · refine ⟨D ++ [⟨h.side, .black, h.label, h.sib⟩], c, ?_, by simp [Frame.turn]⟩
    rcases h with ⟨d, hc, y, s⟩
    cases d <;> simp [plug_append, Frame.fill, blacken]

/-- What is above a label of the focus after the rotations. -/
theorem rotateUp_turns (f g : Frame α) (D : Ctx α) (c : Color) (l r : RedBlackTree α) (x : α) :
    ∃ D' c' l' r', rotateUp f g (plug D (.node c l x r)) = plug D' (.node c' l' x r') ∧
      (D'.map Frame.turn).Perm
        ((D ++ stayingUp (D.getLast?.map Frame.side) f g).map Frame.turn) := by
  rcases f with ⟨d, fc, y, u⟩
  rcases g with ⟨e, gc, z, v⟩
  by_cases hside : d = e
  · -- the parent comes up with the whole focus below it
    subst hside
    refine ⟨D ++ [⟨d, .black, y, join d .red u z v⟩], c, l, r, ?_, ?_⟩
    · rcases exists_node_plug D c l r x with ⟨c', l', y', r', ht⟩
      rw [plug_append, ht]
      cases d <;> simp [rotateUp, Frame.fill]
    · simp [stayingUp, Frame.turn]
  rcases List.eq_nil_or_concat D with rfl | ⟨D, h, rfl⟩
  · -- the label itself comes up
    refine ⟨[], .black, ?_⟩
    cases d <;> cases e <;> simp [rotateUp, stayingUp] at hside ⊢
  -- the root of the focus comes up
  rcases h with ⟨i, hc, w, s⟩
  have hlast : (D.concat ⟨i, hc, w, s⟩).getLast?.map Frame.side = some i := by simp
  rw [hlast, List.concat_eq_append, plug_append]
  by_cases hi : i = e
  · subst hi
    refine ⟨D ++ [⟨d, .red, y, u⟩, ⟨i, .black, w, join i .red s z v⟩], c, l, r, ?_, ?_⟩
    · rw [plug_append]
      cases d <;> cases i <;> simp [rotateUp, Frame.fill] at hside ⊢
    · simp only [stayingUp, if_neg hside, if_true, List.append_assoc, List.map_append]
      exact (List.Perm.swap _ _ _).append_left _
  · obtain rfl : i = d := by
      cases d <;> cases e <;> cases i <;> simp at hside hi ⊢
    refine ⟨D ++ [⟨e, .red, z, v⟩, ⟨i, .black, w, join i .red s y u⟩], c, l, r, ?_, ?_⟩
    · rw [plug_append]
      cases i <;> cases e <;> simp [rotateUp, Frame.fill] at hside ⊢
    · simp only [stayingUp, if_neg hside, List.append_assoc, List.map_append]
      exact (List.Perm.swap _ _ _).append_left _

/-- The nodes above a label in the whole tree after the repair: those within the
focus, and those that stay. -/
theorem repairRed_turns (C D : Ctx α) (c : Color) (l r : RedBlackTree α) (x : α) :
    ∃ D' c' l' r', repairRed C (plug D (.node c l x r)) = plug D' (.node c' l' x r') ∧
      (D'.map Frame.turn).Perm ((D ++ staying (D.getLast?.map Frame.side) C).map Frame.turn) := by
  generalize ht : plug D (.node c l x r) = t
  induction C, t using repairRed.induct generalizing D with
  | case1 t =>
    subst ht
    rcases blacken_turns D c l r x with ⟨D', c', htree, hturns⟩
    exact ⟨D', c', l, r, htree, List.Perm.of_eq (by simp [staying, hturns])⟩
  | case2 f t =>
    subst ht
    refine ⟨D ++ [f], c, l, r, ?_, List.Perm.refl _⟩
    rw [plug_append]
    rfl
  | case3 f g C t hf =>
    subst ht
    refine ⟨D ++ f :: g :: C, c, l, r, ?_, ?_⟩
    · rw [repairRed_black hf, plug_append]
    · simp only [staying, hf]
      exact List.Perm.refl _
  -- the sibling of the parent is black: a rotation ends the repair
  | case4 f g C t hf hg =>
    subst ht
    simp only [repairRed, staying, hf, hg]
    rcases rotateUp_turns f g D c l r x with ⟨D', c', l', r', htree, hperm⟩
    refine ⟨D' ++ C, c', l', r', ?_, ?_⟩
    · rw [htree, plug_append]
    · rw [← List.append_assoc, List.map_append, List.map_append]
      exact hperm.append_right _
  -- it is red: colors are changed, and the repair goes on two levels up
  | case5 f g C t hf hg ih =>
    subst ht
    simp only [repairRed, staying, hf, hg]
    have hfocus : plug (D ++ [⟨f.side, .black, f.label, f.sib⟩,
        ⟨g.side, .red, g.label, g.sib.blacken⟩]) (.node c l x r) =
          join g.side .red (join f.side .black (plug D (.node c l x r)) f.label f.sib) g.label
            g.sib.blacken := by
      rw [plug_append]
      rfl
    rcases ih _ hfocus with ⟨D', c', l', r', htree, hperm⟩
    refine ⟨D', c', l', r', htree, hperm.trans (List.Perm.of_eq ?_)⟩
    simp [Frame.turn]

end Caver.Core
