import Caver.Core.RedBlackRepair
import Caver.Runtime.RbTreeRep

/-!
# Caver.Runtime.RbTreeBalance — the rebalancing cases

What `insert_case1` to `insert_case5` and `delete_case1` to `delete_case6`
do to a stored tree. Both climb from a focus towards the root.

* Insertion: the focus is red, and its context accepts a black tree of its
  height. At the end the whole tree is `repairRed` of the two
  (`insertCase1_spec`), which is balanced.
* Deletion: the context accepts a black tree that is one higher than what
  remains of the focus. At the end the context accepts the remainder, red or
  black, and the focus itself has not been touched (`deleteCase1_spec`).

Neither changes the labels to the left or to the right of the focus.
-/

namespace Caver.Runtime

open Caver.Core Caver.Core.RedBlackTree

variable {s : RbTree} {C : Ctx Cell} {t l r u v : RedBlackTree Cell} {x y z : Cell} {c : Color}
  {d : Side} {n : ℕ}

/-! ## Insertion -/

/-- The state stores a balanced tree with a black root and these labels. -/
def Settled (s : RbTree) (cells : List Cell) : Prop :=
  ∃ T, Holds s [] T ∧ (∃ m, Balanced T .black m) ∧ T.toList = cells

theorem join_opp (d : Side) (c : Color) (near far : RedBlackTree Cell) (x : Cell) :
    join d.opp c near x far = join d c far x near := by
  cases d <;> rfl

/-- `insert_case5`: the grandparent's rotation away from the focus. -/
theorem insertCase5_spec {Q : Unit → RbTree → Prop}
    (hs : Holds s (⟨d, .red, y, u⟩ :: ⟨d, .black, z, v⟩ :: C) (node c l x r))
    (hQ : ∀ s', Holds s' C (join d .black (node c l x r) y (join d .red u z v)) → Q () s') :
    wp (insertCase5 (some x.ptr)) Q s := by
  simp only [insertCase5, wp_bind, wp_eval hs.parent, up_cons]
  refine hs.set_color_up _ ?_
  intro s hs
  simp only [wp_eval hs.grandparent, up_cons]
  refine hs.set_color_up_up _ ?_
  intro s hs
  have hrot : Holds s C (join d.opp .red v z (join d.opp .black u y (node c l x r))) := by
    rw [join_opp, join_opp]
    exact holds_cons.mp (holds_cons.mp hs)
  have hend : wp (rotate d.opp (some z.ptr)) Q s := by
    refine hrot.rotate fun s' hs' => hQ s' ?_
    rwa [join_opp, join_opp] at hs'
  simp only [andAlso, wp_bind, wp_ite, wp_pure, wp_eval hs.isLeft, wp_eval hs.parentIsLeft,
    wp_eval hs.grandparent, up_cons]
  cases d
  · simpa [rotateRight] using hend
  · simpa [rotateLeft] using hend

/-- `insert_case4`: a focus on the inner side is first rotated to the outer. -/
theorem insertCase4_spec {e : Side} {Q : Unit → RbTree → Prop}
    (hs : Holds s (⟨e, .red, y, u⟩ :: ⟨d, .black, z, v⟩ :: C) (node .red l x r))
    (hQ : ∀ s', Holds s' C (rotateUp ⟨e, .red, y, u⟩ ⟨d, .black, z, v⟩ (node .red l x r)) →
      Q () s') :
    wp (insertCase4 (some x.ptr)) Q s := by
  -- the two tests of the source, for a left and for a right parent
  have htest : wp (insertCase4 (some x.ptr)) Q s ↔
      if e = d.opp then
        wp (do
          rotate d (some y.ptr)
          insertCase5 ((← load (some x.ptr)).child d)) Q s
      else wp (insertCase5 (some x.ptr)) Q s := by
    simp only [insertCase4, andAlso, wp_bind, wp_ite, wp_pure, wp_eval hs.isLeft,
      wp_eval hs.isRight, wp_eval hs.parentIsLeft, wp_eval hs.parentIsRight, wp_eval hs.parent]
    cases d <;> cases e <;> simp [rotateLeft, rotateRight, Node.child]
  rw [htest]
  split
  -- the inner grandchild comes up, and its parent is the new focus
  case isTrue he =>
    subst he
    obtain ⟨near, far, hxt⟩ : ∃ near far, node .red l x r = join d .red near x far := by
      cases d
      · exact ⟨l, r, rfl⟩
      · exact ⟨r, l, rfl⟩
    rw [hxt] at hs hQ
    simp only [wp_bind]
    refine Holds.rotate (x := y) (y := x) (a := u) (b := near) (e := far) (j := .red)
      (k := .red) (by simpa [Frame.fill, join_opp] using holds_cons.mp hs) fun s hs => ?_
    have hload := load_some hs.get_join
    have hup := (holds_cons (f := ⟨d, .red, x, far⟩)).mpr hs
    simp only [wp_eval hload, Cell.child_node, ref_join]
    cases d
    · exact insertCase5_spec hup hQ
    · exact insertCase5_spec hup hQ
  -- the focus is the outer grandchild already
  case isFalse he =>
    have hed : e = d := by
      cases d <;> cases e <;> first | rfl | exact absurd rfl he
    subst hed
    refine insertCase5_spec hs fun s' hs' => hQ s' ?_
    rw [rotateUp, if_pos rfl]
    exact hs'

/-- `insert_case1` repairs the tree from a red focus on. -/
theorem insertCase1_spec (fuel : ℕ) (hs : Holds s C (node .red l x r)) (hC : CtxBal C .black n)
    (hfuel : C.length < fuel) :
    wp (insertCase1 fuel (some x.ptr))
      (fun _ s' => Holds s' [] (repairRed C (node .red l x r))) s := by
  induction fuel generalizing s C l x r n with
  | zero => omega
  | succ fuel ih =>
    simp only [insertCase1, wp_bind, wp_ite, wp_eval hs.parent]
    rcases C with - | ⟨f, C⟩
    · -- case 1: the focus is the root
      simp only [up_nil, if_true]
      exact hs.set_color _ fun s' hs' => hs'
    simp only [up_cons, reduceCtorEq, if_false, insertCase2, wp_bind, wp_ite, wp_eval hs.parent,
      wp_eval hs.nodeColor_up, wp_pure]
    rcases f with ⟨e, fc, y, u⟩
    cases fc with
    | black =>
      -- case 2: a black parent accepts a red child
      simp only [if_true]
      rw [repairRed_black rfl]
      exact holds_root.mp hs
    | red =>
      rcases hC with ⟨-, hu, hC⟩
      rcases hC.red_inv with ⟨d, z, v, D, cv, rfl, hv, hD⟩
      simp only [reduceCtorEq, if_false, insertCase3, wp_bind, wp_ite, wp_eval hs.uncle,
        wp_eval (holds_cons.mp hs).rep_sib.nodeColor]
      cases cv with
      | black =>
        simp only [hv.color_eq, reduceCtorEq, if_false, repairRed]
        exact insertCase4_spec hs fun s' hs' => holds_root.mp hs'
      | red =>
        -- case 3: red parent and uncle are blackened, the grandparent becomes the focus
        rcases hv.red_inv with ⟨vl, w, vr, rfl, hvl, hvr⟩
        simp only [color_node, if_true, wp_eval hs.parent, up_cons]
        refine hs.set_color_up .black ?_
        intro s hs
        simp only [wp_eval hs.uncle, ref_node]
        refine (holds_cons.mp hs).set_color_sib (a := .left) .black ?_
        intro s hs'
        have hs := holds_cons.mpr hs'
        simp only [wp_eval hs.grandparent, up_cons]
        refine hs.set_color_up_up .red ?_
        intro s hs
        have hfocus := holds_cons.mp (holds_cons.mp hs)
        have hlen : D.length < fuel := by
          simp only [List.length_cons] at hfuel
          omega
        simp only [wp_eval hs.grandparent, up_cons, repairRed, color_node, blacken]
        cases d
        · exact ih hfocus hD hlen
        · exact ih hfocus hD hlen

/-! ## Deletion -/

/-- The context accepts trees of height `n`, red or black; a red root is left
to the caller. -/
def AcceptsAny (C : Ctx Cell) (n : ℕ) : Prop :=
  C = [] ∨ ∃ f D, C = f :: D ∧ f.color = .black ∧ (∃ c, Balanced f.sib c n) ∧
    CtxBal D .black (n + 1)

theorem AcceptsAny.ctxBal (h : AcceptsAny C n) : CtxBal C .black n := by
  rcases h with rfl | ⟨⟨d, fc, y, u⟩, D, rfl, rfl, hu, hD⟩
  · exact rfl
  · exact ⟨hu, hD⟩

theorem AcceptsAny.ctxBal_or (h : AcceptsAny C n) (c : Color) : CtxBal C c n ∨ C = [] := by
  rcases h with rfl | ⟨⟨d, fc, y, u⟩, D, rfl, rfl, hu, hD⟩
  · exact Or.inr rfl
  · exact Or.inl ⟨hu, hD⟩

/-- The focus `t` is still there, in a context that accepts less than before
and has the same labels. -/
def Repaired (s : RbTree) (C : Ctx Cell) (t : RedBlackTree Cell) (n : ℕ) : Prop :=
  ∃ C', Holds s C' t ∧ AcceptsAny C' n ∧ before C' = before C ∧ after C' = after C

/-- A black tree may take the place of the one beside the focus. -/
theorem ctxBal_sib {D : Ctx Cell} {e : Side} (h : CtxBal (⟨d, c, y, u⟩ :: D) .black n)
    (hv : Balanced v .black n) : CtxBal (⟨e, c, z, v⟩ :: D) .black n := by
  cases c with
  | red => exact ⟨rfl, hv, h.2.2⟩
  | black => exact ⟨⟨_, hv⟩, h.2⟩

/-- `delete_case6`: the far nephew is red. -/
theorem deleteCase6_spec {near far : RedBlackTree Cell} {w : Cell} {e cn : Color}
    (hs : Holds s (⟨d, e, y, join d .black near w far⟩ :: C) (node c l x r))
    (hC : CtxBal (⟨d, e, y, join d .black near w far⟩ :: C) .black (n + 1))
    (hnear : Balanced near cn n) (hfar : Balanced far .red n) :
    wp (deleteCase6 (some x.ptr))
      (fun _ s' => Repaired s' (⟨d, e, y, join d .black near w far⟩ :: C) (node c l x r) n) s := by
  rcases hfar.red_inv with ⟨fl, q, fr, rfl, hfl, hfr⟩
  simp only [deleteCase6, wp_bind, wp_eval hs.parent, up_cons, wp_eval hs.nodeColor_up,
    wp_eval hs.sibling, ref_join]
  -- the sibling takes the parent's colour, and the parent is black
  refine hs.set_color_sib _ ?_
  intro s hs
  simp only [wp_eval hs.parent, up_cons]
  refine hs.set_color_up .black ?_
  intro s hs
  -- the far nephew is blackened and the sibling comes up
  have hend : wp (do
      store (some q.ptr) fun nd => { nd with color := .black }
      rotate d (← parent (some x.ptr)))
      (fun _ s' => Repaired s' (⟨d, e, y, join d .black near w (node .red fl q fr)⟩ :: C)
        (node c l x r) n) s := by
    rw [← join_opp] at hs
    simp only [wp_bind]
    refine hs.set_color_nephew (k := .left) .black ?_
    intro s hs
    rw [join_opp] at hs
    simp only [wp_eval hs.parent, up_cons]
    refine Holds.rotate (holds_cons.mp hs) ?_
    intro s' hs'
    have hfocus := (holds_cons (f := ⟨d, .black, y, near⟩)).mpr
      ((holds_cons (f := ⟨d, e, w, node .black fl q fr⟩)).mpr hs')
    refine ⟨_, hfocus, Or.inr ⟨_, _, rfl, rfl, ⟨_, hnear⟩, ?_⟩, ?_, ?_⟩
    · exact ctxBal_sib hC (.black hfl hfr)
    · cases d <;> simp [before]
    · cases d <;> simp [after]
  simp only [wp_bind] at hend
  simp only [wp_ite, wp_bind, wp_eval hs.isLeft]
  cases d
  · simpa [wp_eval hs.siblingRight, rotateLeft] using hend
  · simpa [wp_eval hs.siblingLeft, rotateRight] using hend

/-- The two tests of `delete_case5`: whether the near nephew alone is red, for
a left and for a right focus. -/
theorem case5_tests {near far : RedBlackTree Cell} {w : Cell} {e : Color}
    (hs : Holds s (⟨d, e, y, join d .black near w far⟩ :: C) (node c l x r)) :
    andAlso (isLeft (some x.ptr)) (andAlso (hasColor (sibling (some x.ptr)) .black)
        (andAlso (hasColor (siblingLeft (some x.ptr)) .red)
          (hasColor (siblingRight (some x.ptr)) .black))) s =
      some (decide (d = .left ∧ near.color = .red ∧ far.color = .black), s) ∧
    andAlso (isRight (some x.ptr)) (andAlso (hasColor (sibling (some x.ptr)) .black)
        (andAlso (hasColor (siblingRight (some x.ptr)) .red)
          (hasColor (siblingLeft (some x.ptr)) .black))) s =
      some (decide (d = .right ∧ near.color = .red ∧ far.color = .black), s) := by
  cases d
  · have h₁ := andAlso_eval hs.isLeft (andAlso_eval (hs.hasColor_sibling .black)
      (andAlso_eval (hs.hasColor_siblingLeft .red) (hs.hasColor_siblingRight .black)))
    have h₂ := andAlso_eval hs.isRight (andAlso_eval (hs.hasColor_sibling .black)
      (andAlso_eval (hs.hasColor_siblingRight .red) (hs.hasColor_siblingLeft .black)))
    rw [h₁, h₂]
    simp
  · have h₁ := andAlso_eval hs.isLeft (andAlso_eval (hs.hasColor_sibling .black)
      (andAlso_eval (hs.hasColor_siblingLeft .red) (hs.hasColor_siblingRight .black)))
    have h₂ := andAlso_eval hs.isRight (andAlso_eval (hs.hasColor_sibling .black)
      (andAlso_eval (hs.hasColor_siblingRight .red) (hs.hasColor_siblingLeft .black)))
    rw [h₁, h₂]
    simp

/-- `delete_case5`: a red near nephew is first rotated to the far side. -/
theorem deleteCase5_spec {near far : RedBlackTree Cell} {w : Cell} {e c₁ c₂ : Color}
    (hs : Holds s (⟨d, e, y, join d .black near w far⟩ :: C) (node c l x r))
    (hC : CtxBal (⟨d, e, y, join d .black near w far⟩ :: C) .black (n + 1))
    (hnear : Balanced near c₁ n) (hfar : Balanced far c₂ n) (hred : c₁ = .red ∨ c₂ = .red) :
    wp (deleteCase5 (some x.ptr))
      (fun _ s' => Repaired s' (⟨d, e, y, join d .black near w far⟩ :: C) (node c l x r) n) s := by
  rcases case5_tests hs with ⟨h₁, h₂⟩
  simp only [deleteCase5, wp_bind, wp_ite, wp_eval h₁, wp_eval h₂, hnear.color_eq, hfar.color_eq]
  cases c₂ with
  -- the far nephew is red, there is nothing to rotate
  | red => simpa using deleteCase6_spec hs hC hnear hfar
  | black =>
    obtain rfl : c₁ = .red := by simpa using hred
    obtain ⟨n₁, q, n₂, rfl, hn₁, hn₂⟩ : ∃ n₁ q n₂, near = join d .red n₁ q n₂ ∧
        Balanced n₁ .black n ∧ Balanced n₂ .black n := by
      rcases hnear.red_inv with ⟨nl, q, nr, rfl, hnl, hnr⟩
      cases d
      · exact ⟨nl, q, nr, rfl, hnl, hnr⟩
      · exact ⟨nr, q, nl, rfl, hnr, hnl⟩
    -- after the sibling is red: the near nephew comes up and is the new sibling
    have hstep : ∀ s, Holds s (⟨d, e, y, join d .red (join d .red n₁ q n₂) w far⟩ :: C)
        (node c l x r) → wp (do
        store (some q.ptr) fun nd => { nd with color := .black }
        rotate d.opp (← sibling (some x.ptr))
        deleteCase6 (some x.ptr))
        (fun _ s' => Repaired s' (⟨d, e, y, join d .black (join d .red n₁ q n₂) w far⟩ :: C)
          (node c l x r) n) s := by
      intro s hs
      simp only [wp_bind]
      refine hs.set_color_nephew .black ?_
      intro s hs
      have hsib : Holds s (⟨d.opp, e, y, node c l x r⟩ :: C)
          (join d.opp .red far w (join d.opp .black n₂ q n₁)) := by
        rw [join_opp, join_opp]
        exact holds_swap.mp hs
      simp only [wp_eval hs.sibling, ref_join]
      refine hsib.rotate ?_
      intro s hs
      rw [join_opp, join_opp] at hs
      -- the new sibling has a red far child
      have hC' := ctxBal_sib (e := d) (z := y) hC
        (Balanced.join_black (d := d) (x := q) hn₁ (Balanced.join_red (d := d) (x := w) hn₂ hfar))
      refine (deleteCase6_spec (holds_swap.mpr hs) hC' hn₁ (.join_red hn₂ hfar)).mono ?_
      rintro - s' ⟨C', hs', hC', hb, ha⟩
      refine ⟨C', hs', hC', hb.trans ?_, ha.trans ?_⟩
      · cases d <;> simp [before]
      · cases d <;> simp [after]
    simp only [wp_bind] at hstep
    cases d
    · simp only [and_self, decide_true, if_true, wp_eval hs.sibling, ref_join]
      refine hs.set_color_sib (a := .left) .red ?_
      intro s hs
      simpa [wp_eval hs.siblingLeft, rotateRight] using hstep s hs
    · simp only [reduceCtorEq, false_and, decide_false, Bool.false_eq_true, if_false, and_self,
        decide_true, if_true, wp_eval hs.sibling, ref_join]
      refine hs.set_color_sib (a := .right) .red ?_
      intro s hs
      simpa [wp_eval hs.siblingRight, rotateLeft] using hstep s hs

/-- The test of `delete_case3` and, with `k` red, of `delete_case4`. -/
theorem case34_test {near far : RedBlackTree Cell} {w : Cell} {e : Color}
    (hs : Holds s (⟨d, e, y, join d .black near w far⟩ :: C) (node c l x r)) (k : Color) :
    andAlso (hasColor (parent (some x.ptr)) k) (andAlso (hasColor (sibling (some x.ptr)) .black)
        (andAlso (hasColor (siblingLeft (some x.ptr)) .black)
          (hasColor (siblingRight (some x.ptr)) .black))) s =
      some (decide (e = k ∧ near.color = .black ∧ far.color = .black), s) := by
  cases d
  · have h := andAlso_eval (hs.hasColor_parent k) (andAlso_eval (hs.hasColor_sibling .black)
      (andAlso_eval (hs.hasColor_siblingLeft .black) (hs.hasColor_siblingRight .black)))
    rw [h]
    simp
  · have h := andAlso_eval (hs.hasColor_parent k) (andAlso_eval (hs.hasColor_sibling .black)
      (andAlso_eval (hs.hasColor_siblingLeft .black) (hs.hasColor_siblingRight .black)))
    rw [h]
    simp [Bool.and_comm]

/-- `delete_case3` and `delete_case4`, beside a black node. In case 3 the
deficit moves up to the parent, which `case1` has to repair. -/
theorem deleteCase3_spec {case1 : Ref → M Unit} {e : Color}
    (hs : Holds s (⟨d, e, y, v⟩ :: C) (node c l x r))
    (hC : CtxBal (⟨d, e, y, v⟩ :: C) .black (n + 1)) (hv : Balanced v .black (n + 1))
    (hcase1 : e = .black → ∀ s t, Holds s C t → ref t = some y.ptr →
      wp (case1 (some y.ptr)) (fun _ s' => Repaired s' C t (n + 1)) s) :
    wp (deleteCase3 case1 (some x.ptr))
      (fun _ s' => Repaired s' (⟨d, e, y, v⟩ :: C) (node c l x r) n) s := by
  obtain ⟨near, w, far, c₁, c₂, rfl, hnear, hfar⟩ : ∃ near w far c₁ c₂,
      v = join d .black near w far ∧ Balanced near c₁ n ∧ Balanced far c₂ n := by
    rcases hv.black_inv with ⟨vl, w, vr, c₁, c₂, rfl, h₁, h₂⟩
    cases d
    · exact ⟨vl, w, vr, c₁, c₂, rfl, h₁, h₂⟩
    · exact ⟨vr, w, vl, c₂, c₁, rfl, h₂, h₁⟩
  simp only [deleteCase3, deleteCase4, wp_bind, wp_ite, wp_eval (case34_test hs _),
    hnear.color_eq, hfar.color_eq]
  by_cases hblack : c₁ = .black ∧ c₂ = .black
  · rcases hblack with ⟨rfl, rfl⟩
    -- a red sibling makes up for the deficit on its side
    have hred : Balanced (join d .red near w far) .red n := Balanced.join_red hnear hfar
    cases e with
    -- case 3: below the parent all is one too low
    | black =>
      simp only [and_self, decide_true, if_true, wp_eval hs.sibling, ref_join]
      refine hs.set_color_sib .red ?_
      intro s hs
      simp only [wp_eval hs.parent, up_cons]
      refine (hcase1 rfl s _ (holds_cons.mp hs) (by simp [Frame.fill])).mono ?_
      rintro - s' ⟨D, hs', hD, hb, ha⟩
      refine ⟨_, holds_cons.mpr hs', Or.inr ⟨_, _, rfl, rfl, ⟨_, hred⟩, hD.ctxBal⟩, ?_, ?_⟩
      · cases d <;> simp [before, hb]
      · cases d <;> simp [after, ha]
    -- case 4: a black parent makes up for both sides
    | red =>
      simp only [reduceCtorEq, false_and, and_self, decide_false, decide_true,
        Bool.false_eq_true, if_false, if_true, wp_eval hs.sibling, ref_join]
      refine hs.set_color_sib .red ?_
      intro s hs
      simp only [wp_eval hs.parent, up_cons]
      refine hs.set_color_up .black ?_
      intro s' hs'
      refine ⟨_, hs', Or.inr ⟨_, _, rfl, rfl, ⟨_, hred⟩, hC.2.2.to_black⟩, ?_, ?_⟩
      · cases d <;> simp [before]
      · cases d <;> simp [after]
  · have hred : c₁ = .red ∨ c₂ = .red := by
      cases c₁ <;> cases c₂ <;> simp_all
    simp only [hblack, and_false, decide_false, Bool.false_eq_true, if_false]
    exact deleteCase5_spec hs hC hnear hfar hred

/-- `delete_case2`: a red node beside the focus is first rotated up. -/
theorem deleteCase2_spec {case1 : Ref → M Unit} {f : Frame Cell}
    (hs : Holds s (f :: C) (node c l x r)) (hC : CtxBal (f :: C) .black (n + 1))
    (hcase1 : CtxBal C .black (n + 2) → ∀ s t, Holds s C t → ref t = some f.label.ptr →
      wp (case1 (some f.label.ptr)) (fun _ s' => Repaired s' C t (n + 1)) s) :
    wp (deleteCase2 case1 (some x.ptr))
      (fun _ s' => Repaired s' (f :: C) (node c l x r) n) s := by
  rcases f with ⟨d, e, y, v⟩
  simp only [deleteCase2, wp_bind, wp_ite, wp_eval hs.sibling, wp_eval hs.rep_sib.nodeColor]
  obtain ⟨cv, hv⟩ : ∃ cv, Balanced v cv (n + 1) := by
    cases e with
    | red => exact ⟨_, hC.2.1⟩
    | black => exact hC.1
  cases cv with
  | black =>
    simp only [hv.color_eq, reduceCtorEq, if_false]
    refine deleteCase3_spec hs hC hv fun he => hcase1 ?_
    subst he
    exact hC.2
  | red =>
    cases e with
    -- a red node has no red child
    | red => cases hv.color_eq.symm.trans hC.2.1.color_eq
    | black =>
      obtain ⟨near, w, far, rfl, hnear, hfar⟩ : ∃ near w far, v = join d .red near w far ∧
          Balanced near .black (n + 1) ∧ Balanced far .black (n + 1) := by
        rcases hv.red_inv with ⟨vl, w, vr, rfl, h₁, h₂⟩
        cases d
        · exact ⟨vl, w, vr, rfl, h₁, h₂⟩
        · exact ⟨vr, w, vl, rfl, h₂, h₁⟩
      simp only [color_join, if_true, wp_eval hs.parent, up_cons]
      refine hs.set_color_up .red ?_
      intro s hs
      simp only [wp_eval hs.sibling, ref_join]
      refine hs.set_color_sib .black ?_
      intro s hs
      -- the near nephew is the new sibling, and black
      have hrest : wp (do
          rotate d (some y.ptr)
          deleteCase3 case1 (some x.ptr))
          (fun _ s' => Repaired s' (⟨d, .black, y, join d .red near w far⟩ :: C)
            (node c l x r) n) s := by
        rw [wp_bind]
        refine Holds.rotate (holds_cons.mp hs) ?_
        intro s hs
        have hfocus := (holds_cons (f := ⟨d, .red, y, near⟩)).mpr
          ((holds_cons (f := ⟨d, .black, w, far⟩)).mpr hs)
        have hbal : CtxBal (⟨d, .red, y, near⟩ :: ⟨d, .black, w, far⟩ :: C) .black (n + 1) :=
          ⟨rfl, hnear, ⟨_, hfar⟩, hC.2⟩
        refine (deleteCase3_spec hfocus hbal hnear (by simp)).mono ?_
        rintro - s' ⟨C', hs', hC', hb, ha⟩
        refine ⟨C', hs', hC', hb.trans ?_, ha.trans ?_⟩
        · cases d <;> simp [before]
        · cases d <;> simp [after]
      simp only [wp_bind] at hrest
      simp only [wp_eval hs.isLeft, wp_eval hs.parent, up_cons]
      cases d
      · simpa [rotateLeft] using hrest
      · simpa [rotateRight] using hrest

/-- `delete_case1` on a focus that is one too low repairs its context. -/
theorem deleteCase1_spec (fuel : ℕ) {p : Ptr} (hs : Holds s C t) (hp : ref t = some p)
    (hC : CtxBal C .black (n + 1)) (hfuel : C.length < fuel) :
    wp (deleteCase1 fuel (some p)) (fun _ s' => Repaired s' C t n) s := by
  induction fuel generalizing s C t p n with
  | zero => omega
  | succ fuel ih =>
    cases t with
    | nil => cases hp
    | node c l x r =>
      cases hp
      simp only [deleteCase1, wp_bind, wp_ite, wp_eval hs.parent]
      rcases C with - | ⟨f, C⟩
      · -- at the root the deficit is one of the whole tree
        simp only [up_nil, if_true, wp_pure]
        exact ⟨[], hs, Or.inl rfl, rfl, rfl⟩
      · simp only [up_cons, reduceCtorEq, if_false]
        refine deleteCase2_spec hs hC fun hC' s t hs ht => ih hs ht hC' ?_
        simp only [List.length_cons] at hfuel
        omega

end Caver.Runtime
