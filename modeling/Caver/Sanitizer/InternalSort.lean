import Caver.Basic
import Caver.Core.BinaryHeap

/-!
# Caver.Sanitizer.InternalSort — heapsort of an array in place

`InternalSort` builds a heap from the front, and then moves its root behind it, one
element after the other. The comparison is a parameter.

* `siftUp_heap`, `sink_heap`: the two loops restore the heap.
* `internalSort_sorts`: the first `size` elements are put in order, and nothing else is
  changed.
-/

namespace Caver.Sanitizer

open Caver.Core

universe u

variable {α : Type u}

section

variable (comp : α → α → Bool)

/-- The inner loop of stage 1. -/
def siftUp (v : ℕ → α) (j : ℕ) : ℕ → α :=
  if j > 0 then
    let p := (j - 1) / 2
    if comp (v p) (v j) then siftUp (v ∘ Equiv.swap j p) p else v
  else v
termination_by j
decreasing_by omega

/-- Stage 1, up to the element at `i`. -/
def insertAll (v : ℕ → α) : ℕ → ℕ → α
  | 0 => v
  | i + 1 => siftUp comp (insertAll v i) (i + 1)

/-- `max_ind`. -/
def maxInd (v : ℕ → α) (i j : ℕ) : ℕ :=
  let left := 2 * j + 1
  let right := 2 * j + 2
  let m := if left < i && comp (v j) (v left) then left else j
  if right < i && comp (v m) (v right) then right else m

theorem maxInd_cases (v : ℕ → α) (i j : ℕ) :
    maxInd comp v i j = j ∨
      (maxInd comp v i j = 2 * j + 1 ∨ maxInd comp v i j = 2 * j + 2) ∧ maxInd comp v i j < i := by
  simp only [maxInd, Bool.and_eq_true, decide_eq_true_eq]
  split
  · next h =>
    split
    · next h' => exact Or.inr ⟨Or.inr rfl, h'.1⟩
    · exact Or.inr ⟨Or.inl rfl, h.1⟩
  · split
    · next h' => exact Or.inr ⟨Or.inr rfl, h'.1⟩
    · exact Or.inl rfl

/-- The inner loop of stage 2. -/
def sink (v : ℕ → α) (i j : ℕ) : ℕ → α :=
  if j < i then
    let m := maxInd comp v i j
    if m ≠ j then sink (v ∘ Equiv.swap j m) i m else v
  else v
termination_by i - j
decreasing_by
  have hm := maxInd_cases comp v i j
  omega

/-- Stage 2, from the element at `i` down. -/
def removeAll (v : ℕ → α) : ℕ → ℕ → α
  | 0 => v
  | i + 1 => removeAll (sink comp (v ∘ Equiv.swap 0 (i + 1)) (i + 1) 0) i

/-- `InternalSort`. -/
def internalSort (v : ℕ → α) (size : ℕ) : ℕ → α :=
  if size < 2 then v else removeAll comp (insertAll comp v (size - 1)) (size - 1)

/-- What a comparison has to be: "less than" of a weak order. -/
structure Compares : Prop where
  asymm : ∀ a b, comp a b = true → comp b a = false
  trans : ∀ a b c, comp b a = false → comp c b = false → comp c a = false

/-- `b` is not less than `a`. -/
def AtMost (a b : α) : Prop := comp b a = false

end

variable {comp : α → α → Bool} {v : ℕ → α} {i j k n size : ℕ}

theorem Compares.refl (h : Compares comp) (a : α) : AtMost comp a a := by
  unfold AtMost
  by_contra hne
  have htrue := eq_true_of_ne_false hne
  exact hne (h.asymm a a htrue)

theorem Compares.of_less (h : Compares comp) {a b : α} (hlt : comp a b = true) :
    AtMost comp a b :=
  h.asymm a b hlt

/-! ## Stage 1 -/

theorem siftUp_rearranged (hj : j < n) : Rearranged n v (siftUp comp v j) := by
  induction v, j using siftUp.induct comp with
  | case1 v j hpos p hless ih =>
    rw [siftUp, if_pos hpos, if_pos hless]
    have hp : p < n := lt_of_le_of_lt (by omega) hj
    exact (Rearranged.swap v hj hp).trans (ih hp)
  | case2 v j hpos p hless =>
    rw [siftUp, if_pos hpos, if_neg hless]
    exact Rearranged.refl n v
  | case3 v j hpos =>
    rw [siftUp, if_neg hpos]
    exact Rearranged.refl n v

theorem siftUp_heap (hcomp : Compares comp) (h : RisingAt (AtMost comp) v n j) (hj : j < n) :
    HeapOrdered (AtMost comp) (siftUp comp v j) n := by
  induction v, j using siftUp.induct comp with
  | case1 v j hpos p hless ih =>
    rw [siftUp, if_pos hpos, if_pos hless]
    exact ih (h.swap hcomp.trans hpos hj (hcomp.of_less hless)) (lt_of_le_of_lt (by omega) hj)
  | case2 v j hpos p hless =>
    rw [siftUp, if_pos hpos, if_neg hless]
    exact h.heap fun _ => eq_false_of_ne_true hless
  | case3 v j hpos =>
    rw [siftUp, if_neg hpos]
    exact h.heap fun h0 => absurd h0 hpos

theorem insertAll_rearranged (v : ℕ → α) (i : ℕ) : Rearranged (i + 1) v (insertAll comp v i) := by
  induction i with
  | zero => exact Rearranged.refl 1 v
  | succ i ih => exact (ih.mono (Nat.le_succ _)).trans (siftUp_rearranged (Nat.lt_succ_self _))

theorem insertAll_heap (hcomp : Compares comp) (v : ℕ → α) (i : ℕ) :
    HeapOrdered (AtMost comp) (insertAll comp v i) (i + 1) := by
  induction i with
  | zero =>
    intro k hpos hk
    omega
  | succ i ih => exact siftUp_heap hcomp ih.append (Nat.lt_succ_self _)

/-! ## Stage 2 -/

/-- No child is above the one that is chosen. -/
theorem le_maxInd (hcomp : Compares comp) (v : ℕ → α) (i j : ℕ) :
    AtMost comp (v j) (v (maxInd comp v i j)) ∧
      ∀ k, 0 < k → k < i → parent k = j → AtMost comp (v k) (v (maxInd comp v i j)) := by
  -- the larger one of `j` and its left child
  obtain ⟨m, hm⟩ : ∃ m,
      (if 2 * j + 1 < i && comp (v j) (v (2 * j + 1)) then 2 * j + 1 else j) = m := ⟨_, rfl⟩
  have hself : AtMost comp (v j) (v m) := by
    rw [← hm]
    split
    · next h =>
      rw [Bool.and_eq_true] at h
      exact hcomp.of_less h.2
    · exact hcomp.refl _
  have hleft : 2 * j + 1 < i → AtMost comp (v (2 * j + 1)) (v m) := by
    intro hlt
    rw [← hm]
    split
    · exact hcomp.refl _
    · next h =>
      rw [Bool.and_eq_true, decide_eq_true_eq] at h
      exact eq_false_of_ne_true fun hless => h ⟨hlt, hless⟩
  have hmax : maxInd comp v i j =
      if 2 * j + 2 < i && comp (v m) (v (2 * j + 2)) then 2 * j + 2 else m := by
    rw [← hm]
    rfl
  have hbelow : AtMost comp (v m) (v (maxInd comp v i j)) := by
    rw [hmax]
    split
    · next h =>
      rw [Bool.and_eq_true] at h
      exact hcomp.of_less h.2
    · exact hcomp.refl _
  have hright : 2 * j + 2 < i → AtMost comp (v (2 * j + 2)) (v (maxInd comp v i j)) := by
    intro hlt
    rw [hmax]
    split
    · exact hcomp.refl _
    · next h =>
      rw [Bool.and_eq_true, decide_eq_true_eq] at h
      exact eq_false_of_ne_true fun hless => h ⟨hlt, hless⟩
  refine ⟨hcomp.trans _ _ _ hself hbelow, fun k hpos hk hkj => ?_⟩
  rcases (parent_eq_iff hpos).mp hkj with rfl | rfl
  · exact hcomp.trans _ _ _ (hleft hk) hbelow
  · exact hright hk

theorem sink_rearranged : Rearranged i v (sink comp v i j) := by
  induction v, j using sink.induct comp i with
  | case1 v j hlt m hne ih =>
    rw [sink, if_pos hlt, if_pos hne]
    have hm := maxInd_cases comp v i j
    exact (Rearranged.swap v hlt (by omega)).trans ih
  | case2 v j hlt m hne =>
    rw [sink, if_pos hlt, if_neg hne]
    exact Rearranged.refl i v
  | case3 v j hlt =>
    rw [sink, if_neg hlt]
    exact Rearranged.refl i v

theorem sink_heap (hcomp : Compares comp) (h : SinkingAt (AtMost comp) v i j) :
    HeapOrdered (AtMost comp) (sink comp v i j) i := by
  induction v, j using sink.induct comp i with
  | case1 v j hlt m hne ih =>
    rw [sink, if_pos hlt, if_pos hne]
    have hle := le_maxInd hcomp v i j
    have hm : (m = 2 * j + 1 ∨ m = 2 * j + 2) ∧ m < i :=
      (maxInd_cases comp v i j).resolve_left hne
    have hpos : 0 < m := by omega
    exact ih (h.swap hpos hm.2 ((parent_eq_iff hpos).mpr hm.1) hle.2 hle.1)
  | case2 v j hlt m hne =>
    rw [sink, if_pos hlt, if_neg hne]
    refine h.heap fun k hpos hk hkj => ?_
    have hself : maxInd comp v i j = j := not_not.mp hne
    have hle := (le_maxInd hcomp v i j).2 k hpos hk hkj
    rwa [hself] at hle
  | case3 v j hlt =>
    rw [sink, if_neg hlt]
    refine h.heap fun k hpos hk hkj => ?_
    have hp := parent_lt hpos
    omega

theorem removeAll_rearranged : Rearranged (i + 1) v (removeAll comp v i) := by
  induction i generalizing v with
  | zero => exact Rearranged.refl 1 v
  | succ i ih =>
    have hswap : Rearranged (i + 2) v (v ∘ Equiv.swap 0 (i + 1)) :=
      Rearranged.swap v (by omega) (by omega)
    exact (hswap.trans (sink_rearranged.mono (Nat.le_succ _))).trans (ih.mono (Nat.le_succ _))

/-- Behind the heap the elements are in order, and none in the heap is above them. -/
structure Partly (comp : α → α → Bool) (v : ℕ → α) (i size : ℕ) : Prop where
  heap : HeapOrdered (AtMost comp) v (i + 1)
  ordered : ∀ k m, i < k → k < m → m < size → AtMost comp (v k) (v m)
  above : ∀ k m, k ≤ i → i < m → m < size → AtMost comp (v k) (v m)

theorem Partly.next (hcomp : Compares comp) (h : Partly comp v (i + 1) size) :
    Partly comp (sink comp (v ∘ Equiv.swap 0 (i + 1)) (i + 1) 0) i size := by
  have hmoved : Rearranged (i + 1) (v ∘ Equiv.swap 0 (i + 1))
      (sink comp (v ∘ Equiv.swap 0 (i + 1)) (i + 1) 0) := sink_rearranged
  have hall : Rearranged (i + 2) v (sink comp (v ∘ Equiv.swap 0 (i + 1)) (i + 1) 0) :=
    (Rearranged.swap v (by omega) (by omega)).trans (hmoved.mono (Nat.le_succ _))
  -- the root is now behind the heap
  have hroot : sink comp (v ∘ Equiv.swap 0 (i + 1)) (i + 1) 0 (i + 1) = v 0 := by
    rw [hmoved.of_ge (Nat.le_refl _), Function.comp_apply, Equiv.swap_apply_right]
  constructor
  · exact sink_heap hcomp h.heap.replaceRoot
  · intro k m hik hkm hm
    rw [hall.of_ge (k := m) (by omega)]
    by_cases hk : k = i + 1
    · rw [hk, hroot]
      exact h.above 0 m (Nat.zero_le _) (by omega) hm
    · rw [hall.of_ge (k := k) (by omega)]
      exact h.ordered k m (by omega) hkm hm
  · intro k m hki him hm
    rcases hall.mem (k := k) (by omega) with ⟨a, ha, heq⟩
    rw [heq]
    by_cases hm' : m = i + 1
    · rw [hm', hroot]
      exact h.heap.le_root hcomp.refl hcomp.trans ha
    · rw [hall.of_ge (k := m) (by omega)]
      exact h.above a m (by omega) (by omega) hm

theorem Partly.removeAll (hcomp : Compares comp) (h : Partly comp v i size) (hi : i < size) :
    ∀ k m, k < m → m < size → AtMost comp (removeAll comp v i k) (removeAll comp v i m) := by
  induction i generalizing v with
  | zero =>
    intro k m hkm hm
    rcases Nat.eq_zero_or_pos k with rfl | hpos
    · exact h.above 0 m (Nat.le_refl 0) hkm hm
    · exact h.ordered k m hpos hkm hm
  | succ i ih => exact ih (h.next hcomp) (Nat.lt_of_succ_lt hi)

/-! ## Both stages -/

theorem internalSort_rearranged (v : ℕ → α) (size : ℕ) :
    Rearranged size v (internalSort comp v size) := by
  unfold internalSort
  split
  · exact Rearranged.refl size v
  · have hsize : size - 1 + 1 = size := by omega
    have hinsert : Rearranged (size - 1 + 1) v (insertAll comp v (size - 1)) :=
      insertAll_rearranged v (size - 1)
    rw [hsize] at hinsert
    refine hinsert.trans ?_
    have hremove : Rearranged (size - 1 + 1) (insertAll comp v (size - 1))
        (removeAll comp (insertAll comp v (size - 1)) (size - 1)) := removeAll_rearranged
    rwa [hsize] at hremove

theorem internalSort_ordered (hcomp : Compares comp) (v : ℕ → α) (hij : i < j) (hj : j < size) :
    AtMost comp (internalSort comp v size i) (internalSort comp v size j) := by
  unfold internalSort
  rw [if_neg (by omega)]
  refine Partly.removeAll hcomp ⟨insertAll_heap hcomp v _, ?_, ?_⟩ (by omega) i j hij hj
  all_goals
    intro k m h₁ h₂
    omega

/-- The elements are the same, those behind `size` stay where they are, and the others
are put in order. -/
theorem internalSort_sorts (hcomp : Compares comp) (v : ℕ → α) (size : ℕ) :
    (Multiset.range size).map (internalSort comp v size) = (Multiset.range size).map v ∧
      (∀ k, size ≤ k → internalSort comp v size k = v k) ∧
      ∀ i j, i < j → j < size →
        comp (internalSort comp v size j) (internalSort comp v size i) = false :=
  ⟨(internalSort_rearranged v size).multiset, fun _ hk => (internalSort_rearranged v size).of_ge hk,
    fun _ _ hij hj => internalSort_ordered hcomp v hij hj⟩

/-! ## `SortArray` -/

/-- `CompareLess`. -/
def compareLess (a b : Uptr) : Bool := a < b

theorem compareLess_compares : Compares compareLess where
  asymm a b h := by
    simp only [compareLess, decide_eq_true_eq, decide_eq_false_iff_not] at h ⊢
    exact UInt64.lt_asymm h
  trans a b c h₁ h₂ := by
    simp only [compareLess, decide_eq_false_iff_not, UInt64.not_lt] at h₁ h₂ ⊢
    exact UInt64.le_trans h₁ h₂

/-- `SortArray`. -/
def sortArray (v : ℕ → Uptr) (size : ℕ) : ℕ → Uptr := internalSort compareLess v size

/-- Five addresses that are out of order. -/
def scrambled (k : ℕ) : Uptr := UInt64.ofNat (7 * k % 5)

theorem internalSort_sorts_addresses :
    (Multiset.range 5).map (internalSort compareLess scrambled 5) =
        (Multiset.range 5).map scrambled ∧
      (∀ k, 5 ≤ k → internalSort compareLess scrambled 5 k = scrambled k) ∧
      ∀ i j, i < j → j < 5 → compareLess (internalSort compareLess scrambled 5 j)
        (internalSort compareLess scrambled 5 i) = false :=
  internalSort_sorts compareLess_compares scrambled 5

end Caver.Sanitizer
