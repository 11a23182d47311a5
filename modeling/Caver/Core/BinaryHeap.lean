import Mathlib.Data.Multiset.Range
import Mathlib.Data.Multiset.MapFold
import Mathlib.Logic.Equiv.Basic

/-!
# Caver.Core.BinaryHeap — arrays that are rearranged, and heaps in them

An array is a function on indices, of which the first `n` count.

* `Rearranged`: the first `n` elements are the same, in some order.
* `HeapOrdered`: no element is above its parent, in an order `le`.
* `RisingAt`, `SinkingAt`: a heap but for one place, which moves up or down with a swap.
-/

namespace Caver.Core

universe u

variable {α : Type u} {n m i j k : ℕ} {v v' v'' : ℕ → α}

/-! ## Rearrangements -/

/-- The first `n` elements in another order, and the others where they were. -/
def Rearranged (n : ℕ) (v v' : ℕ → α) : Prop :=
  ∃ σ : Equiv.Perm ℕ, (∀ k, n ≤ k → σ k = k) ∧ v' = v ∘ σ

theorem Rearranged.refl (n : ℕ) (v : ℕ → α) : Rearranged n v v :=
  ⟨Equiv.refl ℕ, fun _ _ => rfl, rfl⟩

theorem Rearranged.trans (h : Rearranged n v v') (h' : Rearranged n v' v'') :
    Rearranged n v v'' := by
  rcases h with ⟨σ, hσ, rfl⟩
  rcases h' with ⟨τ, hτ, rfl⟩
  refine ⟨τ.trans σ, fun k hk => ?_, rfl⟩
  rw [Equiv.trans_apply, hτ k hk, hσ k hk]

theorem Rearranged.swap (v : ℕ → α) (hi : i < n) (hj : j < n) :
    Rearranged n v (v ∘ Equiv.swap i j) := by
  refine ⟨Equiv.swap i j, fun k hk => ?_, rfl⟩
  exact Equiv.swap_apply_of_ne_of_ne (by omega) (by omega)

theorem Rearranged.mono (h : Rearranged n v v') (hnm : n ≤ m) : Rearranged m v v' := by
  rcases h with ⟨σ, hσ, hv⟩
  exact ⟨σ, fun k hk => hσ k (hnm.trans hk), hv⟩

theorem Rearranged.of_ge (h : Rearranged n v v') (hk : n ≤ k) : v' k = v k := by
  rcases h with ⟨σ, hσ, rfl⟩
  rw [Function.comp_apply, hσ k hk]

/-- A permutation that fixes what is behind `n` keeps the others in front. -/
theorem perm_lt {σ : Equiv.Perm ℕ} (hσ : ∀ k, n ≤ k → σ k = k) (hk : k < n) : σ k < n := by
  by_contra hge
  have hfix := hσ (σ k) (Nat.le_of_not_lt hge)
  have hk' : σ k = k := σ.injective hfix
  omega

theorem Rearranged.mem (h : Rearranged n v v') (hk : k < n) : ∃ i, i < n ∧ v' k = v i := by
  rcases h with ⟨σ, hσ, rfl⟩
  exact ⟨σ k, perm_lt hσ hk, rfl⟩

/-- Rearranging keeps every element, as often as it occurs. -/
theorem Rearranged.multiset (h : Rearranged n v v') :
    (Multiset.range n).map v' = (Multiset.range n).map v := by
  rcases h with ⟨σ, hσ, rfl⟩
  have hrange : (Multiset.range n).map σ = Multiset.range n := by
    refine (Multiset.Nodup.ext ((Multiset.nodup_range n).map σ.injective)
      (Multiset.nodup_range n)).mpr fun k => ?_
    rw [Multiset.mem_map, Multiset.mem_range]
    constructor
    · rintro ⟨i, hi, rfl⟩
      exact perm_lt hσ (Multiset.mem_range.mp hi)
    · intro hk
      refine ⟨σ.symm k, Multiset.mem_range.mpr ?_, σ.apply_symm_apply k⟩
      refine perm_lt (fun i hi => ?_) hk
      rw [Equiv.symm_apply_eq, hσ i hi]
  rw [← Multiset.map_map, hrange]

/-! ## Heaps -/

/-- The index above `k` in the tree. -/
def parent (k : ℕ) : ℕ := (k - 1) / 2

theorem parent_lt (hk : 0 < k) : parent k < k := by
  unfold parent
  omega

theorem parent_eq_iff (hk : 0 < k) : parent k = j ↔ k = 2 * j + 1 ∨ k = 2 * j + 2 := by
  unfold parent
  omega

variable {le : α → α → Prop}

/-- No element is above its parent. -/
def HeapOrdered (le : α → α → Prop) (v : ℕ → α) (n : ℕ) : Prop :=
  ∀ k, 0 < k → k < n → le (v k) (v (parent k))

/-- A heap, but that the element at `j` may be above its parent. -/
structure RisingAt (le : α → α → Prop) (v : ℕ → α) (n j : ℕ) : Prop where
  order : ∀ k, 0 < k → k < n → k ≠ j → le (v k) (v (parent k))
  children : ∀ k, 0 < k → k < n → parent k = j → 0 < j → le (v k) (v (parent j))

/-- A heap, but that the children of `j` may be above it. -/
structure SinkingAt (le : α → α → Prop) (v : ℕ → α) (n j : ℕ) : Prop where
  order : ∀ k, 0 < k → k < n → parent k ≠ j → le (v k) (v (parent k))
  children : ∀ k, 0 < k → k < n → parent k = j → 0 < j → le (v k) (v (parent j))

theorem HeapOrdered.le_root (hrefl : ∀ a, le a a) (htrans : ∀ a b c, le a b → le b c → le a c)
    (h : HeapOrdered le v n) (hk : k < n) : le (v k) (v 0) := by
  induction k using Nat.strong_induction_on with
  | h k ih =>
    rcases Nat.eq_zero_or_pos k with rfl | hpos
    · exact hrefl _
    · have hlt := parent_lt hpos
      exact htrans _ _ _ (h k hpos hk) (ih _ hlt (hlt.trans hk))

/-- A new last element may be above its parent. -/
theorem HeapOrdered.append (h : HeapOrdered le v n) : RisingAt le v (n + 1) n where
  order k hpos hk hne := h k hpos (by omega)
  children k hpos hk hkn _ := by
    have hlt := parent_lt hpos
    omega

theorem RisingAt.heap (h : RisingAt le v n j) (hj : 0 < j → le (v j) (v (parent j))) :
    HeapOrdered le v n := by
  intro k hpos hk
  by_cases hkj : k = j
  · subst hkj
    exact hj hpos
  · exact h.order k hpos hk hkj

theorem RisingAt.swap (htrans : ∀ a b c, le a b → le b c → le a c) (h : RisingAt le v n j)
    (hj : 0 < j) (hjn : j < n) (hle : le (v (parent j)) (v j)) :
    RisingAt le (v ∘ Equiv.swap j (parent j)) n (parent j) := by
  have hp := parent_lt hj
  have hout : ∀ k, k ≠ j → k ≠ parent j → (v ∘ Equiv.swap j (parent j)) k = v k :=
    fun k h₁ h₂ => congrArg v (Equiv.swap_apply_of_ne_of_ne h₁ h₂)
  have hat : (v ∘ Equiv.swap j (parent j)) j = v (parent j) :=
    congrArg v (Equiv.swap_apply_left _ _)
  have hup : (v ∘ Equiv.swap j (parent j)) (parent j) = v j :=
    congrArg v (Equiv.swap_apply_right _ _)
  -- first the order between all nodes but the new place and its parent, then below its children
  constructor
  · intro k hpos hk hne
    have hlt := parent_lt hpos
    by_cases hkj : k = j
    · rw [hkj, hat, hup]
      exact hle
    · rw [hout k hkj hne]
      by_cases h₁ : parent k = j
      · rw [h₁, hat]
        exact h.children k hpos hk h₁ hj
      · by_cases h₂ : parent k = parent j
        · rw [h₂, hup]
          exact htrans _ _ _ (h₂ ▸ h.order k hpos hk hkj) hle
        · rw [hout _ h₁ h₂]
          exact h.order k hpos hk hkj
  · intro k hpos hk hkp hpp
    have hlt := parent_lt hpp
    rw [hout (parent (parent j)) (by omega) (by omega)]
    have hself := h.order (parent j) hpp (by omega) (by omega)
    by_cases hkj : k = j
    · rw [hkj, hat]
      exact hself
    · have hlt' := parent_lt hpos
      rw [hout k hkj (by omega)]
      exact htrans _ _ _ (hkp ▸ h.order k hpos hk hkj) hself

theorem SinkingAt.heap (h : SinkingAt le v n j)
    (hj : ∀ k, 0 < k → k < n → parent k = j → le (v k) (v j)) : HeapOrdered le v n := by
  intro k hpos hk
  by_cases hkj : parent k = j
  · rw [hkj]
    exact hj k hpos hk hkj
  · exact h.order k hpos hk hkj

/-- The largest child takes the place of its parent. -/
theorem SinkingAt.swap (h : SinkingAt le v n j) (hm : 0 < m) (hmn : m < n) (hmj : parent m = j)
    (hmax : ∀ k, 0 < k → k < n → parent k = j → le (v k) (v m)) (hle : le (v j) (v m)) :
    SinkingAt le (v ∘ Equiv.swap j m) n m := by
  have hjm := parent_lt hm
  rw [hmj] at hjm
  have hout : ∀ k, k ≠ j → k ≠ m → (v ∘ Equiv.swap j m) k = v k :=
    fun k h₁ h₂ => congrArg v (Equiv.swap_apply_of_ne_of_ne h₁ h₂)
  have hat : (v ∘ Equiv.swap j m) j = v m := congrArg v (Equiv.swap_apply_left _ _)
  have hdown : (v ∘ Equiv.swap j m) m = v j := congrArg v (Equiv.swap_apply_right _ _)
  constructor
  · intro k hpos hk hne
    have hlt := parent_lt hpos
    by_cases hkm : k = m
    · rw [hkm, hmj, hat, hdown]
      exact hle
    · by_cases hkj : k = j
      · subst hkj
        rw [hat, hout _ (by omega) hne]
        exact h.children m hm hmn hmj hpos
      · rw [hout k hkj hkm]
        by_cases h₁ : parent k = j
        · rw [h₁, hat]
          exact hmax k hpos hk h₁
        · rw [hout _ h₁ hne]
          exact h.order k hpos hk h₁
  · intro k hpos hk hkm _
    have hlt := parent_lt hpos
    rw [hmj, hat, hout k (by omega) (by omega)]
    exact hkm ▸ h.order k hpos hk (by omega)

/-- The last element in the place of the root. -/
theorem HeapOrdered.replaceRoot (h : HeapOrdered le v (n + 1)) :
    SinkingAt le (v ∘ Equiv.swap 0 n) n 0 := by
  have hout : ∀ k, k ≠ 0 → k < n → (v ∘ Equiv.swap 0 n) k = v k :=
    fun k h₁ h₂ => congrArg v (Equiv.swap_apply_of_ne_of_ne h₁ (Nat.ne_of_lt h₂))
  constructor
  · intro k hpos hk hne
    have hlt := parent_lt hpos
    rw [hout k (by omega) hk, hout _ hne (by omega)]
    exact h k hpos (by omega)
  · intro k _ _ _ h0
    exact absurd h0 (Nat.lt_irrefl 0)

end Caver.Core
