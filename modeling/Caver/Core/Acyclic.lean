import Mathlib.Data.Fintype.Card
import Mathlib.Logic.Relation

/-!
# Caver.Core.Acyclic — finite acyclic relations

* `Acyclic r`: nothing leads to itself.
* `rank r`: how many elements can be reached. It goes down along an acyclic relation,
  so recursion along it ends within the number of elements.
-/

namespace Caver.Core

open Relation

section Acyclic

variable {α : Type} {r : α → α → Prop} {a b : α}

/-- No element can be reached from itself. -/
def Acyclic (r : α → α → Prop) : Prop := ∀ a, ¬ TransGen r a a

variable [Fintype α]

open Classical in
/-- The elements that can be reached. -/
noncomputable def reachable (r : α → α → Prop) (a : α) : Finset α :=
  Finset.univ.filter (TransGen r a)

theorem mem_reachable : b ∈ reachable r a ↔ TransGen r a b := by
  classical
  unfold reachable
  rw [Finset.mem_filter, and_iff_right (Finset.mem_univ b)]

/-- How many elements can be reached. -/
noncomputable def rank (r : α → α → Prop) (a : α) : ℕ := (reachable r a).card

theorem rank_le_card (r : α → α → Prop) (a : α) : rank r a ≤ Fintype.card α :=
  Finset.card_le_univ _

/-- The next element reaches less: it does not reach itself. -/
theorem Acyclic.rank_lt (h : Acyclic r) (hab : r a b) : rank r b < rank r a := by
  apply Finset.card_lt_card
  rw [Finset.ssubset_iff_of_subset]
  · refine ⟨b, mem_reachable.mpr (TransGen.single hab), ?_⟩
    intro hb
    exact h b (mem_reachable.mp hb)
  · intro c hc
    exact mem_reachable.mpr (TransGen.head hab (mem_reachable.mp hc))

end Acyclic

end Caver.Core
