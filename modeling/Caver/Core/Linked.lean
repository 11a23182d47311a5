import Mathlib.Data.List.Basic
import Mathlib.Logic.Function.Basic

/-!
# Caver.Core.Linked — lists that are linked through memory

A node has a word that says which node is next, and `nil` ends a list.

* `Linked.eq_cons`: the node at the front is the head of a list that is not empty.
* `Linked.update`: a write to a node that is not in the list does not matter.
-/

namespace Caver.Core

universe u

variable {α : Type u} {next : α → α} {nil a : α} {xs ys : List α}

/-- The list `xs` is linked through `next`, from its first node `a` on. -/
def Linked (next : α → α) (nil : α) : α → List α → Prop
  | a, [] => a = nil
  | a, x :: xs => a = x ∧ x ≠ nil ∧ Linked next nil (next x) xs

/-- The list is empty when its first node is `nil`. -/
theorem Linked.eq_nil_iff (h : Linked next nil a xs) : xs = [] ↔ a = nil := by
  cases xs with
  | nil => exact ⟨fun _ => h, fun _ => rfl⟩
  | cons x xs =>
    constructor
    · intro hxs
      exact absurd hxs (List.cons_ne_nil x xs)
    · intro ha
      exact absurd (h.1.symm.trans ha) h.2.1

/-- A list that does not start at `nil` has a first node. -/
theorem Linked.eq_cons (h : Linked next nil a xs) (ha : a ≠ nil) :
    ∃ rest, xs = a :: rest ∧ Linked next nil (next a) rest := by
  cases xs with
  | nil => exact absurd h ha
  | cons x xs =>
    have hax : a = x := h.1
    subst hax
    exact ⟨xs, rfl, h.2.2⟩

variable [DecidableEq α] {p v : α}

/-- A write elsewhere leaves the list as it is. -/
theorem Linked.update (h : Linked next nil a xs) (hp : p ∉ xs) :
    Linked (Function.update next p v) nil a xs := by
  induction xs generalizing a with
  | nil => exact h
  | cons x xs ih =>
    have hxp : x ≠ p := fun hx => hp (hx ▸ List.mem_cons_self)
    refine ⟨h.1, h.2.1, ?_⟩
    rw [Function.update_of_ne hxp]
    exact ih h.2.2 fun hmem => hp (List.mem_cons_of_mem x hmem)

omit [DecidableEq α] in
/-- Lists depend on the words of their own nodes only. -/
theorem Linked.congr {next' : α → α} (h : Linked next nil a xs)
    (heq : ∀ x ∈ xs, next' x = next x) : Linked next' nil a xs := by
  induction xs generalizing a with
  | nil => exact h
  | cons x xs ih =>
    refine ⟨h.1, h.2.1, ?_⟩
    rw [heq x List.mem_cons_self]
    exact ih h.2.2 fun y hy => heq y (List.mem_cons_of_mem x hy)

end Caver.Core
