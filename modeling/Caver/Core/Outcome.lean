import Mathlib.Data.List.Basic

/-!
# Caver.Core.Outcome — programs that end in one of several ways

* `Fallible ε σ α`: a program over states `σ` that ends with a result, or dies with
  a cause in `ε`.
* `ends m E Q s`: started in `s`, the program dies of nothing but `E`, and where it
  does not die, `Q` holds of its result and of the state it leaves. One rule for
  each way to build programs.
-/

namespace Caver.Core

universe u

/-- A program over states `σ` that may die of a cause in `ε`. -/
abbrev Fallible (ε σ α : Type u) := StateT σ (Except ε) α

/-- Die where a condition does not hold. -/
def require {ε σ : Type u} (b : Bool) (e : ε) : Fallible ε σ PUnit :=
  if b then pure ⟨⟩ else throw e

section Ends

variable {ε σ α β : Type u} {E : ε → Prop} {Q R : α → σ → Prop} {s : σ}

/-- `m` dies only of `E`, and otherwise ends in `Q`. -/
def ends (m : Fallible ε σ α) (E : ε → Prop) (Q : α → σ → Prop) (s : σ) : Prop :=
  match m s with
  | .ok (a, s') => Q a s'
  | .error e => E e

@[simp] theorem ends_pure (a : α) : ends (pure a : Fallible ε σ α) E Q s ↔ Q a s := Iff.rfl

@[simp] theorem ends_bind (m : Fallible ε σ β) (f : β → Fallible ε σ α) :
    ends (m >>= f) E Q s ↔ ends m E (fun b s' => ends (f b) E Q s') s := by
  have hrun : (m >>= f) s = m s >>= fun bs => f bs.1 bs.2 := rfl
  unfold ends
  rw [hrun]
  cases m s with
  | error e => exact Iff.rfl
  | ok bs => exact Iff.rfl

@[simp] theorem ends_get {P : σ → σ → Prop} : ends (get : Fallible ε σ σ) E P s ↔ P s s :=
  Iff.rfl

@[simp] theorem ends_modify {P : PUnit → σ → Prop} (f : σ → σ) :
    ends (modify f : Fallible ε σ PUnit) E P s ↔ P ⟨⟩ (f s) := Iff.rfl

@[simp] theorem ends_throw (e : ε) : ends (throw e : Fallible ε σ α) E Q s ↔ E e := Iff.rfl

@[simp] theorem ends_require {P : PUnit → σ → Prop} (b : Bool) (e : ε) :
    ends (require b e : Fallible ε σ PUnit) E P s ↔
      (b = true → P ⟨⟩ s) ∧ (b = false → E e) := by
  cases b with
  | true => simp [require]
  | false => simp [require]

theorem ends_ite {p : Prop} [Decidable p] (m n : Fallible ε σ α) :
    ends (if p then m else n) E Q s ↔ if p then ends m E Q s else ends n E Q s := by
  split <;> rfl

/-- A weaker postcondition. -/
theorem ends.mono {m : Fallible ε σ α} (h : ends m E Q s) (hQR : ∀ a s', Q a s' → R a s') :
    ends m E R s := by
  unfold ends at h ⊢
  cases hm : m s with
  | error e =>
    rw [hm] at h
    exact h
  | ok bs =>
    rw [hm] at h
    exact hQR _ _ h

/-- A check that holds. -/
theorem ends_require_true {P : PUnit → σ → Prop} {b : Bool} {e : ε} (hb : b = true)
    (h : P ⟨⟩ s) : ends (require b e : Fallible ε σ PUnit) E P s := by
  rw [hb]
  exact h

/-- A loop over the numbers below `n`, whose rounds keep an invariant of how far it is. -/
theorem ends_forM_range {f : ℕ → Fallible ε σ PUnit} {I : ℕ → σ → Prop} {n : ℕ}
    (hf : ∀ i < n, ∀ s, I i s → ends (f i) E (fun _ s' => I (i + 1) s') s) (hs : I 0 s) :
    ends ((List.range n).forM f) E (fun _ s' => I n s') s := by
  have hall : ∀ m ≤ n, ends ((List.range m).forM f) E (fun _ s' => I m s') s := by
    intro m
    induction m with
    | zero => exact fun _ => hs
    | succ m ih =>
      intro hm
      have hsplit : (List.range (m + 1)).forM f =
          ((List.range m).forM f >>= fun _ => f m) := by
        simp [List.range_succ]
      rw [hsplit, ends_bind]
      exact (ih (Nat.le_of_succ_le hm)).mono fun _ s' hI => hf m hm s' hI
  exact hall n (Nat.le_refl n)

end Ends

end Caver.Core
