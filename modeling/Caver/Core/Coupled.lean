import Caver.Core.Prog

/-!
# Caver.Core.Coupled — two programs side by side

`coupled m n Q s t`: started in `s` and `t`, the programs `m` and `n` both fail, or both
succeed, and `Q` relates what they return and the states they leave. There is one rule
for each way to build programs on both sides, and one for a step of one side alone.

`coupled_mapM` lifts it from single operations to whole runs.
-/

namespace Caver.Core

variable {σ τ α β γ δ : Type}

theorem get_eval {σ : Type} (s : σ) : (get : Prog σ σ) s = some (s, s) := rfl

theorem modify_eval {σ : Type} (f : σ → σ) (s : σ) :
    (modify f : Prog σ PUnit) s = some (⟨⟩, f s) := rfl

theorem check_eval {σ : Type} {p : Bool} (hp : p = true) (s : σ) :
    (check p : Prog σ PUnit) s = some (⟨⟩, s) := by
  subst hp
  rfl

theorem check_fails {σ : Type} {p : Bool} (hp : p = false) (s : σ) :
    (check p : Prog σ PUnit) s = none := by
  subst hp
  rfl

theorem bind_eval {σ α γ : Type} {m : Prog σ α} {a : α} {s s' : σ} (hm : m s = some (a, s'))
    (f : α → Prog σ γ) : (m >>= f) s = f a s' := by
  show (m s).bind (fun x => f x.1 x.2) = f a s'
  rw [hm]
  rfl

theorem bind_fails {σ α γ : Type} {m : Prog σ α} {s : σ} (hm : m s = none)
    (f : α → Prog σ γ) : (m >>= f) s = none := by
  show (m s).bind (fun x => f x.1 x.2) = none
  rw [hm]
  rfl

/-- The programs fail both, or none of them does and `Q` holds of the results. -/
def coupled (m : Prog σ α) (n : Prog τ β) (Q : α → β → σ → τ → Prop) (s : σ) (t : τ) : Prop :=
  (m s = none ∧ n t = none) ∨
    ∃ a s' b t', m s = some (a, s') ∧ n t = some (b, t') ∧ Q a b s' t'

variable {m : Prog σ α} {n : Prog τ β} {Q R : α → β → σ → τ → Prop} {s s' : σ} {t t' : τ}
  {a : α} {b : β}

theorem coupled.mono (h : coupled m n Q s t) (hQR : ∀ a b s' t', Q a b s' t' → R a b s' t') :
    coupled m n R s t := by
  rcases h with h | ⟨a, s', b, t', hm, hn, hQ⟩
  · exact Or.inl h
  · exact Or.inr ⟨a, s', b, t', hm, hn, hQR _ _ _ _ hQ⟩

theorem coupled_pure (h : Q a b s t) :
    coupled (pure a : Prog σ α) (pure b : Prog τ β) Q s t :=
  Or.inr ⟨a, s, b, t, rfl, rfl, h⟩

theorem coupled_fail (hm : m s = none) (hn : n t = none) : coupled m n Q s t :=
  Or.inl ⟨hm, hn⟩

theorem coupled_eval (hm : m s = some (a, s')) (hn : n t = some (b, t')) (h : Q a b s' t') :
    coupled m n Q s t :=
  Or.inr ⟨a, s', b, t', hm, hn, h⟩

theorem coupled_bind {f : α → Prog σ γ} {g : β → Prog τ δ} {P : γ → δ → σ → τ → Prop}
    (h : coupled m n (fun a b s' t' => coupled (f a) (g b) P s' t') s t) :
    coupled (m >>= f) (n >>= g) P s t := by
  rcases h with ⟨hm, hn⟩ | ⟨a, s', b, t', hm, hn, hfg⟩
  · exact Or.inl ⟨bind_fails hm f, bind_fails hn g⟩
  · unfold coupled
    rw [bind_eval hm, bind_eval hn]
    exact hfg

/-- A step of the left program alone. -/
theorem coupled_left {f : α → Prog σ γ} {k : Prog τ δ} {P : γ → δ → σ → τ → Prop}
    (hm : m s = some (a, s')) (h : coupled (f a) k P s' t) : coupled (m >>= f) k P s t := by
  unfold coupled
  rw [bind_eval hm]
  exact h

/-- A step of the right program alone. -/
theorem coupled_right {g : β → Prog τ δ} {k : Prog σ γ} {P : γ → δ → σ → τ → Prop}
    (hn : n t = some (b, t')) (h : coupled k (g b) P s t') : coupled k (n >>= g) P s t := by
  unfold coupled
  rw [bind_eval hn]
  exact h

theorem coupled_get {P : σ → τ → σ → τ → Prop} (h : P s t s t) :
    coupled (get : Prog σ σ) (get : Prog τ τ) P s t :=
  Or.inr ⟨s, s, t, t, rfl, rfl, h⟩

/-- A check that both programs make. -/
theorem coupled_check {p q : Bool} {P : PUnit → PUnit → σ → τ → Prop} (hpq : p = q)
    (h : p = true → P ⟨⟩ ⟨⟩ s t) :
    coupled (check p : Prog σ PUnit) (check q : Prog τ PUnit) P s t := by
  subst hpq
  cases p with
  | false => exact Or.inl ⟨rfl, rfl⟩
  | true => exact Or.inr ⟨⟨⟩, s, ⟨⟩, t, rfl, rfl, h rfl⟩

theorem coupled_ite {p q : Prop} [Decidable p] [Decidable q] {m' : Prog σ α} {n' : Prog τ β}
    (hpq : p ↔ q) (h : p → coupled m n Q s t) (h' : ¬ p → coupled m' n' Q s t) :
    coupled (if p then m else m') (if q then n else n') Q s t := by
  by_cases hp : p
  · rw [if_pos hp, if_pos (hpq.mp hp)]
    exact h hp
  · rw [if_neg hp, if_neg (fun hq => hp (hpq.mpr hq))]
    exact h' hp

/-- Two systems that agree on each operation agree on every sequence of operations. -/
theorem coupled_mapM {f : γ → Prog σ α} {g : γ → Prog τ α} {I : σ → τ → Prop}
    (hstep : ∀ c s t, I s t → coupled (f c) (g c) (fun a b s' t' => a = b ∧ I s' t') s t)
    (cs : List γ) (h : I s t) :
    coupled (cs.mapM f) (cs.mapM g) (fun as bs s' t' => as = bs ∧ I s' t') s t := by
  induction cs generalizing s t with
  | nil => exact coupled_pure ⟨rfl, h⟩
  | cons c cs ih =>
    rw [List.mapM_cons, List.mapM_cons]
    refine coupled_bind ((hstep c s t h).mono ?_)
    rintro a _ s₁ t₁ ⟨rfl, h₁⟩
    refine coupled_bind ((ih h₁).mono ?_)
    rintro as _ s₂ t₂ ⟨rfl, h₂⟩
    exact coupled_pure ⟨rfl, h₂⟩

end Caver.Core
