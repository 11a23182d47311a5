import Mathlib.Data.Finset.Basic
import Mathlib.Data.Finset.Card
import Mathlib.Data.List.Nodup

/-!
# Caver.Core.Prog — programs that change a state and may fail

* `Prog σ α`: a program over states `σ`. A failing program has gone wrong (it
  has followed a null or dangling pointer, or a check has aborted it).
* `wp m Q s`: started in `s`, the program `m` succeeds, and `Q` holds of its
  result and of the state it leaves. One rule for each way to build programs.
* `wlp m Q s`: the same wherever `m` succeeds; a failing run is no
  counterexample.
* `Keeps f m`: runs of `m` leave the part `f` of the state as it is.
* `Heap β`: finitely many allocated cells, addressed by natural numbers.
* `List.foldlM` runs a step function over a sequence of operations;
  `run_simulation` lifts a simulation of one step to whole runs, and `wp_mapM` is
  the rule for loops that collect results.
-/

namespace Caver.Core

universe u v w

/-! ## Programs -/

/-- A program over states `σ`; `none` is failure. -/
abbrev Prog (σ : Type u) (α : Type u) := StateT σ Option α

/-- Conjunction that runs its second operand only when the first holds. -/
def andAlso {σ : Type} (m n : Prog σ Bool) : Prog σ Bool := do
  if ← m then n else pure false

/-- An assertion: the program fails where it does not hold. -/
def check {σ : Type u} (b : Bool) : Prog σ PUnit :=
  if b then pure ⟨⟩ else failure

section Wp

variable {σ α β : Type u}

/-- Total correctness: `m` succeeds from `s` with a result and a state in `Q`. -/
def wp (m : Prog σ α) (Q : α → σ → Prop) (s : σ) : Prop :=
  ∃ a s', m s = some (a, s') ∧ Q a s'

variable {Q R : α → σ → Prop} {s : σ}

@[simp] theorem wp_pure (a : α) : wp (pure a : Prog σ α) Q s ↔ Q a s := by
  constructor
  · rintro ⟨b, s', h, hQ⟩
    cases h
    exact hQ
  · exact fun h => ⟨a, s, rfl, h⟩

@[simp] theorem wp_bind (m : Prog σ β) (f : β → Prog σ α) :
    wp (m >>= f) Q s ↔ wp m (fun b s' => wp (f b) Q s') s := by
  constructor
  · rintro ⟨a, s', h, hQ⟩
    rcases Option.bind_eq_some_iff.mp h with ⟨⟨b, t⟩, hm, hf⟩
    exact ⟨b, t, hm, a, s', hf, hQ⟩
  · rintro ⟨b, t, hm, a, s', hf, hQ⟩
    exact ⟨a, s', Option.bind_eq_some_iff.mpr ⟨(b, t), hm, hf⟩, hQ⟩

@[simp] theorem wp_map (m : Prog σ β) (f : β → α) :
    wp (f <$> m) Q s ↔ wp m (fun b s' => Q (f b) s') s := by
  rw [map_eq_pure_bind, wp_bind]
  simp only [wp_pure]

@[simp] theorem wp_get {P : σ → σ → Prop} : wp (get : Prog σ σ) P s ↔ P s s := by
  constructor
  · rintro ⟨b, s', h, hQ⟩
    cases h
    exact hQ
  · exact fun h => ⟨s, s, rfl, h⟩

@[simp] theorem wp_modify {P : PUnit → σ → Prop} (f : σ → σ) :
    wp (modify f : Prog σ PUnit) P s ↔ P ⟨⟩ (f s) := by
  constructor
  · rintro ⟨b, s', h, hQ⟩
    cases h
    exact hQ
  · exact fun h => ⟨_, _, rfl, h⟩

@[simp] theorem wp_check {P : PUnit → σ → Prop} (b : Bool) :
    wp (check b : Prog σ PUnit) P s ↔ b = true ∧ P ⟨⟩ s := by
  constructor
  · rintro ⟨a, s', h, hQ⟩
    cases b with
    | false => cases h
    | true =>
      cases h
      exact ⟨rfl, hQ⟩
  · rintro ⟨rfl, hQ⟩
    exact ⟨⟨⟩, s, rfl, hQ⟩

theorem wp_ite {p : Prop} [Decidable p] (m n : Prog σ α) :
    wp (if p then m else n) Q s ↔ if p then wp m Q s else wp n Q s := by
  split <;> rfl

/-- A stronger postcondition. -/
theorem wp.mono {m : Prog σ α} (h : wp m Q s) (hQR : ∀ a s', Q a s' → R a s') : wp m R s := by
  rcases h with ⟨a, s', hm, hQ⟩
  exact ⟨a, s', hm, hQR a s' hQ⟩

/-- A program whose run is known. -/
theorem wp_eval {m : Prog σ α} {a : α} {s' : σ} (h : m s = some (a, s')) :
    wp m Q s ↔ Q a s' := by
  constructor
  · rintro ⟨b, t, hm, hQ⟩
    rw [h] at hm
    cases hm
    exact hQ
  · exact fun hQ => ⟨a, s', h, hQ⟩

/-- A program that returns a known value and leaves a known state. -/
theorem eval_of_wp {m : Prog σ α} {a : α} {s' : σ} (h : wp m (fun b t => b = a ∧ t = s') s) :
    m s = some (a, s') := by
  rcases h with ⟨b, t, hm, rfl, rfl⟩
  exact hm

theorem andAlso_eval {σ : Type} {m n : Prog σ Bool} {a b : Bool} {s : σ}
    (hm : m s = some (a, s)) (hn : n s = some (b, s)) : andAlso m n s = some (a && b, s) := by
  refine eval_of_wp ?_
  rw [andAlso, wp_bind, wp_eval hm]
  cases a with
  | false => simp
  | true =>
    rw [if_pos rfl, wp_eval hn]
    simp

end Wp

section Wlp

variable {σ α β : Type u} {Q R : α → σ → Prop} {s : σ}

/-- Partial correctness: whatever `m` succeeds with is in `Q`. -/
def wlp (m : Prog σ α) (Q : α → σ → Prop) (s : σ) : Prop :=
  ∀ a s', m s = some (a, s') → Q a s'

@[simp] theorem wlp_pure (a : α) : wlp (pure a : Prog σ α) Q s ↔ Q a s := by
  constructor
  · intro h
    exact h a s rfl
  · rintro hQ b s' h
    cases h
    exact hQ

@[simp] theorem wlp_bind (m : Prog σ β) (f : β → Prog σ α) :
    wlp (m >>= f) Q s ↔ wlp m (fun b s' => wlp (f b) Q s') s := by
  constructor
  · intro h b t hm a s' hf
    exact h a s' (Option.bind_eq_some_iff.mpr ⟨(b, t), hm, hf⟩)
  · intro h a s' hmf
    rcases Option.bind_eq_some_iff.mp hmf with ⟨⟨b, t⟩, hm, hf⟩
    exact h b t hm a s' hf

@[simp] theorem wlp_map (m : Prog σ β) (f : β → α) :
    wlp (f <$> m) Q s ↔ wlp m (fun b s' => Q (f b) s') s := by
  rw [map_eq_pure_bind, wlp_bind]
  simp only [wlp_pure]

@[simp] theorem wlp_get {P : σ → σ → Prop} : wlp (get : Prog σ σ) P s ↔ P s s := by
  constructor
  · intro h
    exact h s s rfl
  · rintro hP b s' h
    cases h
    exact hP

@[simp] theorem wlp_modify {P : PUnit → σ → Prop} (f : σ → σ) :
    wlp (modify f : Prog σ PUnit) P s ↔ P ⟨⟩ (f s) := by
  constructor
  · intro h
    exact h ⟨⟩ (f s) rfl
  · rintro hP b s' h
    cases h
    exact hP

@[simp] theorem wlp_check {P : PUnit → σ → Prop} (b : Bool) :
    wlp (check b : Prog σ PUnit) P s ↔ (b = true → P ⟨⟩ s) := by
  constructor
  · rintro h rfl
    exact h ⟨⟩ s rfl
  · intro h a s' hrun
    cases b with
    | false => cases hrun
    | true =>
      cases hrun
      exact h rfl

@[simp] theorem wlp_failure : wlp (failure : Prog σ α) Q s := by
  intro a s' h
  cases h

theorem wlp_ite {p : Prop} [Decidable p] (m n : Prog σ α) :
    wlp (if p then m else n) Q s ↔ if p then wlp m Q s else wlp n Q s := by
  split <;> rfl

/-- A weaker postcondition. -/
theorem wlp.mono {m : Prog σ α} (h : wlp m Q s) (hQR : ∀ a s', Q a s' → R a s') : wlp m R s :=
  fun a s' hm => hQR a s' (h a s' hm)

/-- Two postconditions. -/
theorem wlp.and {m : Prog σ α} (hQ : wlp m Q s) (hR : wlp m R s) :
    wlp m (fun a s' => Q a s' ∧ R a s') s :=
  fun a s' hm => ⟨hQ a s' hm, hR a s' hm⟩

/-- A run that succeeds has both postconditions. -/
theorem wp.and_wlp {m : Prog σ α} (hQ : wp m Q s) (hR : wlp m R s) :
    wp m (fun a s' => Q a s' ∧ R a s') s := by
  rcases hQ with ⟨a, s', hm, h⟩
  exact ⟨a, s', hm, h, hR a s' hm⟩

/-- What a successful run shows. -/
theorem wlp.elim {m : Prog σ α} {a : α} {s' : σ} (h : wlp m Q s) (hm : m s = some (a, s')) :
    Q a s' :=
  h a s' hm

/-! ### What a program keeps -/

/-- Runs of `m` leave the part `f` of the state as it is. -/
def Keeps {τ : Type v} (f : σ → τ) (m : Prog σ α) : Prop :=
  ∀ s, wlp m (fun _ s' => f s' = f s) s

variable {τ : Type v} {f : σ → τ}

theorem Keeps.pure (a : α) : Keeps f (Pure.pure a : Prog σ α) :=
  fun _ => (wlp_pure a).mpr rfl

theorem Keeps.bind {m : Prog σ β} {g : β → Prog σ α} (hm : Keeps f m) (hg : ∀ b, Keeps f (g b)) :
    Keeps f (m >>= g) := by
  intro s
  rw [wlp_bind]
  refine (hm s).mono ?_
  intro b s₁ h₁
  exact (hg b s₁).mono fun _ _ h₂ => h₂.trans h₁

theorem Keeps.ite {p : Prop} [Decidable p] {m n : Prog σ α} (hm : Keeps f m) (hn : Keeps f n) :
    Keeps f (if p then m else n) := by
  split
  · exact hm
  · exact hn

end Wlp

/-! ## Runs -/

section Run

variable {σ : Type u} {τ : Type v} {α : Type w}

/-- If every operation succeeds from related states and keeps them related,
then so does every sequence of operations. -/
theorem run_simulation {step : σ → α → Option σ} {spec : τ → α → τ} {R : σ → τ → Prop}
    (hstep : ∀ s t a, R s t → ∃ s', step s a = some s' ∧ R s' (spec t a))
    (as : List α) {s : σ} {t : τ} (h : R s t) :
    ∃ s', as.foldlM step s = some s' ∧ R s' (as.foldl spec t) := by
  induction as generalizing s t with
  | nil => exact ⟨s, rfl, h⟩
  | cons a as ih =>
    rcases hstep s t a h with ⟨s₁, h₁, hR⟩
    rcases ih hR with ⟨s₂, h₂, hR'⟩
    refine ⟨s₂, ?_, hR'⟩
    rw [List.foldlM_cons, h₁]
    exact h₂

end Run

section Loop

variable {σ α β : Type u} {Inv : σ → Prop} {Le : σ → σ → Prop} {P : α → β → σ → Prop}

/-- A loop over a list, whose body keeps an invariant and lets the state grow. What is
known of earlier results stays true. -/
theorem wp_mapM {f : α → Prog σ β} (as : List α) (hrefl : ∀ s, Le s s)
    (htrans : ∀ s t u, Le s t → Le t u → Le s u)
    (hmono : ∀ a b s t, Le s t → P a b s → P a b t)
    (hf : ∀ a ∈ as, ∀ s, Inv s → wp (f a) (fun b t => Inv t ∧ Le s t ∧ P a b t) s) {s : σ}
    (hs : Inv s) :
    wp (as.mapM f) (fun bs t => Inv t ∧ Le s t ∧ List.Forall₂ (fun a b => P a b t) as bs) s := by
  induction as generalizing s with
  | nil =>
    rw [List.mapM_nil, wp_pure]
    exact ⟨hs, hrefl s, List.Forall₂.nil⟩
  | cons a as ih =>
    rw [List.mapM_cons, wp_bind]
    apply (hf a List.mem_cons_self s hs).mono
    intro b t ⟨ht, hst, hb⟩
    rw [wp_bind]
    apply (ih (fun a' ha' => hf a' (List.mem_cons_of_mem a ha')) ht).mono
    intro bs u ⟨hu, htu, hbs⟩
    rw [wp_pure]
    exact ⟨hu, htrans s t u hst htu, List.Forall₂.cons (hmono a b t u htu hb) hbs⟩

/-- A loop over the numbers below `n`, whose rounds keep an invariant of how far it is. -/
theorem wp_forM_range {f : ℕ → Prog σ PUnit} {I : ℕ → σ → Prop} {n : ℕ} {s : σ}
    (hf : ∀ i < n, ∀ s, I i s → wp (f i) (fun _ t => I (i + 1) t) s) (hs : I 0 s) :
    wp ((List.range n).forM f) (fun _ t => I n t) s := by
  induction n with
  | zero =>
    show wp (pure PUnit.unit : Prog σ PUnit) _ s
    rw [wp_pure]
    exact hs
  | succ n ih =>
    have hsplit : (List.range (n + 1)).forM f = ((List.range n).forM f >>= fun _ => f n) := by
      simp [List.range_succ]
    rw [hsplit, wp_bind]
    refine (ih fun i hi => hf i (Nat.lt_succ_of_lt hi)).mono fun _ t ht => ?_
    exact hf n (Nat.lt_succ_self n) t ht

/-- A loop that computes a value on the way. -/
theorem wp_foldlM_range {f : β → ℕ → Prog σ β} {I : ℕ → β → σ → Prop} {n : ℕ} {b : β} {s : σ}
    (hf : ∀ i < n, ∀ b s, I i b s → wp (f b i) (fun b' t => I (i + 1) b' t) s) (hs : I 0 b s) :
    wp ((List.range n).foldlM f b) (fun b' t => I n b' t) s := by
  induction n with
  | zero =>
    rw [List.range_zero, List.foldlM_nil, wp_pure]
    exact hs
  | succ n ih =>
    have hsplit : (List.range (n + 1)).foldlM f b =
        ((List.range n).foldlM f b >>= fun b' => f b' n) := by
      simp [List.range_succ]
    rw [hsplit, wp_bind]
    refine (ih fun i hi => hf i (Nat.lt_succ_of_lt hi)).mono fun b' t ht => ?_
    exact hf n (Nat.lt_succ_self n) b' t ht

end Loop

/-! ## Heaps -/

/-- Allocated cells by address; all of them lie below `bound`. -/
structure Heap (β : Type u) where
  cells : ℕ → Option β
  bound : ℕ
  fresh : ∀ p, bound ≤ p → cells p = none

namespace Heap

variable {β : Type u}

/-- The heap without cells. -/
def empty : Heap β := ⟨fun _ => none, 0, fun _ _ => rfl⟩

/-- The cell at `p`. -/
def get (h : Heap β) (p : ℕ) : Option β := h.cells p

/-- Change the cell at `p`, if there is one. -/
def modify (h : Heap β) (p : ℕ) (f : β → β) : Heap β where
  cells q := if q = p then (h.cells q).map f else h.cells q
  bound := h.bound
  fresh q hq := by simp [h.fresh q hq]

/-- Allocate `p` with the contents `b`. -/
def insert (h : Heap β) (p : ℕ) (b : β) : Heap β where
  cells q := if q = p then some b else h.cells q
  bound := max h.bound (p + 1)
  fresh q hq := by
    have hne : q ≠ p := by omega
    have hb : h.bound ≤ q := by omega
    simp [hne, h.fresh q hb]

/-- Release `p`. -/
def erase (h : Heap β) (p : ℕ) : Heap β where
  cells q := if q = p then none else h.cells q
  bound := h.bound
  fresh q hq := by simp [h.fresh q hq]

theorem get_modify (h : Heap β) (p q : ℕ) (f : β → β) :
    (h.modify p f).get q = if q = p then (h.get q).map f else h.get q := rfl

@[simp] theorem get_modify_self (h : Heap β) (p : ℕ) (f : β → β) :
    (h.modify p f).get p = (h.get p).map f := by
  simp [get_modify]

theorem get_modify_of_ne (h : Heap β) {p q : ℕ} (f : β → β) (hne : q ≠ p) :
    (h.modify p f).get q = h.get q := by
  simp [get_modify, hne]

@[simp] theorem get_insert_self (h : Heap β) (p : ℕ) (b : β) :
    (h.insert p b).get p = some b := by
  simp [get, insert]

theorem get_insert_of_ne (h : Heap β) {p q : ℕ} (b : β) (hne : q ≠ p) :
    (h.insert p b).get q = h.get q := by
  simp [get, insert, hne]

theorem get_erase_of_ne (h : Heap β) {p q : ℕ} (hne : q ≠ p) :
    (h.erase p).get q = h.get q := by
  simp [get, erase, hne]

theorem lt_bound {h : Heap β} {p : ℕ} {b : β} (hp : h.get p = some b) : p < h.bound := by
  by_contra hle
  simp [get, h.fresh p (not_lt.mp hle)] at hp

/-- Distinct allocated addresses: at most `bound` many. -/
theorem length_le_bound {h : Heap β} {ps : List ℕ} (hnd : ps.Nodup)
    (hall : ∀ p ∈ ps, ∃ b, h.get p = some b) : ps.length ≤ h.bound := by
  rw [← List.toFinset_card_of_nodup hnd, ← Finset.card_range h.bound]
  refine Finset.card_le_card ?_
  intro p hp
  rcases hall p (List.mem_toFinset.mp hp) with ⟨b, hb⟩
  exact Finset.mem_range.mpr (lt_bound hb)

end Heap

end Caver.Core
