import Mathlib.Data.List.Basic

/-!
# Caver.Core.Regexp — regular expressions with assertions

Sets of characters, concatenation, alternatives and repetition, and assertions
about the characters on both sides of a place, such as anchors. A text is
matched between two characters, which are none at the ends of the whole text.

* `Matches r l t x`: the expression matches `t` between `l` and `x`.
* `Search r t`: it matches somewhere in `t`.
* `before c r`: what is left of the expression when `c` is the last character
  that it has taken (`matches_concat_iff`).
* `Overruns c r t`: what it takes to be found in `t` with a `c` behind it, in
  terms of `t` and of what is left of the expression (`search_concat_iff`).
-/

namespace Caver.Core

inductive Regexp (α : Type) where
  | set (S : α → Bool)
  | assert (P : Option α → Option α → Bool)
  | cat (r₁ r₂ : Regexp α)
  | alt (r₁ r₂ : Regexp α)
  | star (r : Regexp α)

namespace Regexp

variable {α : Type} {r r₁ r₂ : Regexp α} {l x : Option α} {t t₁ t₂ : List α} {c : α}

/-- The expression matches the text between the two characters. -/
inductive Matches : Regexp α → Option α → List α → Option α → Prop
  | set {S : α → Bool} {a : α} {l x : Option α} : S a = true → Matches (.set S) l [a] x
  | assert {P : Option α → Option α → Bool} {l x : Option α} :
      P l x = true → Matches (.assert P) l [] x
  | cat {r₁ r₂ : Regexp α} {l x : Option α} {t₁ t₂ : List α} :
      Matches r₁ l t₁ (t₂.head?.or x) → Matches r₂ (t₁.getLast?.or l) t₂ x →
      Matches (.cat r₁ r₂) l (t₁ ++ t₂) x
  | left {r₁ r₂ : Regexp α} {l x : Option α} {t : List α} :
      Matches r₁ l t x → Matches (.alt r₁ r₂) l t x
  | right {r₁ r₂ : Regexp α} {l x : Option α} {t : List α} :
      Matches r₂ l t x → Matches (.alt r₁ r₂) l t x
  | done {r : Regexp α} {l x : Option α} : Matches (.star r) l [] x
  | more {r : Regexp α} {l x : Option α} {t₁ t₂ : List α} :
      Matches r l t₁ (t₂.head?.or x) → Matches (.star r) (t₁.getLast?.or l) t₂ x →
      Matches (.star r) l (t₁ ++ t₂) x

/-! ## Expressions by their parts -/

@[simp] theorem matches_set {S : α → Bool} :
    Matches (.set S) l t x ↔ ∃ a, t = [a] ∧ S a = true := by
  constructor
  · intro h
    cases h with
    | set hS => exact ⟨_, rfl, hS⟩
  · rintro ⟨a, rfl, hS⟩
    exact .set hS

@[simp] theorem matches_assert {P : Option α → Option α → Bool} :
    Matches (.assert P) l t x ↔ t = [] ∧ P l x = true := by
  constructor
  · intro h
    cases h with
    | assert hP => exact ⟨rfl, hP⟩
  · rintro ⟨rfl, hP⟩
    exact .assert hP

theorem matches_cat : Matches (.cat r₁ r₂) l t x ↔ ∃ t₁ t₂, t = t₁ ++ t₂ ∧
    Matches r₁ l t₁ (t₂.head?.or x) ∧ Matches r₂ (t₁.getLast?.or l) t₂ x := by
  constructor
  · intro h
    cases h with
    | cat h₁ h₂ => exact ⟨_, _, rfl, h₁, h₂⟩
  · rintro ⟨t₁, t₂, rfl, h₁, h₂⟩
    exact .cat h₁ h₂

@[simp] theorem matches_alt :
    Matches (.alt r₁ r₂) l t x ↔ Matches r₁ l t x ∨ Matches r₂ l t x := by
  constructor
  · intro h
    cases h with
    | left h => exact Or.inl h
    | right h => exact Or.inr h
  · rintro (h | h)
    · exact .left h
    · exact .right h

/-- Nothing, and it always matches. -/
def epsilon : Regexp α := .assert fun _ _ => true

/-- No text. -/
def fail : Regexp α := .set fun _ => false

def one [DecidableEq α] (a : α) : Regexp α := .set (· == a)

def any : Regexp α := .set fun _ => true

/-- The beginning of the whole text. -/
def bol : Regexp α := .assert fun l _ => l.isNone

/-- The end of the whole text. -/
def eol : Regexp α := .assert fun _ x => x.isNone

@[simp] theorem matches_epsilon : Matches epsilon l t x ↔ t = [] := by
  simp [epsilon]

@[simp] theorem matches_fail : ¬ Matches fail l t x := by
  simp [fail]

/-- What an assertion in front adds. -/
theorem matches_assert_cat {P : Option α → Option α → Bool} :
    Matches (.cat (.assert P) r) l t x ↔ P l (t.head?.or x) = true ∧ Matches r l t x := by
  rw [matches_cat]
  constructor
  · rintro ⟨t₁, t₂, rfl, h₁, h₂⟩
    rcases matches_assert.mp h₁ with ⟨rfl, hP⟩
    exact ⟨hP, h₂⟩
  · rintro ⟨hP, h⟩
    exact ⟨[], t, rfl, .assert hP, h⟩

/-- What follows may be put for what matches the same texts. -/
theorem matches_cat_congr {r₃ : Regexp α}
    (h : ∀ l t x, Matches r₂ l t x ↔ Matches r₃ l t x) :
    Matches (.cat r₁ r₂) l t x ↔ Matches (.cat r₁ r₃) l t x := by
  simp only [matches_cat, h]

/-- What an assertion behind adds. -/
theorem matches_cat_assert {P : Option α → Option α → Bool} :
    Matches (.cat r (.assert P)) l t x ↔ Matches r l t x ∧ P (t.getLast?.or l) x = true := by
  rw [matches_cat]
  constructor
  · rintro ⟨t₁, t₂, rfl, h₁, h₂⟩
    rcases matches_assert.mp h₂ with ⟨rfl, hP⟩
    rw [List.append_nil]
    exact ⟨h₁, hP⟩
  · rintro ⟨h, hP⟩
    exact ⟨t, [], (List.append_nil t).symm, h, .assert hP⟩

theorem head?_or_append (t₁ t₂ : List α) (x : Option α) :
    (t₁ ++ t₂).head?.or x = t₁.head?.or (t₂.head?.or x) := by
  rw [List.head?_append, Option.or_assoc]

theorem getLast?_or_append (t₁ t₂ : List α) (l : Option α) :
    (t₁ ++ t₂).getLast?.or l = t₂.getLast?.or (t₁.getLast?.or l) := by
  rw [List.getLast?_append, Option.or_assoc]

theorem matches_cat_assoc {r₃ : Regexp α} :
    Matches (.cat (.cat r₁ r₂) r₃) l t x ↔ Matches (.cat r₁ (.cat r₂ r₃)) l t x := by
  simp only [matches_cat]
  constructor
  · rintro ⟨_, t₃, rfl, ⟨t₁, t₂, rfl, h₁, h₂⟩, h₃⟩
    rw [← head?_or_append] at h₁
    rw [getLast?_or_append] at h₃
    exact ⟨t₁, t₂ ++ t₃, List.append_assoc _ _ _, h₁, t₂, t₃, rfl, h₂, h₃⟩
  · rintro ⟨t₁, _, rfl, h₁, t₂, t₃, rfl, h₂, h₃⟩
    rw [head?_or_append] at h₁
    rw [← getLast?_or_append] at h₃
    exact ⟨t₁ ++ t₂, t₃, (List.append_assoc _ _ _).symm, ⟨t₁, t₂, rfl, h₁, h₂⟩, h₃⟩

/-! ## The empty text -/

/-- Whether the empty text is matched between two characters. -/
def nullable : Regexp α → Option α → Option α → Bool
  | .set _, _, _ => false
  | .assert P, l, x => P l x
  | .cat r₁ r₂, l, x => nullable r₁ l x && nullable r₂ l x
  | .alt r₁ r₂, l, x => nullable r₁ l x || nullable r₂ l x
  | .star _, _, _ => true

theorem nullable_iff : nullable r l x = true ↔ Matches r l [] x := by
  induction r with
  | set S => simp [nullable]
  | assert P => simp [nullable]
  | cat r₁ r₂ ih₁ ih₂ =>
    rw [nullable, Bool.and_eq_true, ih₁, ih₂, matches_cat]
    constructor
    · rintro ⟨h₁, h₂⟩
      exact ⟨[], [], rfl, h₁, h₂⟩
    · rintro ⟨t₁, t₂, h, h₁, h₂⟩
      rcases List.append_eq_nil_iff.mp h.symm with ⟨rfl, rfl⟩
      exact ⟨h₁, h₂⟩
  | alt r₁ r₂ ih₁ ih₂ => rw [nullable, Bool.or_eq_true, ih₁, ih₂, matches_alt]
  | star r ih => exact iff_of_true rfl .done

/-! ## The last character -/

/-- What is left of an expression that has taken `c` last, in front of `x`. -/
def before (c : α) (x : Option α) : Regexp α → Regexp α
  | .set S => .assert fun _ _ => S c
  | .assert _ => fail
  | .cat r₁ r₂ =>
    .alt (.cat r₁ (before c x r₂))
      (if nullable r₂ (some c) x then before c x r₁ else fail)
  | .alt r₁ r₂ => .alt (before c x r₁) (before c x r₂)
  | .star r => .cat (.star r) (before c x r)

/-- One repetition more at the end. -/
theorem Matches.concat_star (h : Matches (.star r) l t₁ (t₂.head?.or x))
    (hr : Matches r (t₁.getLast?.or l) t₂ x) : Matches (.star r) l (t₁ ++ t₂) x := by
  generalize hs : Regexp.star r = s at h
  generalize hy : t₂.head?.or x = y at h
  induction h with
  | set | assert | cat | left | right => cases hs
  | done =>
    cases hs
    have hlast : Matches (.star r) _ (_ ++ []) x := .more hr .done
    rwa [List.append_nil] at hlast
  | more h₁ _ _ ih =>
    cases hs
    subst hy
    rw [← head?_or_append] at h₁
    rw [getLast?_or_append] at hr
    rw [List.append_assoc]
    exact .more h₁ (ih hr rfl rfl)

/-- The repetition that takes the last character. -/
theorem Matches.last_star (h : Matches (.star r) l (t ++ [c]) x) :
    ∃ t₁ t₂, t = t₁ ++ t₂ ∧ Matches (.star r) l t₁ (t₂.head?.or (some c)) ∧
      Matches r (t₁.getLast?.or l) (t₂ ++ [c]) x := by
  generalize hs : Regexp.star r = s at h
  generalize hu : t ++ [c] = u at h
  induction h generalizing t with
  | set | assert | cat | left | right => cases hs
  | done => simp at hu
  | @more r l x u₁ u₂ h₁ h₂ _ ih =>
    cases hs
    rcases List.eq_nil_or_concat u₂ with rfl | ⟨u, d, rfl⟩
    · -- the rest repeats over nothing
      rw [List.append_nil] at hu
      subst hu
      exact ⟨[], t, rfl, .done, h₁⟩
    · rw [List.concat_eq_append, ← List.append_assoc] at hu
      rcases List.append_inj' hu rfl with ⟨rfl, hc⟩
      cases hc
      rcases ih rfl (List.concat_eq_append.symm) with ⟨v₁, v₂, rfl, hv₁, hv₂⟩
      refine ⟨u₁ ++ v₁, v₂, (List.append_assoc _ _ _).symm, .more ?_ hv₁, ?_⟩
      · rw [List.concat_eq_append, List.append_assoc, head?_or_append, head?_or_append] at h₁
        exact h₁
      · rw [getLast?_or_append]
        exact hv₂

/-- A text with one more character is matched as what is left of the expression
matches it without. -/
theorem matches_concat_iff :
    Matches r l (t ++ [c]) x ↔ Matches (before c x r) l t (some c) := by
  induction r generalizing l t x with
  | set S =>
    rw [matches_set, before, matches_assert]
    constructor
    · rintro ⟨a, ha, hS⟩
      rcases List.append_eq_singleton_iff.mp ha with ⟨rfl, hc⟩ | ⟨-, hc⟩
      · cases hc
        exact ⟨rfl, hS⟩
      · cases hc
    · rintro ⟨rfl, hS⟩
      exact ⟨c, rfl, hS⟩
  | assert P => simp [before]
  | cat r₁ r₂ ih₁ ih₂ =>
    rw [before, matches_alt, matches_cat, matches_cat]
    constructor
    · rintro ⟨t₁, t₂, ht, h₁, h₂⟩
      rcases List.eq_nil_or_concat t₂ with rfl | ⟨u, d, rfl⟩
      · -- the second part takes nothing
        rw [List.append_nil] at ht
        subst ht
        rw [List.getLast?_concat, Option.some_or, ← nullable_iff] at h₂
        rw [if_pos h₂]
        exact Or.inr (ih₁.mp h₁)
      · rw [List.concat_eq_append, ← List.append_assoc] at ht
        rcases List.append_inj' ht rfl with ⟨rfl, hc⟩
        cases hc
        rw [List.concat_eq_append] at h₁ h₂
        rw [head?_or_append] at h₁
        exact Or.inl ⟨t₁, u, rfl, h₁, ih₂.mp h₂⟩
    · rintro (⟨t₁, t₂, rfl, h₁, h₂⟩ | h)
      · refine ⟨t₁, t₂ ++ [c], List.append_assoc _ _ _, ?_, ih₂.mpr h₂⟩
        rw [head?_or_append]
        exact h₁
      · split at h
        · next hnull =>
          refine ⟨t ++ [c], [], (List.append_nil _).symm, ih₁.mpr h, ?_⟩
          rw [List.getLast?_concat, Option.some_or]
          exact nullable_iff.mp hnull
        · exact absurd h matches_fail
  | alt r₁ r₂ ih₁ ih₂ => simp only [before, matches_alt, ih₁, ih₂]
  | star r ih =>
    rw [before, matches_cat]
    constructor
    · intro h
      rcases h.last_star with ⟨t₁, t₂, rfl, h₁, h₂⟩
      exact ⟨t₁, t₂, rfl, h₁, ih.mp h₂⟩
    · rintro ⟨t₁, t₂, rfl, h₁, h₂⟩
      rw [List.append_assoc]
      refine Matches.concat_star ?_ (ih.mpr h₂)
      rw [head?_or_append]
      exact h₁

/-! ## Searching -/

/-- The expression matches somewhere in the text. -/
def Search (r : Regexp α) (t : List α) : Prop :=
  ∃ u v w, t = u ++ (v ++ w) ∧ Matches r u.getLast? v w.head?

/-- Between anchors the whole text is matched. -/
theorem search_anchored : Search (.cat (.cat .bol r) .eol) t ↔ Matches r none t none := by
  rw [Search]
  constructor
  · rintro ⟨u, v, w, rfl, h⟩
    rw [eol, matches_cat_assert, bol, matches_assert_cat] at h
    rcases h with ⟨⟨hu, h⟩, hw⟩
    rw [Option.isNone_iff_eq_none, List.getLast?_eq_none_iff] at hu
    rw [Option.isNone_iff_eq_none, List.head?_eq_none_iff] at hw
    subst hu hw
    rw [List.nil_append, List.append_nil]
    exact h
  · intro h
    refine ⟨[], t, [], by simp, ?_⟩
    rw [eol, matches_cat_assert, bol, matches_assert_cat]
    exact ⟨⟨rfl, h⟩, rfl⟩

/-- The expression is found in the text with `c` behind it: in front of `c`, or
with `c` as its last character, or behind it. -/
def Overruns (c : α) (r : Regexp α) (t : List α) : Prop :=
  (∃ u v w, t = u ++ (v ++ w) ∧ Matches r u.getLast? v (w.head?.or (some c))) ∨
    (∃ u v, t = u ++ v ∧ Matches (before c none r) u.getLast? v (some c)) ∨
    nullable r (some c) none = true

theorem search_concat_iff : Search r (t ++ [c]) ↔ Overruns c r t := by
  constructor
  · rintro ⟨u, v, w, ht, h⟩
    rcases List.eq_nil_or_concat w with rfl | ⟨w, d, rfl⟩
    · rcases List.eq_nil_or_concat v with rfl | ⟨v, d, rfl⟩
      · -- the empty text behind all
        rw [List.append_nil, List.append_nil] at ht
        rw [← ht, List.getLast?_concat] at h
        exact Or.inr (Or.inr (nullable_iff.mpr h))
      · rw [List.append_nil, List.concat_eq_append, ← List.append_assoc] at ht
        rcases List.append_inj' ht rfl with ⟨rfl, hc⟩
        cases hc
        rw [List.concat_eq_append] at h
        exact Or.inr (Or.inl ⟨u, v, rfl, matches_concat_iff.mp h⟩)
    · rw [List.concat_eq_append, ← List.append_assoc, ← List.append_assoc] at ht
      rcases List.append_inj' ht rfl with ⟨rfl, hc⟩
      cases hc
      rw [List.concat_eq_append, List.head?_append] at h
      exact Or.inl ⟨u, v, w, List.append_assoc _ _ _, h⟩
  · rintro (⟨u, v, w, rfl, h⟩ | ⟨u, v, rfl, h⟩ | h)
    · refine ⟨u, v, w ++ [c], by simp, ?_⟩
      rw [List.head?_append]
      exact h
    · exact ⟨u, v ++ [c], [], by simp, matches_concat_iff.mpr h⟩
    · refine ⟨t ++ [c], [], [], by simp, ?_⟩
      rw [List.getLast?_concat]
      exact nullable_iff.mp h

end Regexp

end Caver.Core
