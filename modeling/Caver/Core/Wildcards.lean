import Caver.Core.Regexp
import Mathlib.Computability.Language

/-!
# Caver.Core.Wildcards — patterns of characters and wildcards

* `Pattern`: a list of characters and of wildcards for one character or for any number.
* `language`: the texts that a pattern matches as a whole. `matchesPattern` decides it.
* `Pattern.regexp`: a pattern as a regular expression.
* `taking`: the patterns that are left when the end of a pattern has taken a character.
* `Stops`: before the last `many`s is another character, or nothing. Only such a `many`
  takes the character.
-/

namespace Caver.Core

inductive Wildcard (α : Type) where
  | one (a : α)
  | any
  | many
  deriving DecidableEq

abbrev Pattern (α : Type) := List (Wildcard α)

section Wildcards

variable {α : Type}

def Wildcard.language : Wildcard α → Language α
  | .one a => {t | t = [a]}
  | .any => {t | ∃ a, t = [a]}
  | .many => {_t | True}

/-- The parts of a text are matched one behind the other. -/
def language (p : Pattern α) : Language α := (p.map Wildcard.language).prod

@[simp] theorem mem_language_nil {t : List α} : t ∈ language [] ↔ t = [] := Iff.rfl

theorem language_cons (w : Wildcard α) (p : Pattern α) :
    language (w :: p) = w.language * language p := by
  rw [language, List.map_cons, List.prod_cons, language]

theorem language_concat (p : Pattern α) (w : Wildcard α) :
    language (p ++ [w]) = language p * w.language := by
  rw [language, List.map_append, List.prod_append, List.map_singleton, List.prod_singleton,
    language]

/-! ## Matching from the first character on -/

def matchesPattern [DecidableEq α] : Pattern α → List α → Bool
  | [], t => t.isEmpty
  | .one _ :: _, [] => false
  | .one a :: p, x :: t => x == a && matchesPattern p t
  | .any :: _, [] => false
  | .any :: p, _ :: t => matchesPattern p t
  | .many :: p, t => t.tails.any (matchesPattern p ·)

theorem mem_language_one {a : α} {p : Pattern α} {t : List α} :
    t ∈ language (.one a :: p) ↔ ∃ t', t = a :: t' ∧ t' ∈ language p := by
  rw [language_cons, Language.mem_mul]
  constructor
  · intro h
    rcases h with ⟨u, rfl, v, hv, rfl⟩
    exact ⟨v, rfl, hv⟩
  · intro h
    rcases h with ⟨v, rfl, hv⟩
    exact ⟨[a], rfl, v, hv, rfl⟩

theorem mem_language_any {p : Pattern α} {t : List α} :
    t ∈ language (.any :: p) ↔ ∃ a t', t = a :: t' ∧ t' ∈ language p := by
  rw [language_cons, Language.mem_mul]
  constructor
  · intro h
    rcases h with ⟨u, ⟨a, rfl⟩, v, hv, rfl⟩
    exact ⟨a, v, rfl, hv⟩
  · intro h
    rcases h with ⟨a, v, rfl, hv⟩
    exact ⟨[a], ⟨a, rfl⟩, v, hv, rfl⟩

theorem mem_language_many {p : Pattern α} {t : List α} :
    t ∈ language (.many :: p) ↔ ∃ t', t' <:+ t ∧ t' ∈ language p := by
  rw [language_cons, Language.mem_mul]
  constructor
  · intro h
    rcases h with ⟨u, -, v, hv, rfl⟩
    exact ⟨v, ⟨u, rfl⟩, hv⟩
  · intro h
    rcases h with ⟨v, ⟨u, rfl⟩, hv⟩
    exact ⟨u, trivial, v, hv, rfl⟩

theorem matchesPattern_iff [DecidableEq α] {p : Pattern α} {t : List α} :
    matchesPattern p t = true ↔ t ∈ language p := by
  induction p generalizing t with
  | nil => rw [matchesPattern, List.isEmpty_iff, mem_language_nil]
  | cons w p ih =>
    cases w with
    | one a =>
      rw [mem_language_one]
      cases t with
      | nil => simp [matchesPattern]
      | cons x t => simp [matchesPattern, ih, and_assoc]
    | any =>
      rw [mem_language_any]
      cases t with
      | nil => simp [matchesPattern]
      | cons x t => simp [matchesPattern, ih]
    | many =>
      rw [mem_language_many]
      simp [matchesPattern, ih]

/-- Without wildcards a pattern matches itself. -/
theorem mem_language_map_one {s t : List α} : t ∈ language (s.map .one) ↔ t = s := by
  induction s generalizing t with
  | nil => exact mem_language_nil
  | cons a s ih =>
    rw [List.map_cons, mem_language_one]
    simp only [ih, exists_eq_right]

/-! ## Patterns as regular expressions -/

def Wildcard.regexp [DecidableEq α] : Wildcard α → Regexp α
  | .one a => .one a
  | .any => .any
  | .many => .star .any

def Pattern.regexp [DecidableEq α] : Pattern α → Regexp α
  | [] => .epsilon
  | w :: p => .cat w.regexp (regexp p)

theorem matches_star_any {l x : Option α} (t : List α) :
    Regexp.Matches (.star .any) l t x := by
  induction t generalizing l with
  | nil => exact .done
  | cons a t ih =>
    have hone : Regexp.Matches .any l [a] (t.head?.or x) := .set rfl
    exact .more hone ih

theorem Wildcard.matches_regexp [DecidableEq α] {w : Wildcard α} {l x : Option α} {t : List α} :
    w.regexp.Matches l t x ↔ t ∈ w.language := by
  cases w with
  | one a =>
    rw [regexp, Regexp.one, Regexp.matches_set]
    constructor
    · rintro ⟨b, rfl, hb⟩
      rw [beq_iff_eq] at hb
      exact congrArg (fun b => [b]) hb
    · rintro rfl
      exact ⟨a, rfl, beq_self_eq_true a⟩
  | any =>
    rw [regexp, Regexp.any, Regexp.matches_set]
    constructor
    · rintro ⟨a, ha, -⟩
      exact ⟨a, ha⟩
    · rintro ⟨a, ha⟩
      exact ⟨a, ha, rfl⟩
  | many => exact iff_of_true (matches_star_any t) trivial

/-- Without assertions it does not matter what is on the sides. -/
theorem Pattern.matches_regexp [DecidableEq α] {p : Pattern α} {l x : Option α} {t : List α} :
    p.regexp.Matches l t x ↔ t ∈ language p := by
  induction p generalizing l t with
  | nil => rw [regexp, Regexp.matches_epsilon, mem_language_nil]
  | cons w p ih =>
    rw [regexp, Regexp.matches_cat, language_cons, Language.mem_mul]
    constructor
    · rintro ⟨t₁, t₂, rfl, h₁, h₂⟩
      exact ⟨t₁, Wildcard.matches_regexp.mp h₁, t₂, ih.mp h₂, rfl⟩
    · rintro ⟨t₁, h₁, t₂, h₂, rfl⟩
      exact ⟨t₁, t₂, rfl, Wildcard.matches_regexp.mpr h₁, ih.mpr h₂⟩

/-! ## The last character -/

theorem concat_mem_one {a x : α} {p : Pattern α} {t : List α} :
    t ++ [x] ∈ language (p ++ [.one a]) ↔ x = a ∧ t ∈ language p := by
  rw [language_concat, Language.mem_mul]
  constructor
  · intro h
    rcases h with ⟨u, hu, v, rfl, huv⟩
    obtain ⟨rfl, hx⟩ := List.append_inj' huv rfl
    exact ⟨(List.singleton_inj.mp hx).symm, hu⟩
  · intro h
    rcases h with ⟨rfl, ht⟩
    exact ⟨t, ht, [x], rfl, rfl⟩

theorem concat_mem_any {x : α} {p : Pattern α} {t : List α} :
    t ++ [x] ∈ language (p ++ [.any]) ↔ t ∈ language p := by
  rw [language_concat, Language.mem_mul]
  constructor
  · intro h
    rcases h with ⟨u, hu, v, ⟨a, rfl⟩, huv⟩
    obtain ⟨rfl, -⟩ := List.append_inj' huv rfl
    exact hu
  · intro ht
    exact ⟨t, ht, [x], ⟨x, rfl⟩, rfl⟩

theorem mem_language_concat_many {p : Pattern α} {t : List α} :
    t ∈ language (p ++ [.many]) ↔ ∃ t', t' <+: t ∧ t' ∈ language p := by
  rw [language_concat, Language.mem_mul]
  constructor
  · intro h
    rcases h with ⟨u, hu, v, -, rfl⟩
    exact ⟨u, ⟨v, rfl⟩, hu⟩
  · intro h
    rcases h with ⟨u, ⟨v, rfl⟩, hu⟩
    exact ⟨u, hu, v, trivial, rfl⟩

/-- A last `many` takes the character, or it stands for nothing. -/
theorem concat_mem_many {x : α} {p : Pattern α} {t : List α} :
    t ++ [x] ∈ language (p ++ [.many]) ↔
      t ∈ language (p ++ [.many]) ∨ t ++ [x] ∈ language p := by
  simp only [mem_language_concat_many, List.prefix_concat_iff]
  constructor
  · intro h
    rcases h with ⟨t', rfl | hpre, ht'⟩
    · exact Or.inr ht'
    · exact Or.inl ⟨t', hpre, ht'⟩
  · intro h
    rcases h with ⟨t', hpre, ht'⟩ | ht
    · exact ⟨t', Or.inr hpre, ht'⟩
    · exact ⟨t ++ [x], Or.inl rfl, ht⟩

/-- The patterns left by a character, of a pattern that is read from its end. -/
def takingEnd [DecidableEq α] (x : α) : Pattern α → List (Pattern α)
  | [] => []
  | .one a :: p => if x = a then [p] else []
  | .any :: p => [p]
  | .many :: p => (.many :: p) :: takingEnd x p

/-- What is left to match before a last character. -/
def taking [DecidableEq α] (x : α) (p : Pattern α) : List (Pattern α) :=
  (takingEnd x p.reverse).map List.reverse

/-- A text with one more character is matched as what is left of the pattern matches it
without. -/
theorem concat_mem_iff [DecidableEq α] {x : α} {p : Pattern α} {t : List α} :
    t ++ [x] ∈ language p ↔ ∃ q ∈ taking x p, t ∈ language q := by
  induction p using List.reverseRecOn with
  | nil => simp [taking, takingEnd]
  | append_singleton p w ih =>
    cases w with
    | one a =>
      rw [concat_mem_one]
      by_cases hx : x = a
      · simp [taking, takingEnd, hx]
      · simp [taking, takingEnd, hx]
    | any =>
      rw [concat_mem_any]
      simp [taking, takingEnd]
    | many =>
      rw [concat_mem_many, ih]
      simp [taking, takingEnd]

/-- Before the last `many`s is a character other than `x`, or nothing. -/
def Stops (x : α) (p : Pattern α) : Prop :=
  ∃ q n, p = q ++ List.replicate n .many ∧ (q = [] ∨ ∃ q' a, q = q' ++ [.one a] ∧ x ≠ a)

/-- Such a pattern takes the character with a last `many`, and matches then without it, too. -/
theorem Stops.concat_mem_iff {x : α} {p : Pattern α} (h : Stops x p) {t : List α} :
    t ++ [x] ∈ language p ↔ p.getLast? = some .many ∧ t ∈ language p := by
  rcases h with ⟨q, n, rfl, hq⟩
  have hstop : t ++ [x] ∉ language q := by
    rcases hq with rfl | ⟨q', a, rfl, hxa⟩
    · simp
    · rw [concat_mem_one]
      exact fun h => hxa h.1
  induction n with
  | zero =>
    rw [List.replicate_zero, List.append_nil]
    constructor
    · intro h
      exact absurd h hstop
    · intro h
      rcases hq with rfl | ⟨q', a, rfl, -⟩
      · simp at h
      · simp at h
  | succ n ih =>
    rw [List.replicate_succ', ← List.append_assoc, concat_mem_many, List.getLast?_concat]
    constructor
    · intro h
      refine ⟨rfl, ?_⟩
      rcases h with ht | htaken
      · exact ht
      · have ht := (ih.mp htaken).2
        exact mem_language_concat_many.mpr ⟨t, List.prefix_refl t, ht⟩
    · intro h
      exact Or.inl h.2

end Wildcards

end Caver.Core
