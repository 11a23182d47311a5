import Mathlib.Data.List.Infix
import Caver.Core.Wildcards

/-!
# Caver.Core.Placement — pieces of a text, each at its first place

A pattern whose only wildcard is `many` is a list of pieces. A search that puts each piece
where it first occurs behind the one before finds the shortest text that is matched.

* `behind`: the pattern of some pieces, with any text before each. `place` searches for them.
* `Leftmost`: what such a search has found out about the texts that start a text.
* `Leftmost.open_iff`, `Leftmost.closed_iff`: a text whose start is matched, and one that is
  matched as a whole, if no start of it is.
-/

namespace Caver.Core

section Placement

variable {α : Type} {c t u s : List α} {cs : List (List α)} {p : Pattern α}
  {found : Option (List α)}

/-! ## Pieces -/

/-- The characters of a piece. -/
def ones (c : List α) : Pattern α := c.map .one

theorem mem_language_ones : t ∈ language (ones c ++ p) ↔ ∃ t', t = c ++ t' ∧ t' ∈ language p := by
  induction c generalizing t with
  | nil => simp [ones]
  | cons a c ih =>
    rw [ones, List.map_cons, List.cons_append, mem_language_one]
    constructor
    · intro h
      rcases h with ⟨t', rfl, ht'⟩
      rcases ih.mp ht' with ⟨t'', rfl, ht''⟩
      exact ⟨t'', rfl, ht''⟩
    · intro h
      rcases h with ⟨t', rfl, ht'⟩
      exact ⟨c ++ t', rfl, ih.mpr ⟨t', rfl, ht'⟩⟩

def behind : List (List α) → Pattern α
  | [] => []
  | c :: cs => .many :: (ones c ++ behind cs)

theorem mem_behind_cons :
    t ∈ language (behind (c :: cs)) ↔ ∃ a t', t = a ++ (c ++ t') ∧ t' ∈ language (behind cs) := by
  rw [behind, mem_language_many]
  constructor
  · intro h
    rcases h with ⟨t', ⟨a, rfl⟩, ht'⟩
    rcases mem_language_ones.mp ht' with ⟨t'', rfl, ht''⟩
    exact ⟨a, t'', rfl, ht''⟩
  · intro h
    rcases h with ⟨a, t', rfl, ht'⟩
    exact ⟨c ++ t', ⟨a, rfl⟩, mem_language_ones.mpr ⟨t', rfl, ht'⟩⟩

/-- More may stand before the first piece. -/
theorem behind_absorbs (hcs : cs ≠ []) (ht : t ∈ language (behind cs)) (hsuffix : t <:+ u) :
    u ∈ language (behind cs) := by
  cases cs with
  | nil => exact absurd rfl hcs
  | cons c cs =>
    rcases mem_behind_cons.mp ht with ⟨a, t', rfl, ht'⟩
    rcases hsuffix with ⟨b, rfl⟩
    exact mem_behind_cons.mpr ⟨b ++ a, t', by rw [List.append_assoc], ht'⟩

/-! ## The shortest start that is matched -/

/-- The text behind the shortest start that the pattern matches, if there is one. -/
def Leftmost (p : Pattern α) (s : List α) : Option (List α) → Prop
  | some rest => ∃ u, s = u ++ rest ∧ u ∈ language p ∧
      ∀ u', u' <+: s → u' ∈ language p → u.length ≤ u'.length
  | none => ∀ u, u <+: s → u ∉ language p

/-- The search goes on behind `a`. -/
theorem Leftmost.behind {q : Pattern α} {a : List α}
    (h : Leftmost q s found) (hmatch : ∀ u, u ∈ language q → a ++ u ∈ language p)
    (hleast : ∀ u', u' <+: a ++ s → u' ∈ language p →
      ∃ u, u <+: s ∧ u ∈ language q ∧ a.length + u.length ≤ u'.length) :
    Leftmost p (a ++ s) found := by
  cases found with
  | none =>
    intro u' hpre hu'
    rcases hleast u' hpre hu' with ⟨u, hu, hmem, -⟩
    exact h u hu hmem
  | some rest =>
    rcases h with ⟨u, rfl, hu, hmin⟩
    refine ⟨a ++ u, by rw [List.append_assoc], hmatch u hu, ?_⟩
    intro u' hpre hu'
    rcases hleast u' hpre hu' with ⟨v, hv, hmem, hlen⟩
    have hle := hmin v hv hmem
    rw [List.length_append]
    omega

/-- Some start is matched. -/
theorem Leftmost.open_iff (h : Leftmost p s found) :
    found.isSome = true ↔ s ∈ language (p ++ [.many]) := by
  rw [mem_language_concat_many]
  cases found with
  | none =>
    constructor
    · intro hsome
      cases hsome
    · intro hu
      rcases hu with ⟨u, hpre, hu⟩
      exact absurd hu (h u hpre)
  | some rest =>
    rcases h with ⟨u, rfl, hu, -⟩
    exact ⟨fun _ => ⟨u, ⟨rest, rfl⟩, hu⟩, fun _ => rfl⟩

/-- The whole is matched, and no shorter start is. -/
theorem Leftmost.closed_iff (h : Leftmost p s found) :
    found = some [] ↔ s ∈ language p ∧ ∀ u, u <+: s → u ∈ language p → u = s := by
  cases found with
  | none =>
    constructor
    · intro hnone
      cases hnone
    · intro hs
      exact absurd hs.1 (h s (List.prefix_refl s))
  | some rest =>
    rcases h with ⟨u, rfl, hu, hleast⟩
    rw [Option.some_inj]
    constructor
    · rintro rfl
      rw [List.append_nil] at hleast ⊢
      refine ⟨hu, ?_⟩
      intro u' hpre hu'
      exact hpre.eq_of_length_le (hleast u' hpre hu')
    · intro hs
      have hwhole := hs.2 u (List.prefix_append u rest) hu
      exact List.self_eq_append_right.mp hwhole

/-! ## The first place of a piece -/

/-- What stands behind a later place of `c` ends what stands behind an earlier one. -/
theorem exists_behind {a b rest : List α} (hle : a.length ≤ b.length)
    (hpre : b ++ (c ++ t) <+: a ++ c ++ rest) :
    ∃ w, a ++ c ++ w = b ++ (c ++ t) ∧ t <:+ w := by
  have hcut : a ++ c <+: b ++ (c ++ t) := by
    apply List.prefix_of_prefix_length_le (List.prefix_append (a ++ c) rest) hpre
    simp only [List.length_append]
    omega
  rcases hcut with ⟨w, hw⟩
  have ht : t <:+ b ++ (c ++ t) :=
    (List.suffix_append c t).trans (List.suffix_append b (c ++ t))
  have hw' : w <:+ b ++ (c ++ t) := ⟨a ++ c, hw⟩
  have hlength := congrArg List.length hw
  simp only [List.length_append] at hlength
  exact ⟨w, hw, List.suffix_of_suffix_length_le ht hw' (by omega)⟩

variable [DecidableEq α]

def firstOccurrence (c s : List α) : Option ℕ :=
  (List.range (s.length + 1)).find? fun i => c.isPrefixOf (s.drop i)

theorem isPrefixOf_append (c t : List α) : c.isPrefixOf (c ++ t) = true :=
  List.isPrefixOf_iff_prefix.mpr (List.prefix_append c t)

/-- What follows the first occurrence, and no occurrence is earlier. -/
theorem firstOccurrence_some {i : ℕ} (h : firstOccurrence c s = some i) :
    (∃ a, a.length = i ∧ s = a ++ (c ++ s.drop (i + c.length))) ∧
      ∀ a t, s = a ++ (c ++ t) → i ≤ a.length := by
  rw [firstOccurrence, List.find?_range_eq_some] at h
  rcases h with ⟨hstarts, hi, hfirst⟩
  rw [List.isPrefixOf_iff_prefix] at hstarts
  constructor
  · refine ⟨s.take i, ?_, ?_⟩
    · rw [List.mem_range] at hi
      rw [List.length_take]
      omega
    · rcases hstarts with ⟨t, ht⟩
      have hdrop : s.drop (i + c.length) = t := by
        rw [← List.drop_drop, ← ht, List.drop_left]
      rw [hdrop, ht, List.take_append_drop]
  · intro a t heq
    by_contra hlt
    have hearlier := hfirst a.length (Nat.lt_of_not_le hlt)
    rw [heq, List.drop_left, isPrefixOf_append] at hearlier
    cases hearlier

theorem firstOccurrence_none (h : firstOccurrence c s = none) (a t : List α) :
    s ≠ a ++ (c ++ t) := by
  rw [firstOccurrence, List.find?_range_eq_none] at h
  rintro rfl
  have hlt : a.length < (a ++ (c ++ t)).length + 1 := by
    rw [List.length_append]
    omega
  have hat := h a.length hlt
  rw [List.drop_left, isPrefixOf_append] at hat
  cases hat

/-- The empty piece occurs at once. -/
theorem firstOccurrence_nil (s : List α) : firstOccurrence [] s = some 0 := by
  simp [firstOccurrence]

/-- The piece stands at the start. -/
theorem firstOccurrence_eq_zero : firstOccurrence c s = some 0 ↔ c <+: s := by
  constructor
  · intro h
    rcases firstOccurrence_some h with ⟨⟨a, hlen, heq⟩, -⟩
    rw [List.length_eq_zero_iff.mp hlen, List.nil_append] at heq
    exact ⟨_, heq.symm⟩
  · intro h
    rw [firstOccurrence, List.find?_range_eq_some]
    refine ⟨?_, ?_, ?_⟩
    · rwa [List.drop_zero, List.isPrefixOf_iff_prefix]
    · rw [List.mem_range]
      exact Nat.succ_pos _
    · intro j hj
      exact absurd hj (Nat.not_lt_zero j)

/-! ## The search -/

/-- What follows the pieces, each at its first place. -/
def place : List (List α) → List α → Option (List α)
  | [], s => some s
  | c :: cs, s => (firstOccurrence c s).bind fun i => place cs (s.drop (i + c.length))

/-- The first piece stands at the start. -/
def placeAt (c : List α) (cs : List (List α)) (s : List α) : Option (List α) :=
  if c <+: s then place cs (s.drop c.length) else none

/-- The search finds the shortest start that is matched. -/
theorem place_leftmost (cs : List (List α)) (s : List α) :
    Leftmost (behind cs) s (place cs s) := by
  induction cs generalizing s with
  | nil => exact ⟨[], rfl, rfl, fun u' _ _ => Nat.zero_le _⟩
  | cons c cs ih =>
    rw [place]
    cases hocc : firstOccurrence c s with
    | none =>
      intro u hpre hu
      rcases mem_behind_cons.mp hu with ⟨a, t, rfl, -⟩
      rcases hpre with ⟨b, hb⟩
      rw [List.append_assoc, List.append_assoc] at hb
      exact firstOccurrence_none hocc a (t ++ b) hb.symm
    | some i =>
      rw [Option.bind_some]
      rcases firstOccurrence_some hocc with ⟨⟨a, hlen, heq⟩, hfirst⟩
      generalize s.drop (i + c.length) = rest at heq
      subst heq
      rw [← List.append_assoc]
      refine (ih rest).behind ?_ ?_
      · intro u hu
        exact mem_behind_cons.mpr ⟨a, u, by rw [List.append_assoc], hu⟩
      · intro u' hpre hu'
        rcases mem_behind_cons.mp hu' with ⟨b, t, rfl, ht⟩
        have hle : a.length ≤ b.length := by
          rcases hpre with ⟨b', hb'⟩
          rw [hlen]
          apply hfirst b (t ++ b')
          rw [← List.append_assoc, ← hb', List.append_assoc, List.append_assoc]
        by_cases hcs : cs = []
        · refine ⟨[], List.nil_prefix, ?_, ?_⟩
          · rw [hcs]
            rfl
          · simp only [List.length_append, List.length_nil]
            omega
        · -- the rest of the start is matched, as what comes first may be skipped
          rcases exists_behind hle hpre with ⟨w, hw, hsuffix⟩
          rw [← hw] at hpre ⊢
          refine ⟨w, (List.prefix_append_right_inj (a ++ c)).mp hpre,
            behind_absorbs hcs ht hsuffix, ?_⟩
          exact Nat.le_of_eq List.length_append.symm

/-- And so it does if the first piece stands at the start. -/
theorem placeAt_leftmost (c : List α) (cs : List (List α)) (s : List α) :
    Leftmost (ones c ++ behind cs) s (placeAt c cs s) := by
  unfold placeAt
  split
  · next hc =>
    rcases hc with ⟨rest, rfl⟩
    rw [List.drop_left]
    refine (place_leftmost cs rest).behind ?_ ?_
    · intro u hu
      exact mem_language_ones.mpr ⟨u, rfl, hu⟩
    · intro u' hpre hu'
      rcases mem_language_ones.mp hu' with ⟨t, rfl, ht⟩
      refine ⟨t, (List.prefix_append_right_inj c).mp hpre, ht, ?_⟩
      rw [List.length_append]
  · next hc =>
    intro u hpre hu
    rcases mem_language_ones.mp hu with ⟨t, rfl, -⟩
    exact hc ((List.prefix_append c t).trans hpre)

end Placement

end Caver.Core
