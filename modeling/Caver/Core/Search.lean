import Mathlib.Data.List.Perm.Subperm
import Mathlib.Logic.Relation

/-!
# Caver.Core.Search — depth-first search for a successor

A search that visits the nodes of a finite graph once, and stops when it meets a
successor that is a goal.

* `search`, `searchAll`: the recursion and its loop over successors, with a bound
  on the depth. They return the visited nodes.
* `Searched`: what a search that returns has found out.
* `search_eq`: with enough depth a search returns, and finds a goal if
  there is one to be reached.
* `search_avoiding`: from visited nodes on, it finds what can be reached without them.
-/

namespace Caver.Core

open Relation

section Search

variable {α : Type}

/-- Some node that can be reached has a goal as a successor. -/
def Finds (succ : α → List α) (goal : α → Bool) (x : α) : Prop :=
  ∃ y, ReflTransGen (fun a b => b ∈ succ a) x y ∧ ∃ z ∈ succ y, goal z = true

/-- No successor of `y` is a goal, and all have been visited. -/
def Explored (succ : α → List α) (goal : α → Bool) (visited : List α) (y : α) : Prop :=
  ∀ z ∈ succ y, goal z = false ∧ z ∈ visited

/-- What is known after a search over some successors of `x`: of the nodes of
`U`, it has visited more, and it has found a goal or explored them all. -/
structure Searched (succ : α → List α) (goal : α → Bool) (U : List α) (x : α)
    (visited : List α) (found : Bool) (visited' : List α) : Prop where
  nodup : visited'.Nodup
  subset : visited' ⊆ U
  grows : visited ⊆ visited'
  finds : found = true → Finds succ goal x
  explored : found = false → ∀ y ∈ visited', y ∉ visited → Explored succ goal visited' y

variable {succ : α → List α} {goal : α → Bool} {U visited visited' : List α} {x y : α}
  {found : Bool}

theorem Finds.head (hy : y ∈ succ x) (h : Finds succ goal y) : Finds succ goal x := by
  rcases h with ⟨z, hpath, hz⟩
  exact ⟨z, ReflTransGen.head hy hpath, hz⟩

theorem Explored.mono (h : Explored succ goal visited y) (hsub : visited ⊆ visited') :
    Explored succ goal visited' y :=
  fun z hz => ⟨(h z hz).1, hsub (h z hz).2⟩

/-- Where everything that was visited is explored, there is no goal. -/
theorem not_finds (hx : x ∈ visited) (h : ∀ y ∈ visited, Explored succ goal visited y) :
    ¬ Finds succ goal x := by
  rintro ⟨y, hpath, z, hz, hgoal⟩
  have hy : y ∈ visited := by
    clear hz
    induction hpath with
    | refl => exact hx
    | tail _ hstep ih => exact (h _ ih _ hstep).2
  rw [(h y hy z hz).1] at hgoal
  exact absurd hgoal Bool.false_ne_true

variable [DecidableEq α]

/-- The loop over successors: `visit` is the recursive call. -/
def searchAll (goal : α → Bool) (visit : α → List α → Option (Bool × List α)) :
    List α → List α → Option (Bool × List α)
  | [], visited => some (false, visited)
  | y :: ys, visited =>
    if goal y then some (true, visited)
    else if y ∈ visited then searchAll goal visit ys visited
    else do
      let (found, visited) ← visit y visited
      if found then return (true, visited) else searchAll goal visit ys visited

/-- Search from a node that has not been visited. -/
def search (succ : α → List α) (goal : α → Bool) : ℕ → α → List α → Option (Bool × List α)
  | 0, _, _ => none
  | fuel + 1, x, visited =>
    searchAll goal (search succ goal fuel) (succ x) (x :: visited)

/-- Two searches one after the other. -/
theorem Searched.trans {visited₁ : List α} (h₁ : Searched succ goal U x visited false visited₁)
    (h₂ : Searched succ goal U x visited₁ found visited') :
    Searched succ goal U x visited found visited' where
  nodup := h₂.nodup
  subset := h₂.subset
  grows := List.Subset.trans h₁.grows h₂.grows
  finds := h₂.finds
  explored := by
    intro hfound y hy hnew
    by_cases hy₁ : y ∈ visited₁
    · exact (h₁.explored rfl y hy₁ hnew).mono h₂.grows
    · exact h₂.explored hfound y hy hy₁

/-- The loop, where the recursive calls search. -/
theorem searchAll_spec {visit : α → List α → Option (Bool × List α)} {ys : List α}
    (hvisit : ∀ y ∈ U, ∀ v : List α, visited ⊆ v → v.Nodup → v ⊆ U → y ∉ v →
      ∃ found v', visit y v = some (found, v') ∧ Searched succ goal U y v found v' ∧ y ∈ v')
    (hys : ys ⊆ succ x) (hU : ys ⊆ U) (hnodup : visited.Nodup) (hsub : visited ⊆ U) :
    ∃ found visited', searchAll goal visit ys visited = some (found, visited') ∧
      Searched succ goal U x visited found visited' ∧
      (found = false → ∀ y ∈ ys, goal y = false ∧ y ∈ visited') := by
  induction ys generalizing visited with
  | nil =>
    refine ⟨false, visited, rfl, ⟨hnodup, hsub, fun _ h => h, nofun, ?_⟩, ?_⟩
    · exact fun _ y hy hnew => absurd hy hnew
    · exact fun _ y hy => absurd hy List.not_mem_nil
  | cons y ys ih =>
    rcases List.cons_subset.mp hys with ⟨hy, hys⟩
    rcases List.cons_subset.mp hU with ⟨hyU, hU⟩
    unfold searchAll
    by_cases hgoal : goal y = true
    · -- the goal itself
      rw [if_pos hgoal]
      refine ⟨true, visited, rfl, ⟨hnodup, hsub, fun _ h => h, ?_, nofun⟩, nofun⟩
      exact fun _ => ⟨x, ReflTransGen.refl, y, hy, hgoal⟩
    rw [if_neg hgoal]
    rw [Bool.not_eq_true] at hgoal
    by_cases hvisited : y ∈ visited
    · rw [if_pos hvisited]
      rcases ih hvisit hys hU hnodup hsub with ⟨found, visited', hrun, hsearched, hall⟩
      refine ⟨found, visited', hrun, hsearched, ?_⟩
      intro hfound
      exact List.forall_mem_cons.mpr ⟨⟨hgoal, hsearched.grows hvisited⟩, hall hfound⟩
    rw [if_neg hvisited]
    rcases hvisit y hyU visited (fun _ h => h) hnodup hsub hvisited with
        ⟨found₁, v₁, hrun₁, hsearched₁, hy₁⟩
    rw [hrun₁]
    cases found₁ with
    | true =>
      refine ⟨true, v₁, rfl, ?_, nofun⟩
      exact ⟨hsearched₁.nodup, hsearched₁.subset, hsearched₁.grows,
        fun _ => (hsearched₁.finds rfl).head hy, nofun⟩
    | false =>
      obtain ⟨found, visited', hrun, hsearched, hall⟩ := ih
        (fun y hy v hv => hvisit y hy v (List.Subset.trans hsearched₁.grows hv)) hys hU
        hsearched₁.nodup hsearched₁.subset
      have hstep : Searched succ goal U x visited false v₁ :=
        ⟨hsearched₁.nodup, hsearched₁.subset, hsearched₁.grows, nofun, hsearched₁.explored⟩
      refine ⟨found, visited', hrun, hstep.trans hsearched, ?_⟩
      intro hfound
      exact List.forall_mem_cons.mpr ⟨⟨hgoal, hsearched.grows hy₁⟩, hall hfound⟩

/-- The recursion: each call visits one node more, so the depth is at most the
number of nodes. -/
theorem search_spec (hclosed : ∀ a ∈ U, succ a ⊆ U) (fuel : ℕ) (hx : x ∈ U) (hnew : x ∉ visited)
    (hnodup : visited.Nodup) (hsub : visited ⊆ U) (hfuel : U.length < fuel + visited.length) :
    ∃ found visited', search succ goal fuel x visited = some (found, visited') ∧
      Searched succ goal U x visited found visited' ∧ x ∈ visited' := by
  induction fuel generalizing x visited with
  | zero =>
    have hle := (hnodup.subperm hsub).length_le
    omega
  | succ fuel ih =>
    unfold search
    have hnodup' : (x :: visited).Nodup := List.nodup_cons.mpr ⟨hnew, hnodup⟩
    have hsub' : x :: visited ⊆ U := List.cons_subset.mpr ⟨hx, hsub⟩
    -- the calls in the loop start with this node visited
    have hvisit : ∀ y ∈ U, ∀ v : List α, x :: visited ⊆ v → v.Nodup → v ⊆ U → y ∉ v →
        ∃ found v', search succ goal fuel y v = some (found, v') ∧
          Searched succ goal U y v found v' ∧ y ∈ v' := by
      intro y hy v hv hvnodup hvsub hynew
      have hlen := (hnodup'.subperm hv).length_le
      rw [List.length_cons] at hlen
      exact ih hy hynew hvnodup hvsub (by omega)
    rcases searchAll_spec hvisit (fun _ h => h) (hclosed x hx) hnodup' hsub' with
        ⟨found, visited', hrun, hsearched, hall⟩
    refine ⟨found, visited', hrun, ⟨hsearched.nodup, hsearched.subset, ?_, hsearched.finds, ?_⟩, ?_⟩
    · exact fun _ h => hsearched.grows (List.mem_cons_of_mem _ h)
    · intro hfound y hy hynew
      by_cases hyx : y = x
      · subst hyx
        exact hall hfound
      · exact hsearched.explored hfound y hy (by simp [hyx, hynew])
    · exact hsearched.grows List.mem_cons_self

/-- A search returns, and finds a goal if there is one to be reached. -/
theorem search_eq (hclosed : ∀ a ∈ U, succ a ⊆ U) (hx : x ∈ U) {fuel : ℕ}
    (hfuel : U.length < fuel) :
    ∃ found visited, search succ goal fuel x [] = some (found, visited) ∧
      (found = true ↔ Finds succ goal x) := by
  obtain ⟨found, visited, hrun, hsearched, hmem⟩ :=
    search_spec hclosed fuel hx List.not_mem_nil List.nodup_nil (List.nil_subset U) (by simpa)
  refine ⟨found, visited, hrun, hsearched.finds, ?_⟩
  intro hfinds
  by_contra hfound
  rw [Bool.not_eq_true] at hfound
  refine not_finds hmem (fun y hy => ?_) hfinds
  exact hsearched.explored hfound y hy List.not_mem_nil

/-! ## Searches that start with visited nodes -/

omit [DecidableEq α] in
/-- Some node that can be reached without `avoid` has a goal as a successor. -/
def FindsAvoiding (succ : α → List α) (goal : α → Bool) (avoid : List α) (x : α) : Prop :=
  ∃ y, ReflTransGen (fun a b => b ∈ succ a ∧ b ∉ avoid) x y ∧ ∃ z ∈ succ y, goal z = true

/-- The successors that a search can meet: goals, and what is not in `avoid`. -/
def succAvoiding (succ : α → List α) (goal : α → Bool) (avoid : List α) (x : α) : List α :=
  (succ x).filter fun y => goal y || y ∉ avoid

variable {avoid : List α}

theorem mem_succAvoiding : y ∈ succAvoiding succ goal avoid x ↔
    y ∈ succ x ∧ (goal y = true ∨ y ∉ avoid) := by
  unfold succAvoiding
  rw [List.mem_filter, Bool.or_eq_true, decide_eq_true_iff]

/-- On the way to the first goal there is none, so it avoids `avoid`. -/
theorem finds_succAvoiding :
    Finds (succAvoiding succ goal avoid) goal x ↔ FindsAvoiding succ goal avoid x := by
  constructor
  · rintro ⟨y, hpath, z, hz, hgoal⟩
    rw [mem_succAvoiding] at hz
    induction hpath using ReflTransGen.head_induction_on with
    | refl => exact ⟨y, ReflTransGen.refl, z, hz.1, hgoal⟩
    | @head a b hstep _ ih =>
      rcases mem_succAvoiding.mp hstep with ⟨hb, hgoal | havoid⟩
      · exact ⟨a, ReflTransGen.refl, b, hb, hgoal⟩
      · rcases ih with ⟨w, hpath, hw⟩
        exact ⟨w, ReflTransGen.head ⟨hb, havoid⟩ hpath, hw⟩
  · rintro ⟨y, hpath, z, hz, hgoal⟩
    refine ⟨y, hpath.lift id ?_, z, mem_succAvoiding.mpr ⟨hz, Or.inl hgoal⟩, hgoal⟩
    intro a b hab
    exact mem_succAvoiding.mpr ⟨hab.1, Or.inr hab.2⟩

theorem searchAll_grows {visit : α → List α → Option (Bool × List α)} {ys : List α}
    (hvisit : ∀ y v b v', visit y v = some (b, v') → v ⊆ v')
    (h : searchAll goal visit ys visited = some (found, visited')) : visited ⊆ visited' := by
  induction ys generalizing visited with
  | nil =>
    cases h
    exact List.Subset.refl _
  | cons y ys ih =>
    unfold searchAll at h
    split at h
    · cases h
      exact List.Subset.refl _
    split at h
    · exact ih h
    cases hrun : visit y visited with
    | none =>
      rw [hrun] at h
      cases h
    | some result =>
      rcases result with ⟨b, v⟩
      have hgrows := hvisit y visited b v hrun
      rw [hrun] at h
      cases b with
      | true =>
        cases h
        exact hgrows
      | false => exact List.Subset.trans hgrows (ih h)

theorem search_grows (fuel : ℕ) (h : search succ goal fuel x visited = some (found, visited')) :
    visited ⊆ visited' := by
  induction fuel generalizing x visited found visited' with
  | zero => cases h
  | succ fuel ih =>
    intro y hy
    exact searchAll_grows (fun _ _ _ _ hrun => ih hrun) h (List.mem_cons_of_mem x hy)

/-- The loop skips visited nodes, goals apart. -/
theorem searchAll_filter {visit visit' : α → List α → Option (Bool × List α)} (ys : List α)
    (hvisit : ∀ y v, avoid ⊆ v → visit' y v = visit y v)
    (hgrows : ∀ y v b v', visit y v = some (b, v') → v ⊆ v') (hsub : avoid ⊆ visited) :
    searchAll goal visit' (ys.filter fun y => goal y || y ∉ avoid) visited =
      searchAll goal visit ys visited := by
  induction ys generalizing visited with
  | nil => rfl
  | cons y ys ih =>
    rw [List.filter_cons]
    by_cases hkeep : (goal y || decide (y ∉ avoid)) = true
    · rw [if_pos hkeep, searchAll, searchAll, hvisit y visited hsub, ih hsub]
      cases hrun : visit y visited with
      | none => rfl
      | some result =>
        have hv := List.Subset.trans hsub (hgrows y visited result.1 result.2 hrun)
        simp only [Option.bind_eq_bind, Option.bind_some, ih hv]
    · rw [if_neg hkeep, ih hsub]
      rw [Bool.or_eq_true, decide_eq_true_iff, not_or, not_not] at hkeep
      rw [searchAll, if_neg hkeep.1, if_pos (hsub hkeep.2)]

theorem search_succAvoiding (fuel : ℕ) (hsub : avoid ⊆ visited) :
    search (succAvoiding succ goal avoid) goal fuel x visited =
      search succ goal fuel x visited := by
  induction fuel generalizing x visited with
  | zero => rfl
  | succ fuel ih =>
    apply searchAll_filter (succ x) (fun y v hv => ih hv)
    · exact fun y v b v' hrun => search_grows fuel hrun
    · exact fun y hy => List.mem_cons_of_mem x (hsub hy)

/-- A search that starts with visited nodes returns, visits no node twice, and finds
a goal if there is one to be reached without them. -/
theorem search_avoiding (hclosed : ∀ a ∈ U, succ a ⊆ U) {fuel : ℕ} (hx : x ∈ U)
    (hnew : x ∉ visited) (hnodup : visited.Nodup) (hsub : visited ⊆ U)
    (hfuel : U.length < fuel + visited.length) :
    ∃ found visited', search succ goal fuel x visited = some (found, visited') ∧
      visited'.Nodup ∧ visited ⊆ visited' ∧
      (found = true ↔ FindsAvoiding succ goal visited x) := by
  have hclosed' : ∀ a ∈ U, succAvoiding succ goal visited a ⊆ U :=
    fun a ha b hb => hclosed a ha (mem_succAvoiding.mp hb).1
  have hspec : ∃ found visited',
      search (succAvoiding succ goal visited) goal fuel x visited = some (found, visited') ∧
        Searched (succAvoiding succ goal visited) goal U x visited found visited' ∧
        x ∈ visited' :=
    search_spec hclosed' fuel hx hnew hnodup hsub hfuel
  rcases hspec with ⟨found, visited', hrun, hsearched, hmem⟩
  rw [search_succAvoiding fuel (List.Subset.refl visited)] at hrun
  refine ⟨found, visited', hrun, hsearched.nodup, hsearched.grows, ?_⟩
  rw [← finds_succAvoiding]
  constructor
  · exact hsearched.finds
  · intro hfinds
    by_contra hfound
    rw [Bool.not_eq_true] at hfound
    rw [finds_succAvoiding] at hfinds
    rcases hfinds with ⟨y, hpath, z, hz, hgoal⟩
    -- the nodes on the path are new and have been explored
    have hy : y ∈ visited' ∧ y ∉ visited := by
      clear hz
      induction hpath with
      | refl => exact ⟨hmem, hnew⟩
      | tail _ hstep ih =>
        have hnext := hsearched.explored hfound _ ih.1 ih.2 _
          (mem_succAvoiding.mpr ⟨hstep.1, Or.inr hstep.2⟩)
        exact ⟨hnext.2, hstep.2⟩
    have hnone := hsearched.explored hfound y hy.1 hy.2 z
      (mem_succAvoiding.mpr ⟨hz, Or.inl hgoal⟩)
    rw [hnone.1] at hgoal
    exact absurd hgoal Bool.false_ne_true

end Search

end Caver.Core
