import Caver.Sanitizer.LargeChunks
import Mathlib.Algebra.BigOperators.Group.Finset.Piecewise
import Mathlib.Data.UInt

/-!
# Caver.Sanitizer.LargeMmapSteps — what each step does to the array

* `sortChunks_spec`: the sort rearranges the array and renumbers the headers.
* `Inv.added`: `Allocate` adds one chunk.
* `remove_spec`: `Deallocate` removes one, and moves the last one in its place.
* `Counted`: what the statistics are a count of.
-/

namespace Caver.Sanitizer.LargeMmap

open Caver.Core

variable {s s' t : State} {c : ℕ → LargeChunk} {i j n : ℕ} {k : LargeChunk} {p r : Uptr}
  {L : Multiset LargeChunk} {stats : Stats}

/-! ## Statistics -/

/-- The statistics are those of the live chunks. -/
structure Counted (stats : Stats) (L : Multiset LargeChunk) : Prop where
  count : stats.nAllocs = stats.nFrees + UInt64.ofNat L.card
  bytes : stats.currentlyAllocated.toNat = (L.map fun k => k.mapSize.toNat).sum
  max : stats.currentlyAllocated ≤ stats.maxAllocated
  sizes : ∑ j ∈ Finset.range 64, stats.bySizeLog j = stats.nAllocs

theorem Counted.start : Counted (start b).stats 0 where
  count := rfl
  bytes := rfl
  max := UInt64.le_refl _
  sizes := Finset.sum_const_zero

theorem mostSignificantSetBitIndex_lt {x : Uptr} (hx : x ≠ 0) :
    mostSignificantSetBitIndex x < 64 := by
  have hlt := x.toNat_lt
  have hne : x.toNat ≠ 0 := fun hz => hx (UInt64.toNat_inj.mp hz)
  exact (Nat.log2_lt hne).mpr hlt

theorem Counted.allocated (h : Counted stats L) (hL : Live (k ::ₘ L)) :
    Counted (stats.allocated k.mapSize) (k ::ₘ L) := by
  have hm := hL.mapped k (Multiset.mem_cons_self k L)
  have htotal := hL.total_le
  rw [Multiset.map_cons, Multiset.sum_cons] at htotal
  -- what is mapped is disjoint and below the end of memory, so the sum does not wrap
  have hbytes : (stats.currentlyAllocated + k.mapSize).toNat =
      k.mapSize.toNat + (L.map fun k => k.mapSize.toNat).sum := by
    have hold := h.bytes
    rw [toNat_add_of_lt (by omega)]
    omega
  have hne : k.mapSize ≠ 0 := by
    intro hz
    have hr := hm.room
    have hh := hm.header
    rw [hz, UInt64.toNat_zero] at hr
    omega
  constructor
  · show stats.nAllocs + 1 = stats.nFrees + UInt64.ofNat (k ::ₘ L).card
    rw [h.count, Multiset.card_cons, UInt64.ofNat_add, ← UInt64.add_assoc]
    rfl
  · rw [Multiset.map_cons, Multiset.sum_cons]
    exact hbytes
  · show _ ≤ if stats.maxAllocated ≤ stats.currentlyAllocated + k.mapSize then
      stats.currentlyAllocated + k.mapSize else stats.maxAllocated
    split
    · exact UInt64.le_refl _
    · next hlt => exact UInt64.le_of_lt (UInt64.not_le.mp hlt)
  · show ∑ j ∈ Finset.range 64, Function.update stats.bySizeLog _ _ j = stats.nAllocs + 1
    have hmem : mostSignificantSetBitIndex k.mapSize ∈ Finset.range 64 :=
      Finset.mem_range.mpr (mostSignificantSetBitIndex_lt hne)
    rw [Finset.sum_update_of_mem hmem, ← h.sizes, ← Finset.add_sum_erase _ _ hmem,
      Finset.sdiff_singleton_eq_erase]
    ac_rfl

theorem Counted.freed (h : Counted stats (k ::ₘ L)) : Counted (stats.freed k.mapSize) L := by
  have hbytes := h.bytes
  rw [Multiset.map_cons, Multiset.sum_cons] at hbytes
  have hle : k.mapSize ≤ stats.currentlyAllocated := by
    rw [UInt64.le_iff_toNat_le]
    omega
  have hsub : (stats.currentlyAllocated - k.mapSize).toNat =
      stats.currentlyAllocated.toNat - k.mapSize.toNat := UInt64.toNat_sub_of_le _ _ hle
  constructor
  · show stats.nAllocs = stats.nFrees + 1 + UInt64.ofNat L.card
    rw [h.count, Multiset.card_cons, UInt64.ofNat_add, UInt64.add_assoc]
    congr 1
    exact UInt64.add_comm _ _
  · show (stats.currentlyAllocated - k.mapSize).toNat = _
    omega
  · refine UInt64.le_trans ?_ h.max
    show stats.currentlyAllocated - k.mapSize ≤ stats.currentlyAllocated
    rw [UInt64.le_iff_toNat_le]
    omega
  · exact h.sizes

/-! ## The sort -/

/-- What the sort leaves as it is. -/
structure Keeps (s s' : State) : Prop where
  nChunks : s'.nChunks = s.nChunks
  stats : s'.stats = s.stats
  mayReturnNull : s'.mayReturnNull = s.mayReturnNull

theorem Keeps.refl (s : State) : Keeps s s := ⟨rfl, rfl, rfl⟩

/-- After `i` rounds the first `i` headers have their new index. -/
structure Renumbered (s : State) (σ : Equiv.Perm ℕ) (c : ℕ → LargeChunk) (i : ℕ) (t : State) :
    Prop where
  keeps : Keeps s t
  chunks : t.chunks = s.chunks ∘ σ
  header : ∀ k, k < s.nChunks →
    t.header (c (σ k)).header = some (headerOf (c (σ k)) (if k < i then k else σ k))
  only : ∀ x hd, t.header x = some hd → ∃ k, k < s.nChunks ∧ (c k).header = x

section

variable {σ : Equiv.Perm ℕ} (hinv : Inv s c) (hσ : ∀ k, s.nChunks ≤ k → σ k = k)
include hinv hσ

theorem renumber_round (hi : i < s.nChunks) (h : Renumbered s σ c i t) :
    wp (renumber i) (fun _ t' => Renumbered s σ c (i + 1) t') t := by
  have hchunk : t.chunks i = (c (σ i)).header := by
    rw [h.chunks]
    exact hinv.chunks _ (perm_lt hσ hi)
  have hread := h.header i hi
  simp only [renumber, wp_bind, wp_get, hchunk]
  rw [wp_eval (readHeader_some hread), wp_modify]
  refine ⟨⟨h.keeps.nChunks, h.keeps.stats, h.keeps.mayReturnNull⟩, h.chunks, ?_, ?_⟩
  · intro k hk
    show Function.update t.header _ _ _ = _
    by_cases hki : k = i
    · subst hki
      rw [Function.update_self, if_pos (Nat.lt_succ_self k)]
      rfl
    · have hne : (c (σ k)).header ≠ (c (σ i)).header := by
        intro heq
        exact hki (σ.injective (hinv.index_inj (perm_lt hσ hk) (perm_lt hσ hi) heq))
      have hiff : k < i + 1 ↔ k < i := by omega
      rw [Function.update_of_ne hne, h.header k hk]
      simp only [hiff]
  · intro x hd hx
    replace hx : Function.update t.header (c (σ i)).header _ x = some hd := hx
    rw [Function.update_apply] at hx
    split at hx
    · next heq => exact ⟨σ i, perm_lt hσ hi, heq.symm⟩
    · exact h.only x hd hx

theorem Renumbered.inv (h : Renumbered s σ c s.nChunks t) (hsorted : t.chunksSorted = true →
    Sorted t (c ∘ σ)) : Inv t (c ∘ σ) := by
  have hn := h.keeps.nChunks
  refine ⟨hn ▸ hinv.bound, ?_, ?_, ?_, ?_, ?_, hsorted⟩
  · intro i hi
    rw [h.chunks]
    exact hinv.chunks _ (perm_lt hσ (hn ▸ hi))
  · intro i hi
    rw [hn] at hi
    rw [Function.comp_apply, h.header i hi, if_pos hi]
  · intro x hd hx
    rcases h.only x hd hx with ⟨m, hm, rfl⟩
    have hfix : ∀ k, s.nChunks ≤ k → σ.symm k = k := by
      intro k hk
      rw [Equiv.symm_apply_eq, hσ k hk]
    refine ⟨σ.symm m, hn.symm ▸ perm_lt hfix hm, ?_⟩
    rw [Function.comp_apply, σ.apply_symm_apply]
  · intro i hi
    exact hinv.mapped _ (perm_lt hσ (hn ▸ hi))
  · intro i j hi hj hne
    exact hinv.apart _ _ (perm_lt hσ (hn ▸ hi)) (perm_lt hσ (hn ▸ hj)) fun heq =>
      hne (σ.injective heq)

omit hinv in
theorem live_comp (h : t.nChunks = s.nChunks) : live t (c ∘ σ) = live s c := by
  have hrearranged : Rearranged s.nChunks c (c ∘ σ) := ⟨σ, hσ, rfl⟩
  rw [live, h]
  exact hrearranged.multiset

end

/-- The sort puts the same chunks in order. -/
theorem sortChunks_spec (hinv : Inv s c) (hpos : 0 < s.nChunks) :
    wp sortChunks (fun _ s' => Keeps s s' ∧
      ∃ c', Inv s' c' ∧ Sorted s' c' ∧ live s' c' = live s c) s := by
  simp only [sortChunks, wp_bind, wp_get, wp_ite, wp_pure]
  split
  · next hs => exact ⟨Keeps.refl s, c, hinv, hinv.sorted hs, rfl⟩
  · next hs =>
    have hsorted : Rearranged s.nChunks s.chunks (sortArray s.chunks s.nChunks) :=
      internalSort_rearranged s.chunks s.nChunks
    rcases hsorted with ⟨σ, hσ, hsort⟩
    -- the sort permutes the array by `σ`, and the loop then numbers the headers anew
    have hstart : Renumbered s σ c 0 { s with chunks := sortArray s.chunks s.nChunks } := by
      refine ⟨⟨rfl, rfl, rfl⟩, hsort, fun k hk => ?_, hinv.only⟩
      rw [if_neg (Nat.not_lt_zero k)]
      exact hinv.header _ (perm_lt hσ hk)
    rw [wp_modify]
    refine (wp_forM_range (fun i hi t ht => renumber_round hinv hσ hi ht) hstart).mono ?_
    intro _ t ht
    have hn := ht.keeps.nChunks
    -- the last chunk tells where the mapped part ends
    have hlast : s.nChunks - 1 < s.nChunks := by omega
    have hchunk : ∀ i, i < s.nChunks → t.chunks i = (c (σ i)).header := by
      intro i hi
      rw [ht.chunks]
      exact hinv.chunks _ (perm_lt hσ hi)
    have hread := ht.header _ hlast
    rw [hchunk _ hlast, wp_eval (readHeader_some hread), wp_modify]
    refine ⟨⟨hn, ht.keeps.stats, ht.keeps.mayReturnNull⟩, c ∘ σ, ?_⟩
    have hordered : Sorted { t with
        chunksSorted := true
        minMmap := t.chunks 0
        maxMmap := (c (σ (s.nChunks - 1))).header + (c (σ (s.nChunks - 1))).mapSize } (c ∘ σ) := by
      refine ⟨fun i j hij hj => ?_, hchunk 0 hpos, ?_⟩
      · replace hj : j < s.nChunks := hn ▸ hj
        have hle : AtMost compareLess (sortArray s.chunks s.nChunks i)
            (sortArray s.chunks s.nChunks j) :=
          internalSort_ordered compareLess_compares s.chunks hij hj
        rw [hsort] at hle
        simp only [AtMost, compareLess, decide_eq_false_iff_not, UInt64.not_lt,
          Function.comp_apply, UInt64.le_iff_toNat_le] at hle
        rw [hinv.chunks _ (perm_lt hσ (hij.trans hj)), hinv.chunks _ (perm_lt hσ hj)] at hle
        -- chunks at one address would be one chunk
        refine lt_of_le_of_ne hle fun heq => ?_
        have hidx := hinv.index_inj (perm_lt hσ (hij.trans hj)) (perm_lt hσ hj)
          (UInt64.toNat_inj.mp heq)
        exact absurd (σ.injective hidx) (Nat.ne_of_lt hij)
      · show _ = ((c ∘ σ) (t.nChunks - 1)).header + ((c ∘ σ) (t.nChunks - 1)).mapSize
        rw [hn]
        rfl
    refine ⟨?_, hordered, live_comp hσ hn⟩
    have hdone : Renumbered s σ c s.nChunks { t with
        chunksSorted := true
        minMmap := t.chunks 0
        maxMmap := (c (σ (s.nChunks - 1))).header + (c (σ (s.nChunks - 1))).mapSize } :=
      ⟨⟨hn, ht.keeps.stats, ht.keeps.mayReturnNull⟩, ht.chunks, ht.header, ht.only⟩
    exact hdone.inv hinv hσ fun _ => hordered

/-! ## One chunk more -/

/-- The state after `Allocate` of the chunk `k`. -/
def added (s : State) (k : LargeChunk) : State :=
  { s with
    nChunks := s.nChunks + 1
    chunksSorted := false
    header := Function.update s.header k.header (some (headerOf k s.nChunks))
    chunks := Function.update s.chunks s.nChunks k.header
    stats := s.stats.allocated k.mapSize }

section

variable (hk : Mapped k) (hfree : ∀ i, i < s.nChunks → ApartFrom k (c i))
include hk hfree

theorem Inv.header_ne (hinv : Inv s c) (hi : i < s.nChunks) : (c i).header ≠ k.header := by
  intro heq
  have h₁ := hk.header
  have h₂ := hk.room
  have hm := hinv.mapped i hi
  have h₃ := hm.header
  have h₄ := hm.room
  rw [heq] at h₃ h₄
  rcases hfree i hi with h | h <;> omega

theorem Inv.added (hinv : Inv s c) (hroom : s.nChunks < kMaxNumChunks) :
    Inv (added s k) (Function.update c s.nChunks k) := by
  -- the new chunk is the last one; those before it keep their places
  have hold : ∀ i, i < s.nChunks → Function.update c s.nChunks k i = c i :=
    fun i hi => Function.update_of_ne (Nat.ne_of_lt hi) _ _
  have hcases : ∀ i, i < s.nChunks + 1 → i < s.nChunks ∨ i = s.nChunks := fun i hi => by omega
  constructor
  · exact hroom
  · intro i hi
    show Function.update s.chunks s.nChunks k.header i = _
    rcases hcases i hi with hlt | rfl
    · rw [Function.update_of_ne (Nat.ne_of_lt hlt), hold i hlt]
      exact hinv.chunks i hlt
    · rw [Function.update_self, Function.update_self]
  · intro i hi
    show Function.update s.header k.header _ _ = _
    rcases hcases i hi with hlt | rfl
    · rw [hold i hlt, Function.update_of_ne (hinv.header_ne hk hfree hlt)]
      exact hinv.header i hlt
    · rw [Function.update_self, Function.update_self]
  · intro x hd hx
    replace hx : Function.update s.header k.header _ x = some hd := hx
    rw [Function.update_apply] at hx
    split at hx
    · next heq => exact ⟨s.nChunks, Nat.lt_succ_self _, by rw [Function.update_self, heq]⟩
    · rcases hinv.only x hd hx with ⟨i, hi, hci⟩
      exact ⟨i, Nat.lt_succ_of_lt hi, by rw [hold i hi, hci]⟩
  · intro i hi
    rcases hcases i hi with hlt | rfl
    · rw [hold i hlt]
      exact hinv.mapped i hlt
    · rw [Function.update_self]
      exact hk
  · intro i j hi hj hne
    rcases hcases i hi with hi' | rfl
    · rw [hold i hi']
      rcases hcases j hj with hj' | rfl
      · rw [hold j hj']
        exact hinv.apart i j hi' hj' hne
      · rw [Function.update_self]
        exact (hfree i hi').symm
    · rw [Function.update_self]
      rcases hcases j hj with hj' | rfl
      · rw [hold j hj']
        exact hfree j hj'
      · exact absurd rfl hne
  · exact fun h => absurd h Bool.false_ne_true

end

theorem live_added (s : State) (c : ℕ → LargeChunk) (k : LargeChunk) :
    live (added s k) (Function.update c s.nChunks k) = k ::ₘ live s c := by
  show (Multiset.range (s.nChunks + 1)).map _ = k ::ₘ (Multiset.range s.nChunks).map c
  rw [Multiset.range_succ, Multiset.map_cons, Function.update_self]
  congr 1
  refine Multiset.map_congr rfl fun i hi => ?_
  exact Function.update_of_ne (Nat.ne_of_lt (Multiset.mem_range.mp hi)) _ _

theorem addChunk_eval (s : State) (k : LargeChunk) (hroom : s.nChunks < kMaxNumChunks) :
    addChunk k.header k.mapBeg k.mapSize k.size s = some (⟨⟩, added s k) := by
  refine eval_of_wp ?_
  simp only [addChunk, wp_bind, wp_get, wp_check, wp_modify, decide_eq_true_eq]
  exact ⟨hroom, trivial, rfl⟩

/-! ## One chunk less -/

/-- The state after `Deallocate` of the chunk at `i`. -/
def removed (s : State) (c : ℕ → LargeChunk) (i : ℕ) : State :=
  { s with
    chunks := Function.update s.chunks i (c (s.nChunks - 1)).header
    nChunks := s.nChunks - 1
    chunksSorted := false
    stats := s.stats.freed (c i).mapSize
    header := fun x =>
      if (c i).mapBeg.toNat ≤ x.toNat ∧ x.toNat < (c i).mapBeg.toNat + (c i).mapSize.toNat then none
      else Function.update s.header (c (s.nChunks - 1)).header
        (some (headerOf (c (s.nChunks - 1)) i)) x }

/-- The last chunk is where the one at `i` was. -/
def withoutAt (c : ℕ → LargeChunk) (n i : ℕ) : ℕ → LargeChunk := c ∘ Equiv.swap i (n - 1)

theorem withoutAt_self (c : ℕ → LargeChunk) (n i : ℕ) : withoutAt c n i i = c (n - 1) :=
  congrArg c (Equiv.swap_apply_left _ _)

theorem withoutAt_of_ne (hji : j ≠ i) (hj : j ≠ n - 1) : withoutAt c n i j = c j :=
  congrArg c (Equiv.swap_apply_of_ne_of_ne hji hj)

/-- Every chunk that is left was at some other index. -/
theorem withoutAt_cases (hj : j < n - 1) :
    ∃ m, m < n ∧ m ≠ i ∧ withoutAt c n i j = c m ∧ (j = i ∧ m = n - 1 ∨ j ≠ i ∧ m = j) := by
  by_cases hji : j = i
  · subst hji
    exact ⟨n - 1, by omega, by omega, withoutAt_self c n j, Or.inl ⟨rfl, rfl⟩⟩
  · exact ⟨j, by omega, hji, withoutAt_of_ne hji (by omega), Or.inr ⟨hji, rfl⟩⟩

section

variable (hinv : Inv s c) (hi : i < s.nChunks)
include hinv hi

/-- Other headers are not in the mapping. -/
theorem Inv.outside (hj : j < s.nChunks) (hji : j ≠ i) :
    ¬ ((c i).mapBeg.toNat ≤ (c j).header.toNat ∧
      (c j).header.toNat < (c i).mapBeg.toNat + (c i).mapSize.toNat) := by
  rintro ⟨hlo, hhi⟩
  have hm := hinv.mapped j hj
  have h₁ := hm.header
  have h₂ := hm.room
  rcases hinv.apart j i hj hi hji with h | h <;> omega

theorem Inv.removed : Inv (removed s c i) (withoutAt c s.nChunks i) := by
  have hlast : s.nChunks - 1 < s.nChunks := by omega
  constructor
  · exact (Nat.sub_le _ _).trans hinv.bound
  · intro j hj
    show Function.update s.chunks i _ j = _
    rcases withoutAt_cases (c := c) (i := i) hj with ⟨m, hm, -, heq, hjm⟩
    rw [heq]
    rcases hjm with ⟨rfl, rfl⟩ | ⟨hne, rfl⟩
    · rw [Function.update_self]
    · rw [Function.update_of_ne hne]
      exact hinv.chunks m hm
  · intro j hj
    rcases withoutAt_cases (c := c) (i := i) hj with ⟨m, hm, hmi, heq, hjm⟩
    rw [heq]
    show (if _ then none else Function.update s.header _ _ _) = _
    rw [if_neg (hinv.outside hi hm hmi)]
    rcases hjm with ⟨rfl, rfl⟩ | ⟨hne, rfl⟩
    · rw [Function.update_self]
    · have hother : (c m).header ≠ (c (s.nChunks - 1)).header := by
        intro hh
        have hidx := hinv.index_inj hm hlast hh
        replace hj : m < s.nChunks - 1 := hj
        omega
      rw [Function.update_of_ne hother]
      exact hinv.header m hm
  · intro x hd hx
    replace hx : (if _ then none else Function.update s.header _ _ x) = some hd := hx
    split at hx
    · exact absurd hx (by simp)
    · next hout =>
      -- an old index that is not the removed one
      obtain ⟨m, hm, hcm⟩ : ∃ m, m < s.nChunks ∧ (c m).header = x := by
        rw [Function.update_apply] at hx
        split at hx
        · next heq => exact ⟨_, hlast, heq.symm⟩
        · exact hinv.only x hd hx
      have hmi : m ≠ i := by
        rintro rfl
        have hmm := hinv.mapped m hm
        have h₁ := hmm.header
        have h₂ := hmm.room
        rw [← hcm] at hout
        omega
      by_cases hml : m = s.nChunks - 1
      · refine ⟨i, ?_, ?_⟩
        · show i < s.nChunks - 1
          omega
        · rw [withoutAt_self, ← hml, hcm]
      · refine ⟨m, ?_, ?_⟩
        · show m < s.nChunks - 1
          omega
        · rw [withoutAt_of_ne hmi hml, hcm]
  · intro j hj
    rcases withoutAt_cases (c := c) (i := i) hj with ⟨m, hm, -, heq, -⟩
    rw [heq]
    exact hinv.mapped m hm
  · intro j j' hj hj' hne
    rcases withoutAt_cases (c := c) (i := i) hj with ⟨m, hm, hmi, heq, hjm⟩
    rcases withoutAt_cases (c := c) (i := i) hj' with ⟨m', hm', hmi', heq', hjm'⟩
    rw [heq, heq']
    replace hj : j < s.nChunks - 1 := hj
    replace hj' : j' < s.nChunks - 1 := hj'
    exact hinv.apart m m' hm hm' (by omega)
  · exact fun h => absurd h Bool.false_ne_true

omit hinv in
theorem live_removed :
    live s c = c i ::ₘ live (removed s c i) (withoutAt c s.nChunks i) := by
  have hlast : s.nChunks - 1 < s.nChunks := by omega
  have hrearranged : Rearranged s.nChunks c (withoutAt c s.nChunks i) :=
    Rearranged.swap c hi hlast
  have hsucc : s.nChunks = s.nChunks - 1 + 1 := by omega
  have hend : withoutAt c s.nChunks i (s.nChunks - 1) = c i :=
    congrArg c (Equiv.swap_apply_right _ _)
  rw [live, ← hrearranged.multiset]
  conv_lhs => rw [hsucc, Multiset.range_succ, Multiset.map_cons]
  rw [← hsucc, hend]
  rfl

/-- `Deallocate` of a live chunk. -/
theorem deallocate_eval (hp : isAligned p kPageSize = true)
    (heq : p - kPageSize = (c i).header) :
    deallocate p s = some (⟨⟩, removed s c i) := by
  have hlast : s.nChunks - 1 < s.nChunks := by omega
  refine eval_of_wp ?_
  simp only [deallocate, getHeader, removeChunk, unmapOrDie, wp_bind, wp_get, wp_check, wp_pure,
    wp_modify, heq]
  rw [wp_eval (readHeader_some (hinv.header i hi))]
  simp only [headerOf, hinv.chunks i hi, hinv.chunks _ hlast, Function.update_self,
    beq_self_eq_true]
  refine ⟨hp, trivial, decide_eq_true hi, ?_⟩
  have hread : { s with chunks := Function.update s.chunks i (c (s.nChunks - 1)).header }.header
      (c (s.nChunks - 1)).header = some (headerOf (c (s.nChunks - 1)) (s.nChunks - 1)) :=
    hinv.header _ hlast
  rw [wp_eval (readHeader_some hread)]
  exact ⟨trivial, rfl⟩

end

end Caver.Sanitizer.LargeMmap
