import Caver.Sanitizer.LargeMmap
import Mathlib.Algebra.Order.BigOperators.Group.Finset
import Mathlib.Order.Interval.Finset.Nat

/-!
# Caver.Sanitizer.LargeChunks — what the array of large chunks stands for

* `Live`: a set of chunks whose mappings are apart. `Located` says which block contains a
  pointer; there is at most one.
* `Inv`: the array and the headers in memory hold the chunks `c 0`, …, `c (n - 1)`.
* `getBlockBegin_located`, `findSorted_located`: both searches find the block.
-/

namespace Caver.Sanitizer.LargeMmap

open Caver.Core

/-! ## Sets of chunks -/

/-- The header page is in the mapping, in user space. -/
structure Mapped (k : LargeChunk) : Prop where
  aligned : isAligned k.header kPageSize = true
  nonnull : 0 < k.mapBeg.toNat
  header : k.mapBeg.toNat ≤ k.header.toNat
  room : k.header.toNat + 4096 ≤ k.mapBeg.toNat + k.mapSize.toNat
  user_space : k.mapBeg.toNat + k.mapSize.toNat ≤ 2 ^ 47

/-- The mappings have no byte in common. -/
def ApartFrom (k k' : LargeChunk) : Prop :=
  k.mapBeg.toNat + k.mapSize.toNat ≤ k'.mapBeg.toNat ∨
    k'.mapBeg.toNat + k'.mapSize.toNat ≤ k.mapBeg.toNat

/-- The pointer is in the mapping, from the header on. -/
def Covers (k : LargeChunk) (p : Uptr) : Prop :=
  k.header.toNat ≤ p.toNat ∧ p.toNat < k.mapBeg.toNat + k.mapSize.toNat

structure Live (L : Multiset LargeChunk) : Prop where
  mapped : ∀ k ∈ L, Mapped k
  apart : ∀ k ∈ L, ∀ k' ∈ L, k ≠ k' → ApartFrom k k'
  nodup : L.Nodup

/-- The block that contains the pointer, or null. -/
inductive Located (L : Multiset LargeChunk) (p : Uptr) : Uptr → Prop
  | found (k : LargeChunk) : k ∈ L → Covers k p → Located L p (k.header + kPageSize)
  | nowhere : (∀ k ∈ L, ¬ Covers k p) → Located L p 0

/-- The chunk with the last header at or before the pointer. -/
structure Nearest (L : Multiset LargeChunk) (p : Uptr) (k : LargeChunk) : Prop where
  mem : k ∈ L
  le : k.header.toNat ≤ p.toNat
  last : ∀ k' ∈ L, k'.header.toNat ≤ p.toNat → k'.header.toNat ≤ k.header.toNat

variable {L : Multiset LargeChunk} {k k' : LargeChunk} {p r r' : Uptr}

theorem ApartFrom.symm (h : ApartFrom k k') : ApartFrom k' k := Or.symm h

theorem Mapped.end_toNat (h : Mapped k) :
    (k.mapBeg + k.mapSize).toNat = k.mapBeg.toNat + k.mapSize.toNat := by
  have huser := h.user_space
  exact toNat_add_of_lt (by omega)

/-- A header is in no mapping but its own. -/
theorem Live.eq_of_header (hL : Live L) (hk : k ∈ L) (hk' : k' ∈ L)
    (hlo : k'.mapBeg.toNat ≤ k.header.toNat)
    (hhi : k.header.toNat < k'.mapBeg.toNat + k'.mapSize.toNat) : k = k' := by
  by_contra hne
  have hm := hL.mapped k hk
  have h₁ := hm.header
  have h₂ := hm.room
  rcases hL.apart k hk k' hk' hne with h | h <;> omega

theorem Live.header_inj (hL : Live L) (hk : k ∈ L) (hk' : k' ∈ L)
    (heq : k.header = k'.header) : k = k' := by
  have hm := hL.mapped k' hk'
  have h₁ := hm.header
  have h₂ := hm.room
  refine hL.eq_of_header hk hk' ?_ ?_ <;> rw [heq] <;> omega

theorem Live.covers_unique (hL : Live L) (hk : k ∈ L) (hk' : k' ∈ L) (h : Covers k p)
    (h' : Covers k' p) : k = k' := by
  rcases Nat.le_total k.header.toNat k'.header.toNat with hle | hle
  · have hm := (hL.mapped k hk).header
    refine (hL.eq_of_header hk' hk (by omega) ?_).symm
    exact lt_of_le_of_lt h'.1 h.2
  · have hm := (hL.mapped k' hk').header
    refine hL.eq_of_header hk hk' (by omega) ?_
    exact lt_of_le_of_lt h.1 h'.2

theorem Located.unique (hL : Live L) (h : Located L p r) (h' : Located L p r') : r = r' := by
  cases h with
  | found k hk hc =>
    cases h' with
    | found k' hk' hc' => rw [hL.covers_unique hk hk' hc hc']
    | nowhere hno => exact absurd hc (hno k hk)
  | nowhere hno =>
    cases h' with
    | found k' hk' hc' => exact absurd hc' (hno k' hk')
    | nowhere => rfl

/-- If any chunk covers the pointer, the nearest one does. -/
theorem Nearest.located (hL : Live L) (h : Nearest L p k) :
    Located L p (if k.mapBeg + k.mapSize ≤ p then 0 else k.header + kPageSize) := by
  have hend := (hL.mapped k h.mem).end_toNat
  split
  · next hle =>
    rw [UInt64.le_iff_toNat_le, hend] at hle
    refine .nowhere fun k' hk' hc => ?_
    have hm := (hL.mapped k h.mem).header
    have hm' := (hL.mapped k' hk').header
    have hr := (hL.mapped k h.mem).room
    have hlast := h.last k' hk' hc.1
    rcases hc with ⟨hlo, hhi⟩
    have heq : k = k' := hL.eq_of_header h.mem hk' (by omega) (by omega)
    subst heq
    omega
  · next hlt =>
    rw [UInt64.le_iff_toNat_le, hend] at hlt
    exact .found k h.mem ⟨h.le, by omega⟩

theorem located_zero (h : ∀ k ∈ L, p.toNat < k.header.toNat) : Located L p 0 := by
  refine .nowhere fun k hk hc => ?_
  have hlt := h k hk
  have hle := hc.1
  omega

/-- All mappings fit into user space together. -/
theorem Live.total_le (hL : Live L) : (L.map fun k => k.mapSize.toNat).sum ≤ 2 ^ 47 := by
  have hsum : (L.map fun k => k.mapSize.toNat).sum =
      ∑ k ∈ (⟨L, hL.nodup⟩ : Finset LargeChunk),
        (Finset.Ico k.mapBeg.toNat (k.mapBeg.toNat + k.mapSize.toNat)).card := by
    simp only [Nat.card_Ico, Nat.add_sub_cancel_left]
    rfl
  rw [hsum, ← Finset.card_biUnion]
  · have hsub : (⟨L, hL.nodup⟩ : Finset LargeChunk).biUnion (fun k =>
        Finset.Ico k.mapBeg.toNat (k.mapBeg.toNat + k.mapSize.toNat)) ⊆ Finset.range (2 ^ 47) := by
      intro a ha
      rcases Finset.mem_biUnion.mp ha with ⟨k, hk, hin⟩
      rw [Finset.mem_Ico] at hin
      have huser := (hL.mapped k hk).user_space
      rw [Finset.mem_range]
      omega
    have hcard := Finset.card_le_card hsub
    rwa [Finset.card_range] at hcard
  · intro k hk k' hk' hne
    rw [Function.onFun, Finset.disjoint_left]
    intro a ha ha'
    rw [Finset.mem_Ico] at ha ha'
    rcases hL.apart k hk k' hk' hne with h | h <;> omega

/-! ## The search through all chunks -/

/-- The search through the whole list ends with the nearest header, if there is one. -/
theorem nearestChunk_nearest (l : List LargeChunk) (p : Uptr) :
    (nearestChunk l p = 0 ∧ ∀ k ∈ l, k.header ≠ 0 → p.toNat < k.header.toNat) ∨
      ∃ k, Nearest ↑l p k ∧ nearestChunk l p = k.header := by
  -- the loop has the largest header so far that is not behind the pointer
  have hspec : ∀ (l : List LargeChunk), (nearestChunk l p).toNat ≤ p.toNat ∧
      ∀ k ∈ l, k.header.toNat ≤ p.toNat → k.header.toNat ≤ (nearestChunk l p).toNat := by
    intro l
    induction l using List.reverseRecOn with
    | nil => exact ⟨Nat.zero_le _, fun k hk => absurd hk List.not_mem_nil⟩
    | append_singleton l x ih =>
      have hstep : (nearestChunk (l ++ [x]) p).toNat =
          if p.toNat < x.header.toNat then (nearestChunk l p).toNat
          else max (nearestChunk l p).toNat x.header.toNat := by
        rw [nearestChunk, List.foldl_append]
        exact nearer_toNat ih.1 x
      rw [hstep]
      constructor
      · split
        · exact ih.1
        · exact max_le ih.1 (by omega)
      · intro k hk hle
        rcases List.mem_append.mp hk with hk | hk
        · have hold := ih.2 k hk hle
          split
          · exact hold
          · exact hold.trans (le_max_left _ _)
        · rw [List.mem_singleton] at hk
          subst hk
          rw [if_neg (by omega)]
          exact le_max_right _ _
  rcases hspec l with ⟨hle, hall⟩
  rcases nearestChunk_mem l p with h0 | ⟨k, hk, heq, hkp⟩
  · refine Or.inl ⟨h0, fun k hk hne => ?_⟩
    -- the initial 0 is no header
    by_contra hge
    have hlast := hall k hk (by omega)
    rw [h0, UInt64.toNat_zero] at hlast
    exact hne (UInt64.toNat_inj.mp (Nat.le_zero.mp hlast))
  · refine Or.inr ⟨k, ⟨Multiset.mem_coe.mpr hk, UInt64.le_iff_toNat_le.mp hkp, ?_⟩, heq⟩
    intro k' hk' hle'
    rw [← heq]
    exact hall k' (Multiset.mem_coe.mp hk') hle'

/-! ## The array -/

/-- The header of the chunk at index `i`. -/
def headerOf (k : LargeChunk) (i : ℕ) : Header := ⟨k.mapBeg, k.mapSize, k.size, i⟩

/-- What the sort has established. -/
structure Sorted (s : State) (c : ℕ → LargeChunk) : Prop where
  order : ∀ i j, i < j → j < s.nChunks → (c i).header.toNat < (c j).header.toNat
  min : s.minMmap = (c 0).header
  max : s.maxMmap = (c (s.nChunks - 1)).header + (c (s.nChunks - 1)).mapSize

/-- The array holds the chunks `c 0`, …, `c (n - 1)`, and memory their headers. -/
structure Inv (s : State) (c : ℕ → LargeChunk) : Prop where
  bound : s.nChunks ≤ kMaxNumChunks
  chunks : ∀ i, i < s.nChunks → s.chunks i = (c i).header
  header : ∀ i, i < s.nChunks → s.header (c i).header = some (headerOf (c i) i)
  only : ∀ x hd, s.header x = some hd → ∃ i, i < s.nChunks ∧ (c i).header = x
  mapped : ∀ i, i < s.nChunks → Mapped (c i)
  apart : ∀ i j, i < s.nChunks → j < s.nChunks → i ≠ j → ApartFrom (c i) (c j)
  sorted : s.chunksSorted = true → Sorted s c

/-- The live chunks. -/
def live (s : State) (c : ℕ → LargeChunk) : Multiset LargeChunk :=
  (Multiset.range s.nChunks).map c

variable {s s' : State} {c c' : ℕ → LargeChunk} {i j n : ℕ} {h : Uptr} {hd : Header}

theorem mem_live : k ∈ live s c ↔ ∃ i, i < s.nChunks ∧ c i = k := by
  simp [live]

theorem Inv.index_inj (hinv : Inv s c) (hi : i < s.nChunks) (hj : j < s.nChunks)
    (heq : (c i).header = (c j).header) : i = j := by
  have hi' := hinv.header i hi
  rw [heq, hinv.header j hj] at hi'
  have hidx := congrArg Header.chunkIdx (Option.some.inj hi')
  exact hidx.symm

theorem Inv.live (hinv : Inv s c) : Live (live s c) where
  mapped k hk := by
    rcases mem_live.mp hk with ⟨i, hi, rfl⟩
    exact hinv.mapped i hi
  apart k hk k' hk' hne := by
    rcases mem_live.mp hk with ⟨i, hi, rfl⟩
    rcases mem_live.mp hk' with ⟨j, hj, rfl⟩
    exact hinv.apart i j hi hj fun hij => hne (congrArg c hij)
  nodup := by
    refine (Multiset.nodup_map_iff_inj_on (Multiset.nodup_range _)).mpr ?_
    intro i hi j hj heq
    rw [Multiset.mem_range] at hi hj
    exact hinv.index_inj hi hj (congrArg LargeChunk.header heq)

theorem readHeader_some (hh : s.header h = some hd) : readHeader h s = some (hd, s) := by
  refine eval_of_wp ?_
  unfold readHeader
  rw [wp_bind, wp_get, hh, wp_pure]
  exact ⟨rfl, rfl⟩

theorem getUser_eval (hk : Mapped k) (s : State) :
    getUser k.header s = some (k.header + kPageSize, s) := by
  refine eval_of_wp ?_
  unfold getUser
  rw [wp_bind, wp_check, wp_pure]
  exact ⟨hk.aligned, rfl, rfl⟩

/-! ## The searches -/

theorem nearerChunk_nearer (p near : Uptr) (k : LargeChunk) :
    nearerChunk p near k.header = nearer p near k := rfl

theorem Inv.search_eq (hinv : Inv s c) (p : Uptr) :
    (List.range s.nChunks).foldl (fun near i => nearerChunk p near (s.chunks i)) 0 =
      nearestChunk ((List.range s.nChunks).map c) p := by
  rw [nearestChunk, List.foldl_map]
  refine List.foldl_ext _ _ _ fun near i hi => ?_
  rw [hinv.chunks i (List.mem_range.mp hi), nearerChunk_nearer]

theorem coe_map_range (s : State) (c : ℕ → LargeChunk) :
    (↑((List.range s.nChunks).map c) : Multiset LargeChunk) = LargeMmap.live s c := by
  rw [LargeMmap.live, ← Multiset.coe_range, Multiset.map_coe]

/-- The search through the whole array finds the block that contains the pointer. -/
theorem getBlockBegin_located (hinv : Inv s c) (p : Uptr) :
    wp (getBlockBegin p) (fun r s' => s' = s ∧ Located (LargeMmap.live s c) p r) s := by
  simp only [getBlockBegin, wp_bind, wp_get, wp_ite, wp_pure, hinv.search_eq]
  rcases nearestChunk_nearest ((List.range s.nChunks).map c) p with ⟨h0, hall⟩ | ⟨k, hk, heq⟩
  · rw [if_pos h0]
    -- no header is in front of the pointer
    refine ⟨trivial, located_zero fun k hk => ?_⟩
    rw [← coe_map_range, Multiset.mem_coe] at hk
    have hmapped := hinv.live.mapped k (by rwa [← coe_map_range, Multiset.mem_coe])
    refine hall k hk fun hz => ?_
    have hpos := hmapped.nonnull
    have hle := hmapped.header
    rw [hz, UInt64.toNat_zero] at hle
    omega
  · rw [coe_map_range] at hk
    rcases mem_live.mp hk.mem with ⟨i, hi, hci⟩
    have hmapped := hinv.mapped i hi
    rw [hci] at hmapped
    have hread := hinv.header i hi
    rw [hci] at hread
    have hnonnull := hmapped.nonnull
    have hlo := hmapped.header
    have hroom := hmapped.room
    have hend := hmapped.end_toNat
    rw [heq, if_neg (fun hz => by rw [hz, UInt64.toNat_zero] at hlo; omega)]
    rw [wp_eval (readHeader_some hread)]
    simp only [headerOf, wp_check, decide_eq_true_eq, ge_iff_le, UInt64.le_iff_toNat_le,
      UInt64.lt_iff_toNat_lt]
    refine ⟨hlo, by omega, hk.le, ?_⟩
    -- the pointer is in the nearest block or behind its end
    have hloc := hk.located hinv.live
    simp only [UInt64.le_iff_toNat_le] at hloc
    split
    · next hp =>
      rw [if_pos hp] at hloc
      exact ⟨trivial, hloc⟩
    · next hp =>
      rw [if_neg hp] at hloc
      rw [wp_eval (getUser_eval hmapped s)]
      exact ⟨rfl, hloc⟩

/-- What is left when the loop ends: two candidates, between which the chunk is. -/
theorem lowerBound_spec {v : ℕ → Uptr} {beg last : ℕ} (hle : beg ≤ last)
    (hbeg : (v beg).toNat ≤ p.toNat)
    (hlast : ∀ i, last < i → i < n → p.toNat < (v i).toNat)
    (hmono : ∀ i j, i < j → j < n → (v i).toNat < (v j).toNat) (hn : last < n) :
    (lowerBound v p beg last).1 ≤ (lowerBound v p beg last).2 ∧
      (lowerBound v p beg last).2 ≤ (lowerBound v p beg last).1 + 1 ∧
      (lowerBound v p beg last).2 < n ∧
      (v (lowerBound v p beg last).1).toNat ≤ p.toNat ∧
      ∀ i, (lowerBound v p beg last).2 < i → i < n → p.toNat < (v i).toNat := by
  induction beg, last using lowerBound.induct v p with
  | case1 beg last h2 mid hlt ih =>
    rw [lowerBound, if_pos h2, if_pos hlt]
    rw [UInt64.lt_iff_toNat_lt] at hlt
    refine ih (by omega) hbeg ?_ (by omega)
    intro i hi hin
    rcases Nat.lt_or_ge mid i with hmi | hmi
    · exact hlt.trans (hmono mid i hmi hin)
    · have him : i = mid := by omega
      exact him ▸ hlt
  | case2 beg last h2 mid hge ih =>
    rw [lowerBound, if_pos h2, if_neg hge]
    rw [UInt64.not_lt, UInt64.le_iff_toNat_le] at hge
    exact ih (by omega) hge hlast hn
  | case3 beg last h2 =>
    rw [lowerBound, if_neg h2]
    exact ⟨hle, by omega, hn, hbeg, hlast⟩

/-- The last element at or before `p`. -/
structure LastAt (v : ℕ → Uptr) (n : ℕ) (p : Uptr) (i : ℕ) : Prop where
  lt : i < n
  le : (v i).toNat ≤ p.toNat
  after : ∀ j, i < j → j < n → p.toNat < (v j).toNat

/-- Of the two candidates the later one is chosen, unless it is behind `p`. -/
theorem lowerBound_lastAt {v : ℕ → Uptr} (hn : 0 < n) (hbeg : (v 0).toNat ≤ p.toNat)
    (hmono : ∀ i j, i < j → j < n → (v i).toNat < (v j).toNat) {r : ℕ × ℕ}
    (hr : lowerBound v p 0 (n - 1) = r) :
    (!(decide (r.1 < r.2)) || r.1 + 1 == r.2) = true ∧
      LastAt v n p (if r.1 < r.2 ∧ p ≥ v r.2 then r.2 else r.1) := by
  have hspec := lowerBound_spec (p := p) (Nat.zero_le (n - 1)) hbeg
    (fun i h₁ h₂ => absurd h₂ (by omega)) hmono (Nat.sub_lt hn Nat.one_pos)
  rw [hr] at hspec
  rcases hspec with ⟨hle, hle', hrn, hr₁, hr₂⟩
  constructor
  · rw [Bool.or_eq_true, Bool.not_eq_true', decide_eq_false_iff_not, beq_iff_eq]
    omega
  · split
    · next h => exact ⟨hrn, UInt64.le_iff_toNat_le.mp h.2, hr₂⟩
    · next h =>
      refine ⟨by omega, hr₁, fun j hj hjn => ?_⟩
      rcases Nat.lt_or_ge r.2 j with hrj | hrj
      · exact hr₂ j hrj hjn
      · have hj2 : j = r.2 := by omega
        rw [not_and, ge_iff_le, UInt64.not_le, UInt64.lt_iff_toNat_lt] at h
        exact hj2 ▸ h (hj2 ▸ hj)

section

variable (hinv : Inv s c) (hsorted : Sorted s c) (hpos : 0 < s.nChunks)
include hinv hsorted

theorem Sorted.nearest (hi : LastAt s.chunks s.nChunks p i) :
    Nearest (LargeMmap.live s c) p (c i) := by
  have hip := hi.le
  rw [hinv.chunks i hi.lt] at hip
  refine ⟨mem_live.mpr ⟨i, hi.lt, rfl⟩, hip, fun k hk hkp => ?_⟩
  rcases mem_live.mp hk with ⟨j, hj, rfl⟩
  rcases Nat.lt_trichotomy i j with hij | rfl | hij
  · have hgt := hi.after j hij hj
    rw [hinv.chunks j hj] at hgt
    omega
  · exact Nat.le_refl _
  · exact Nat.le_of_lt (hsorted.order j i hij hi.lt)

include hpos

/-- Before `min_mmap_` and from `max_mmap_` on there is no block. -/
theorem Sorted.located_outside (hout : p < s.minMmap ∨ p ≥ s.maxMmap) :
    Located (LargeMmap.live s c) p 0 := by
  rcases hout with hmin | hmax
  · rw [hsorted.min, UInt64.lt_iff_toNat_lt] at hmin
    refine located_zero fun k hk => ?_
    rcases mem_live.mp hk with ⟨i, hi, rfl⟩
    rcases Nat.eq_zero_or_pos i with rfl | hi0
    · exact hmin
    · exact hmin.trans (hsorted.order 0 i hi0 hi)
  · have hlast : s.nChunks - 1 < s.nChunks := by omega
    have hmapped := hinv.mapped _ hlast
    have hroom := hmapped.room
    have huser := hmapped.user_space
    have hheader := hmapped.header
    have hend : s.maxMmap.toNat = (c (s.nChunks - 1)).header.toNat +
        (c (s.nChunks - 1)).mapSize.toNat := by
      have hlt := (c (s.nChunks - 1)).header.toNat_lt
      rw [hsorted.max, toNat_add_of_lt]
      omega
    rw [ge_iff_le, UInt64.le_iff_toNat_le, hend] at hmax
    refine .nowhere fun k hk hc => ?_
    rcases mem_live.mp hk with ⟨i, hi, rfl⟩
    have hhi := hc.2
    by_cases hil : i = s.nChunks - 1
    · subst hil
      omega
    · have horder := hsorted.order i (s.nChunks - 1) (by omega) hlast
      have hb := (hinv.mapped i hi).header
      rcases hinv.apart i (s.nChunks - 1) hi hlast hil with h | h <;> omega

/-- The search in the sorted array finds the block that contains the pointer. -/
theorem findSorted_located (p : Uptr) :
    wp (findSorted p) (fun r s' => s' = s ∧ Located (LargeMmap.live s c) p r) s := by
  simp only [findSorted, wp_bind, wp_get, wp_ite, wp_pure]
  split
  · next hout => exact ⟨trivial, hsorted.located_outside hinv hpos hout⟩
  · next hin =>
    rw [not_or, UInt64.not_lt, hsorted.min, UInt64.le_iff_toNat_le] at hin
    have hmono : ∀ i j, i < j → j < s.nChunks → (s.chunks i).toNat < (s.chunks j).toNat := by
      intro i j hij hj
      rw [hinv.chunks i (hij.trans hj), hinv.chunks j hj]
      exact hsorted.order i j hij hj
    have hbeg : (s.chunks 0).toNat ≤ p.toNat := by
      rw [hinv.chunks 0 hpos]
      exact hin.1
    -- the binary search leaves two places, of which the nearest one is taken
    obtain ⟨r, hr⟩ : ∃ r, lowerBound s.chunks p 0 (s.nChunks - 1) = r := ⟨_, rfl⟩
    rcases lowerBound_lastAt hpos hbeg hmono hr with ⟨hcheck, hi⟩
    rw [hr]
    generalize (if r.1 < r.2 ∧ p ≥ s.chunks r.2 then r.2 else r.1) = i at hi
    have hmapped := hinv.mapped i hi.lt
    have hloc := (hsorted.nearest hinv hi).located hinv.live
    have hle := hi.le
    rw [hinv.chunks i hi.lt] at hle
    -- the nearest chunk starts before the pointer, so that only its end is left to compare
    have hnot : ¬ p < (c i).mapBeg := by
      have hlo := hmapped.header
      rw [UInt64.lt_iff_toNat_lt]
      omega
    rw [wp_check, hinv.chunks i hi.lt, wp_eval (readHeader_some (hinv.header i hi.lt))]
    refine ⟨hcheck, ?_⟩
    simp only [headerOf, hnot, or_false]
    split
    · next hp =>
      rw [if_pos hp] at hloc
      exact ⟨trivial, hloc⟩
    · next hp =>
      rw [if_neg hp] at hloc
      rw [wp_eval (getUser_eval hmapped s)]
      exact ⟨rfl, hloc⟩

end

end Caver.Sanitizer.LargeMmap
