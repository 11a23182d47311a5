import Caver.Sanitizer.LocalCacheSteps

/-!
# Caver.Sanitizer.FreeListGrowth — `PopulateFreeList` and its batches

New chunks are carved batch by batch, and every batch is stored in one of them or in
a chunk that the cache finds.

* `nextState_inv`: one round of the loop puts a batch of new chunks in hand.
* `carve_ends`: the loop carves what `carveBatches` says.
* `populate_ends`, `allocateBatch_ends`: the region is the one that `populateFreeList`
  has, or the process dies because it is exhausted. No `CHECK` fails.
-/

namespace Caver.Sanitizer.LocalCache

open Caver.Core

variable {K k c d n : ℕ} {R C : Set ℕ} {held : Multiset Uptr} {s s' : State}
  {B : Batches} {alloc : CacheM Uptr} {p b : Uptr} {fb : FreeBatch}

/-! ## Memory for a batch -/

/-- The chunk that stores a batch, where that is not one of its own. -/
def extra (c : ℕ) (b : Uptr) : Multiset Uptr := if requiresSeparateBatch c then {b} else 0

theorem content_eq (c : ℕ) (fb : FreeBatch) : fb.content c = ↑fb.chunks + extra c fb.addr := rfl

/-- What is asked of `Allocate` when it finds memory for a batch. -/
def AllocSpec (K k : ℕ) (alloc : CacheM Uptr) : Prop :=
  ∀ s B held, Inv K s B held → ends alloc oom (fun p s' => ∃ B', Inv K s' B' (p ::ₘ held) ∧
    classOf p = batchClass ∧ Step k {batchClass} {batchClass} held s s' ∧ AllGrown s s') s

theorem not_mem_homes (hc : c ∈ classes) : c ∉ homes c := by
  rintro ⟨hsep, heq⟩
  have hlt := (class_facts hc).2.2.2.2 hsep
  omega

theorem homes_of_separate (h : requiresSeparateBatch c = true) : homes c = {batchClass} := by
  ext d
  simp [homes, h]

theorem homes_of_not_separate (h : requiresSeparateBatch c = false) : homes c = ∅ := by
  ext d
  simp [homes, h]

/-- The two places where a batch can be stored. -/
theorem newBatch_ends (h : Inv K s B held)
    (hsep : requiresSeparateBatch c = true → AllocSpec K k alloc) {first : CacheM Uptr} {q : Uptr}
    (hfirst : first s = .ok (q, s)) :
    ends (batchMemory c alloc first) oom (fun b s' =>
      ∃ B', Inv K s' B' (extra c b + held) ∧
        (requiresSeparateBatch c = true → classOf b = batchClass) ∧
        (requiresSeparateBatch c = false → b = q ∧ s' = s ∧ B' = B) ∧
        Step k (homes c) (homes c) held s s' ∧ AllGrown s s') s := by
  rw [batchMemory, ends_ite]
  cases hc : requiresSeparateBatch c with
  | true =>
    rw [if_pos rfl, homes_of_separate hc]
    refine (hsep hc s B held h).mono ?_
    rintro b s' ⟨B', hinv, hclass, hstep, hgrown⟩
    refine ⟨B', ?_, fun _ => hclass, fun hf => absurd hf (by decide), hstep, hgrown⟩
    rw [extra, if_pos hc]
    exact hinv
  | false =>
    rw [if_neg (by decide)]
    unfold ends
    rw [hfirst]
    refine ⟨B, ?_, fun ht => absurd ht (by decide), fun _ => ⟨rfl, rfl, rfl⟩, Step.refl s,
      AllGrown.refl s⟩
    rw [extra, if_neg (by rw [hc]; decide), zero_add]
    exact h

/-! ## Growth -/

theorem inRegion_eq (c n i : ℕ) :
    inRegion c (n * chunkSize c + i * chunkSize c) = chunk c (n + i) := by
  unfold inRegion chunk chunkBeg
  congr 1
  ring

/-- The chunks of the next batch. -/
def nextChunks (c begIdx : ℕ) : List Uptr :=
  (List.range (batchCount c)).map fun i => inRegion c (begIdx + i * chunkSize c)

theorem nextChunks_length (c begIdx : ℕ) : (nextChunks c begIdx).length = batchCount c := by
  simp [nextChunks]

/-- The region after the next batch. -/
def nextRegion (c : ℕ) (r : RegionInfo) : RegionInfo :=
  { r with allocatedUser := r.allocatedUser + batchCount c * chunkSize c }

/-- The state after one round of the loop. -/
def nextState (c : ℕ) (b : Uptr) (begIdx : ℕ) (s : State) : State :=
  (s.setMem (writeBatch b (fun i => inRegion c (begIdx + i * chunkSize c)) (batchCount c)
    s.mem)).setRegion c (nextRegion c (s.regions c))

theorem nextRegion_room {r : RegionInfo} (h : RegionInfo.Room c r)
    (hroom : r.allocatedUser + batchCount c * chunkSize c ≤ r.mappedUser) :
    RegionInfo.Room c (nextRegion c r) where
  whole := Nat.dvd_add h.whole (Nat.dvd_mul_left _ _)
  user_mapped := hroom
  apart := h.apart

theorem carvedOf_nextRegion (hc : c ∈ classes) {r : RegionInfo} (h : RegionInfo.Room c r) :
    carvedOf c (nextRegion c r) = ↑(nextChunks c r.allocatedUser) + carvedOf c r := by
  have hpos := chunkSize_pos (mem_classes.mp hc).1 (mem_classes.mp hc).2
  rcases h.whole with ⟨n, hn⟩
  have hn' : r.allocatedUser = n * chunkSize c := by rw [hn, Nat.mul_comm]
  unfold carvedOf nextRegion nextChunks
  dsimp only
  rw [hn', ← Nat.add_mul, Nat.mul_div_cancel _ hpos, Nat.mul_div_cancel _ hpos,
    Multiset.range_add, Multiset.map_add, Multiset.map_map, add_comm]
  congr 1
  simp only [inRegion_eq]
  rfl

/-- One round of the loop: a batch of new chunks is in hand. -/
theorem nextState_inv (h : Inv K s B (extra c b + held)) (hc : c ∈ classes)
    (hroom : (s.regions c).allocatedUser + batchCount c * chunkSize c ≤ (s.regions c).mappedUser)
    (hsep : requiresSeparateBatch c = true → classOf b = batchClass)
    (hown : requiresSeparateBatch c = false → b = inRegion c (s.regions c).allocatedUser) :
    Inv K (nextState c b (s.regions c).allocatedUser s) B
        (FreeBatch.content c ⟨b, nextChunks c (s.regions c).allocatedUser⟩ + held) ∧
      BatchOk (nextState c b (s.regions c).allocatedUser s).mem c
        ⟨b, nextChunks c (s.regions c).allocatedUser⟩ ∧
      Step k {c} C held s (nextState c b (s.regions c).allocatedUser s) := by
  obtain ⟨u, hu⟩ : ∃ u, (s.regions c).allocatedUser = u := ⟨_, rfl⟩
  rw [hu] at hroom hown ⊢
  have hcarved := carvedOf_nextRegion hc (h.roomy c hc)
  rw [hu] at hcarved
  have hregion := h.setRegion hc (nextRegion_room (h.roomy c hc) (hu ▸ hroom)) hcarved
  have hsum : (↑(nextChunks c u) + (extra c b + held) : Multiset Uptr) =
      FreeBatch.content c ⟨b, nextChunks c u⟩ + held := by
    rw [content_eq]
    exact (add_assoc _ _ _).symm
  rw [hsum] at hregion
  -- the chunk that stores the batch is the first one of it, or was free
  have hfirst : requiresSeparateBatch c = false → b ∈ nextChunks c u := by
    intro hf
    refine List.mem_map.mpr ⟨0, List.mem_range.mpr (batchCount_pos (mem_classes.mp hc).1), ?_⟩
    rw [Nat.zero_mul, Nat.add_zero]
    exact (hown hf).symm
  have hmem : b ∈ FreeBatch.content c ⟨b, nextChunks c u⟩ := by
    rw [content_eq]
    cases hs : requiresSeparateBatch c with
    | true => simp [extra, hs]
    | false => simpa [extra, hs] using hfirst hs
  have hplaces := hregion.places
  have hin : ∀ x ∈ FreeBatch.content c ⟨b, nextChunks c u⟩ + held,
      x ∈ carvedAll (s.setRegion c (nextRegion c (s.regions c))).regions := by
    intro x hx
    rw [← hplaces]
    exact Multiset.mem_add.mpr (Or.inr hx)
  -- the batch is in a carved chunk which no client holds
  have hbin := hin b (Multiset.mem_add.mpr (Or.inl hmem))
  have hbfree : b ∉ held := by
    have hnodup := (Multiset.nodup_add.mp hregion.nodup).2.1
    exact Multiset.disjoint_left.mp (Multiset.nodup_add.mp hnodup).2.2 hmem
  -- the new chunks are behind those carved before, and of the same class
  have hclass : ∀ x ∈ nextChunks c u, classOf x = c := by
    intro x hx
    have hx' : x ∈ carvedOf c (nextRegion c (s.regions c)) := by
      rw [hcarved]
      exact Multiset.mem_add.mpr (Or.inl hx)
    rcases mem_carvedOf.mp hx' with ⟨i, hi, rfl⟩
    have hf := (nextRegion_room (h.roomy c hc) (hu ▸ hroom)).fits hc hi
    exact (chunk_user hf (chunk_toNat hf)).2.2
  have hhome : classOf b = homeClass c := by
    unfold homeClass
    cases hs : requiresSeparateBatch c with
    | true => exact hsep hs
    | false => exact hclass b (hfirst hs)
  rcases carved_start hregion.roomy hbin with ⟨i, hf, hx, _⟩
  rw [hhome] at hf hx
  -- a chunk has room for a batch, so that only its own bytes are written
  have hspace : HasRoom b (nextChunks c u).length := by
    rw [nextChunks_length]
    exact hasRoom hc hf hx (class_facts hc).2.2.2.1
  have hlen := nextChunks_length c u
  have hwrite : ∀ a, writeBatch b (fun i => inRegion c (u + i * chunkSize c)) (batchCount c)
      s.mem a ≠ s.mem a → Inside b a := fun a ha => (hlen ▸ hspace).write_inside ha
  refine ⟨hregion.write (Multiset.mem_add.mpr (Or.inl hmem)) hwrite, ?_, ?_⟩
  · have hok : BatchOk (writeBatch b (fun i => inRegion c (u + i * chunkSize c))
        (nextChunks c u).length s.mem) c ⟨b, nextChunks c u⟩ := by
      refine HasRoom.batchOk ⟨b, nextChunks c u⟩ s.mem hspace ?_ ?_ ?_ hclass hhome hfirst
      · simp [nextChunks]
      · rw [hlen]
        exact batchCount_pos (mem_classes.mp hc).1
      · rw [hlen]
        exact (class_facts hc).2.2.2.1
    rw [hlen] at hok
    exact hok
  · have hstep : Step k {c} C held s (s.setRegion c (nextRegion c (s.regions c))) := by
      refine Step.of_setRegion rfl ?_
      intro x hx
      rw [hcarved]
      exact Multiset.mem_add.mpr (Or.inr hx)
    exact hstep.trans (Step.of_setMem hbin hbfree hwrite)

/-- A batch that the operation has in hand. -/
def InHand (K c : ℕ) (held : Multiset Uptr) (b : Uptr) (s : State) : Prop :=
  ∃ B fb, fb.addr = b ∧ Inv K s B (fb.content c + held) ∧ BatchOk s.mem c fb

/-- What one round of the loop does before it returns or goes on. -/
theorem carve_round {newBatch : ℕ → CacheM Uptr} {fuel : ℕ} (h : Inv K s B held)
    (hc : c ∈ classes)
    (hnew : newBatch (s.regions c).allocatedUser =
      batchMemory c alloc (pure (inRegion c (s.regions c).allocatedUser)))
    (hsep : requiresSeparateBatch c = true → AllocSpec K k alloc)
    (hroom : (s.regions c).allocatedUser + batchCount c * chunkSize c ≤ (s.regions c).mappedUser)
    {Q : Uptr → State → Prop}
    (hlast : ∀ b s', InHand K c held b s' → Step k (insert c (homes c)) (homes c) held s s' →
      (∀ d ∈ classes, d ≠ c → Grows d (s.regions d) (s'.regions d)) →
      s'.regions c = nextRegion c (s.regions c) →
      (s.regions c).allocatedUser + batchCount c * chunkSize c + batchCount c * chunkSize c +
        chunkSize c > (s.regions c).mappedUser → Q b s')
    (hmore : ∀ s' B', Inv K s' B' held → Step k (insert c (homes c)) (homes c) held s s' →
      (∀ d ∈ classes, d ≠ c → Grows d (s.regions d) (s'.regions d)) →
      s'.regions c = nextRegion c (s.regions c) →
      (s.regions c).allocatedUser + batchCount c * chunkSize c + batchCount c * chunkSize c +
        chunkSize c ≤ (s.regions c).mappedUser →
      ends (carve newBatch c fuel ((s.regions c).allocatedUser + batchCount c * chunkSize c))
        oom Q s') :
    ends (carve newBatch c (fuel + 1) (s.regions c).allocatedUser) oom Q s := by
  rw [carve, ends_bind, hnew]
  refine (newBatch_ends h hsep rfl).mono ?_
  rintro b s₁ ⟨B₁, hinv, hclass, hown, hstep, hgrown⟩
  have hsame : s₁.regions c = s.regions c := hstep.regions c (not_mem_homes hc)
  rw [← hsame] at hroom hlast hmore hown ⊢
  rcases nextState_inv (k := k) (C := homes c) hinv hc hroom hclass (fun hf => (hown hf).1) with
    ⟨hinv₂, hok₂, hstep₂⟩
  -- the batch and the chunks carved for it, as one step
  have hall : Step k (insert c (homes c)) (homes c) held s
      (nextState c b (s₁.regions c).allocatedUser s₁) :=
    (hstep.mono (Set.subset_insert _ _) subset_rfl fun _ hx => hx).trans
      (hstep₂.mono (by simp) subset_rfl fun _ hx => hx)
  have hgrown₂ : ∀ d ∈ classes, d ≠ c → Grows d (s.regions d)
      ((nextState c b (s₁.regions c).allocatedUser s₁).regions d) := by
    intro d hd hdc
    have hkeep : (nextState c b (s₁.regions c).allocatedUser s₁).regions d = s₁.regions d :=
      Function.update_of_ne hdc _ _
    rw [hkeep]
    exact hgrown d hd
  have hregion : (nextState c b (s₁.regions c).allocatedUser s₁).regions c =
      nextRegion c (s₁.regions c) := Function.update_self _ _ _
  rw [ends_bind, ends_modify, ends_bind, ends_modify, ends_bind, ends_modify]
  change ends _ oom _ (nextState c b (s₁.regions c).allocatedUser s₁)
  rw [ends_bind, ends_get, ends_bind]
  refine ends_require_true ?_ ?_
  · rw [hregion, decide_eq_true_eq]
    exact hroom
  · rw [ends_ite, hregion]
    split
    -- there is no room for two more batches: this one is returned
    · next hfull => exact hlast b _ ⟨_, _, rfl, hinv₂, hok₂⟩ hall hgrown₂ hregion hfull
    -- else it goes to the free list, and the loop goes on
    · next hfits =>
      rw [ends_bind]
      refine ends_require_true (decide_eq_true (hok₂.count_pos hc)) ?_
      rw [ends_bind]
      refine (push_ends (k := k) (R := ∅) (C := homes c) hinv₂ hc hok₂).mono ?_
      rintro _ s₃ ⟨hinv₃, hstep₃, hregions₃, _⟩
      refine hmore s₃ _ hinv₃ (hall.trans (hstep₃.mono (by simp) subset_rfl fun _ hx => hx)) ?_ ?_
        (not_lt.mp hfits)
      · rw [hregions₃]
        exact hgrown₂
      · rw [hregions₃]
        exact hregion

/-- The loop carves what `carveBatches` says, and has the last batch in hand. -/
theorem carve_ends (newBatch : ℕ → CacheM Uptr) (fuel : ℕ) (h : Inv K s B held)
    (hc : c ∈ classes)
    (hnew : ∀ n, newBatch n = batchMemory c alloc (pure (inRegion c n)))
    (hsep : requiresSeparateBatch c = true → AllocSpec K k alloc)
    (hroom : (s.regions c).allocatedUser + batchCount c * chunkSize c + chunkSize c ≤
      (s.regions c).mappedUser)
    (hfuel : (s.regions c).mappedUser - (s.regions c).allocatedUser < fuel) :
    ends (carve newBatch c fuel (s.regions c).allocatedUser) oom (fun b s' =>
      InHand K c held b s' ∧ Step k (insert c (homes c)) (homes c) held s s' ∧
        (∀ d ∈ classes, d ≠ c → Grows d (s.regions d) (s'.regions d)) ∧
        ∃ u, carveBatches (batchCount c * chunkSize c) (chunkSize c) (s.regions c).mappedUser
            (s.regions c).allocatedUser = some u ∧
          s'.regions c = { s.regions c with allocatedUser := u }) s := by
  have hstep : 0 < batchCount c * chunkSize c := by
    rcases mem_classes.mp hc with ⟨h0, h53⟩
    exact Nat.mul_pos (batchCount_pos h0) (chunkSize_pos h0 h53)
  induction fuel generalizing s B with
  | zero => exact absurd hfuel (Nat.not_lt_zero _)
  | succ fuel ih =>
    refine carve_round h hc (hnew _) hsep (by omega) ?_ ?_
    -- the last round
    · intro b s' hhand hs hgrown hregion hfull
      refine ⟨hhand, hs, hgrown, (s.regions c).allocatedUser + batchCount c * chunkSize c, ?_,
        hregion⟩
      rw [carveBatches, if_neg (by omega), if_pos (Or.inl hfull)]
    -- one more round: what is mapped stays, and less of it is left
    · intro s' B' hinv hs hgrown hregion hfits
      have huser : (s'.regions c).allocatedUser =
          (s.regions c).allocatedUser + batchCount c * chunkSize c := by
        rw [hregion, nextRegion]
      have hmapped : (s'.regions c).mappedUser = (s.regions c).mappedUser := by
        rw [hregion, nextRegion]
      have hnext := ih hinv (by omega) (by omega)
      rw [huser, hmapped] at hnext
      refine hnext.mono ?_
      rintro b s'' ⟨hhand, hs', hgrown', u, hu, hregion'⟩
      refine ⟨hhand, hs.trans hs', fun d hd hdc => (hgrown d hd hdc).trans (hgrown' d hd hdc),
        u, ?_, ?_⟩
      · rw [carveBatches, if_neg (by omega), if_neg (by omega)]
        exact hu
      · rw [hregion', hregion]
        rfl

theorem populateFreeList_mapRegion (c : ℕ) (r : RegionInfo) :
    populateFreeList c r =
      if (mapRegion c r).mappedUser + (mapRegion c r).mappedMeta > kRegionSize.toNat then none
      else (carveBatches (batchCount c * chunkSize c) (chunkSize c) (mapRegion c r).mappedUser
        r.allocatedUser).map fun u => { mapRegion c r with allocatedUser := u } := by
  rw [Option.map_eq_bind]
  rfl

theorem mapRegion_mapped (c : ℕ) (r : RegionInfo) :
    r.allocatedUser + batchCount c * chunkSize c + chunkSize c ≤ (mapRegion c r).mappedUser ∧
      r.mappedUser ≤ (mapRegion c r).mappedUser ∧
      (mapRegion c r).allocatedMeta ≤ (mapRegion c r).mappedMeta :=
  ⟨le_mapUpTo _ _, mapUpTo_mono _ _, le_mapUpTo _ _⟩

/-- `PopulateFreeList` grows its region as `populateFreeList` does, or dies as that does. -/
theorem populate_ends (h : Inv K s B held) (hc : c ∈ classes)
    (hsep : requiresSeparateBatch c = true → AllocSpec K k alloc) :
    ends (populate alloc c) oom (fun b s' => InHand K c held b s' ∧
      Step k (insert c (homes c)) (homes c) held s s' ∧ AllGrown s s') s := by
  unfold populate
  rw [ends_bind]
  refine (pop_ends h hc).mono ?_
  rintro b s₀ (⟨rfl, rfl⟩ | ⟨fb, rest, rfl, hne, hok, hinv, rfl⟩)
  -- the free list is empty: the region is mapped further, and chunks are carved
  · rw [if_neg (by simp), ends_bind, ends_modify, ends_bind, ends_get]
    obtain ⟨r, hr⟩ : ∃ r, s₀.regions c = r := ⟨_, rfl⟩
    have hself : (s₀.setRegion c (mapRegion c (s₀.regions c))).regions c = mapRegion c r := by
      rw [hr]
      exact Function.update_self _ _ _
    rcases mapRegion_mapped c r with ⟨huser, hmono, hmeta⟩
    rw [hself, ends_bind]
    refine ends_require_true (decide_eq_true ?_) ?_
    · show r.allocatedUser + batchCount c * chunkSize c ≤ (mapRegion c r).mappedUser
      omega
    rw [ends_bind]
    refine ends_require_true (decide_eq_true hmeta) ?_
    rw [ends_bind, ends_require]
    -- behind the end of the region the allocator is out of memory
    refine ⟨fun hsize => ?_, fun _ => rfl⟩
    have hsize := of_decide_eq_true hsize
    have hroomy := h.roomy c hc
    rw [hr] at hroomy
    have hroom : RegionInfo.Room c (mapRegion c r) :=
      ⟨hroomy.whole, hroomy.user_mapped.trans hmono, by rwa [kRegionSize_toNat] at hsize⟩
    have hmapped : Inv K (s₀.setRegion c (mapRegion c r)) B (0 + held) :=
      h.setRegion hc hroom (by rw [hr, zero_add]; rfl)
    rw [zero_add, ← hr] at hmapped
    have hcarve := carve_ends (fun begIdx => batchMemory c alloc (pure (inRegion c begIdx)))
      ((mapRegion c r).mappedUser + 1) hmapped hc (fun _ => rfl) hsep
      (by rw [hself]; exact huser) (by rw [hself]; omega)
    rw [hself] at hcarve
    refine hcarve.mono ?_
    rintro b s' ⟨hhand, hstep, hgrown, u, hu, hregion⟩
    refine ⟨hhand, ?_, ?_⟩
    · have hset : Step k (insert c (homes c)) (homes c) held s₀
          (s₀.setRegion c (mapRegion c (s₀.regions c))) :=
        Step.of_setRegion (Set.mem_insert _ _) fun x hx => hx
      exact hset.trans hstep
    · intro d hd
      by_cases hdc : d = c
      · subst hdc
        refine Relation.ReflTransGen.single ?_
        rw [hr, populateFreeList_mapRegion, if_neg (not_lt.mpr hsize), hregion]
        rw [show r.allocatedUser = (mapRegion d r).allocatedUser from rfl, hu]
        rfl
      · have hold : (s₀.setRegion c (mapRegion c (s₀.regions c))).regions d = s₀.regions d :=
          Function.update_of_ne hdc _ _
        rw [← hold]
        exact hgrown d hd hdc
  -- a batch was there
  · rw [if_pos hne, ends_pure]
    exact ⟨⟨_, fb, rfl, hinv, hok⟩, Step.of_setFreeList _, AllGrown.of_regions rfl⟩

theorem allocateBatch_ends (h : Inv K s B held) (hc : c ∈ classes)
    (hsep : requiresSeparateBatch c = true → AllocSpec K k alloc) :
    ends (allocateBatch alloc c) oom (fun b s' => InHand K c held b s' ∧
      Step k (insert c (homes c)) (homes c) held s s' ∧ AllGrown s s') s := by
  unfold allocateBatch
  rw [ends_bind]
  refine ends_require_true (decide_eq_true (mem_classes.mp hc).2) ?_
  rw [ends_bind]
  refine (pop_ends h hc).mono ?_
  rintro b s₀ (⟨rfl, rfl⟩ | ⟨fb, rest, rfl, hne, hok, hinv, rfl⟩)
  · rw [if_neg (by simp)]
    exact populate_ends h hc hsep
  · rw [if_pos hne, ends_pure]
    exact ⟨⟨_, fb, rfl, hinv, hok⟩, Step.of_setFreeList _, AllGrown.of_regions rfl⟩

end Caver.Sanitizer.LocalCache
