import Caver.Sanitizer.FreeListGrowth

/-!
# Caver.Sanitizer.LocalCacheSpecs — what the operations of a cache do

An operation ends with the inventory in order, or the process dies because a region
is exhausted. No `CHECK` fails.

* `drainClass_ends`, `refill_ends`: a batch between a cache and its free list.
* `allocate_ends`, `deallocate_ends`: two nested calls suffice, since the chunks that
  store the batches of other classes are of a class that needs none.
-/

namespace Caver.Sanitizer.LocalCache

open Caver.Core

variable {K k c d n : ℕ} {R C : Set ℕ} {held : Multiset Uptr} {s s' : State}
  {B : Batches} {alloc : CacheM Uptr} {p b : Uptr} {fb : FreeBatch}

/-! ## Batches of a cache -/

/-- The chunks that `Drain` moves, and the ones that stay. -/
theorem drained_chunks {pc : PerClass} {half cnt : ℕ} (hcnt : cnt = min half pc.count)
    (hle : pc.count ≤ 2 * half) {batch : ℕ → Uptr}
    (hbatch : ∀ i, batch i = if i < cnt then pc.batch (i + half) else pc.batch i) (m : ℕ) :
    pc.chunks = (List.range cnt).map pc.batch ++ PerClass.chunks ⟨pc.count - cnt, m, batch⟩ := by
  have hsplit : pc.count = cnt + (pc.count - cnt) := by omega
  unfold PerClass.chunks
  conv_lhs => rw [hsplit, List.range_add, List.map_append, List.map_map]
  congr 1
  refine List.map_congr_left ?_
  intro i hi
  have hi := List.mem_range.mp hi
  have hidx : cnt + i = i + half := by omega
  show pc.batch (cnt + i) = batch i
  rw [hbatch i, if_pos (by omega), hidx]

/-- What is left when the first chunks of a class have been moved to a batch at `b`. -/
def drainedState (b : Uptr) (k c cnt : ℕ) (batch : ℕ → Uptr) (s : State) : State :=
  (s.setMem (writeBatch b (s.caches k c).batch cnt s.mem)).setPerClass k c
    ⟨(s.caches k c).count - cnt, (s.caches k c).maxCount, batch⟩

theorem drainedState_inv {cnt : ℕ} {batch : ℕ → Uptr} (h : Inv K s B (extra c b + held))
    (hk : k < K) (hc : c ∈ classes) (hmax : (s.caches k c).maxCount = 2 * maxCached c)
    (hcnt : cnt = min (maxCached c) (s.caches k c).count) (hpos : 0 < (s.caches k c).count)
    (hbatch : ∀ i, batch i = if i < cnt then (s.caches k c).batch (i + maxCached c)
      else (s.caches k c).batch i)
    (hsep : requiresSeparateBatch c = true → classOf b = batchClass)
    (hown : requiresSeparateBatch c = false → b = (s.caches k c).batch 0) :
    Inv K (drainedState b k c cnt batch s) B
        (FreeBatch.content c ⟨b, (List.range cnt).map (s.caches k c).batch⟩ + held) ∧
      BatchOk (drainedState b k c cnt batch s).mem c
        ⟨b, (List.range cnt).map (s.caches k c).batch⟩ ∧
      Step k R {c} held s (drainedState b k c cnt batch s) ∧ HasRoom b cnt := by
  obtain ⟨front, hfront⟩ : ∃ l, (List.range cnt).map (s.caches k c).batch = l := ⟨_, rfl⟩
  have hle : (s.caches k c).count ≤ 2 * maxCached c := by
    rcases (h.perClass k hk c hc).bound with ⟨_, hle⟩ | ⟨_, hz⟩ <;> omega
  have hmaxPos := (class_facts hc).2.1
  have hlen : front.length = cnt := by simp [← hfront]
  have hchunks := drained_chunks hcnt hle hbatch (s.caches k c).maxCount
  rw [hfront] at hchunks ⊢
  have hall := (h.perClass k hk c hc).chunks_class
  rw [hchunks] at hall
  have hfrontClass : ∀ x ∈ front, classOf x = c := fun x hx =>
    hall x (List.mem_append_left _ hx)
  -- the chunks leave the cache
  have hmoved : Inv K (s.setPerClass k c ⟨(s.caches k c).count - cnt, (s.caches k c).maxCount,
      batch⟩) B (FreeBatch.content c ⟨b, front⟩ + held) := by
    refine h.setPerClass hk hc rfl ?_ (fun x hx => hall x (List.mem_append_right _ hx)) ?_
    · show (s.caches k c).count - cnt ≤ (s.caches k c).maxCount
      omega
    · rw [hchunks, content_eq, ← Multiset.coe_add]
      abel
  -- and the batch is written to a chunk that is now free
  have hfirst : requiresSeparateBatch c = false → b ∈ front := by
    intro hf
    rw [hown hf, ← hfront]
    exact List.mem_map.mpr ⟨0, List.mem_range.mpr (by omega), rfl⟩
  have hmem : b ∈ FreeBatch.content c ⟨b, front⟩ := by
    rw [content_eq]
    cases hs : requiresSeparateBatch c with
    | true => simp [extra, hs]
    | false => simpa [extra, hs] using hfirst hs
  have hhome : classOf b = homeClass c := by
    unfold homeClass
    cases hs : requiresSeparateBatch c with
    | true => exact hsep hs
    | false => exact hfrontClass b (hfirst hs)
  have hbin : b ∈ carvedAll s.regions := by
    have hplaces := hmoved.places
    rw [show carvedAll s.regions = _ from hplaces.symm]
    exact Multiset.mem_add.mpr (Or.inr (Multiset.mem_add.mpr (Or.inl hmem)))
  have hbfree : b ∉ held := by
    have hnodup := (Multiset.nodup_add.mp hmoved.nodup).2.1
    exact Multiset.disjoint_left.mp (Multiset.nodup_add.mp hnodup).2.2 hmem
  rcases carved_start h.roomy hbin with ⟨i, hf, hx, _⟩
  rw [hhome] at hf hx
  have hspace : HasRoom b cnt := hasRoom hc hf hx (by omega)
  have hwrite : ∀ a, writeBatch b (s.caches k c).batch cnt s.mem a ≠ s.mem a → Inside b a :=
    fun a ha => hspace.write_inside ha
  refine ⟨hmoved.write (Multiset.mem_add.mpr (Or.inl hmem)) hwrite, ?_, ?_, hspace⟩
  · have hok : BatchOk (writeBatch b (s.caches k c).batch front.length s.mem) c ⟨b, front⟩ := by
      refine HasRoom.batchOk ⟨b, front⟩ s.mem (hlen ▸ hspace) ?_ ?_ ?_ hfrontClass hhome hfirst
      · simp [← hfront]
      · rw [hlen]
        omega
      · rw [hlen]
        omega
    rw [hlen] at hok
    exact hok
  · exact (Step.of_setMem hbin hbfree hwrite).trans (Step.of_setPerClass rfl rfl)

/-- `Drain` moves a batch to the free list. -/
theorem drainClass_ends (h : Inv K s B held) (hk : k < K) (hc : c ∈ classes)
    (hpos : 0 < (s.caches k c).count)
    (hsep : requiresSeparateBatch c = true → AllocSpec K k alloc) :
    ends (drainClass alloc k c) oom (fun _ s' => (∃ B', Inv K s' B' held) ∧
      Step k (homes c) (insert c (homes c)) held s s' ∧ AllGrown s s' ∧
      (s'.caches k c).maxCount = 2 * maxCached c ∧
      (s'.caches k c).count = (s.caches k c).count - min (maxCached c) (s.caches k c).count) s := by
  unfold drainClass
  rw [ends_bind]
  refine (initCache_ends (R := homes c) (C := insert c (homes c)) h hk).mono ?_
  rintro _ s₁ ⟨h₁, hstep₁, hgrown₁, hmax₁, hsame₁⟩
  rw [ends_bind]
  have hfirst : firstChunk k c s₁ = .ok ((s₁.caches k c).batch 0, s₁) := rfl
  refine (newBatch_ends h₁ hsep hfirst).mono ?_
  rintro b s₂ ⟨B₂, h₂, hclass, hown, hstep₂, hgrown₂⟩
  have hcount₂ := hstep₂.counts c (not_mem_homes hc)
  have hmaxPos := (class_facts hc).2.1
  have hmax₂ : (s₂.caches k c).maxCount = 2 * maxCached c := by
    have hm := hmax₁ c hc
    rw [hstep₂.maxCounts c hc (by omega), hm]
  have hcount : (s₂.caches k c).count = (s.caches k c).count := by
    rw [hcount₂.1, (hsame₁ c).1]
  -- half of what the cache may hold is drained, or all there is
  have hhalf : (s₂.caches k c).maxCount / 2 = maxCached c := by omega
  rw [ends_bind, ends_get]
  dsimp only
  rw [hhalf]
  obtain ⟨cnt, hcnt⟩ : ∃ n, min (maxCached c) (s₂.caches k c).count = n := ⟨_, rfl⟩
  rw [hcnt]
  -- the loop over the items, as one write to the batch and one change of the cache
  rcases drainItems_eq (b := b) (show cnt ≤ maxCached c by omega) s₂.mem (s₂.caches k c).batch with
    ⟨hmem, hbatch⟩
  rcases drainedState_inv (R := homes c) h₂ hk hc hmax₂ hcnt.symm (by omega) hbatch hclass
    (fun hf => by rw [hcount₂.2]; exact (hown hf).1) with ⟨h₃, hok₃, hstep₃, hspace⟩
  rw [hmem, storeItems_update hspace.count_ne, ends_bind, ends_modify]
  change ends _ oom _ (drainedState b k c cnt
    (drainItems b (maxCached c) cnt (s₂.mem, (s₂.caches k c).batch)).2 s₂)
  rw [ends_bind, ends_get, ends_bind]
  refine ends_require_true (decide_eq_true (hok₃.count_pos hc)) ?_
  unfold deallocateBatch
  rw [ends_bind]
  refine ends_require_true (decide_eq_true (mem_classes.mp hc).2) ?_
  rw [ends_bind, ends_get, ends_bind]
  refine ends_require_true (decide_eq_true (hok₃.count_pos hc)) ?_
  refine (push_ends (k := k) (R := homes c) (C := insert c (homes c)) h₃ hc hok₃).mono ?_
  rintro _ s₄ ⟨h₄, hstep₄, hregions₄, hcaches₄⟩
  refine ⟨⟨_, h₄⟩, ?_, ?_, ?_, ?_⟩
  · refine hstep₁.trans ((hstep₂.mono subset_rfl (Set.subset_insert _ _) fun _ hx => hx).trans ?_)
    exact (hstep₃.mono subset_rfl (by simp) fun _ hx => hx).trans hstep₄
  · refine (hgrown₁.trans hgrown₂).trans (AllGrown.of_regions ?_)
    rw [hregions₄]
    rfl
  · rw [hcaches₄]
    simp only [drainedState, State.setPerClass, Function.update_self]
    exact hmax₂
  · rw [hcaches₄]
    simp only [drainedState, State.setPerClass, Function.update_self]
    omega

/-- There is room for one more chunk. -/
theorem drainIfFull_ends (h : Inv K s B held) (hk : k < K) (hc : c ∈ classes)
    (hmax : (s.caches k c).maxCount = 2 * maxCached c)
    (hsep : requiresSeparateBatch c = true → AllocSpec K k alloc) :
    ends (drainIfFull alloc k c) oom (fun _ s' => (∃ B', Inv K s' B' held) ∧
      Step k (homes c) (insert c (homes c)) held s s' ∧ AllGrown s s' ∧
      (s'.caches k c).count < (s'.caches k c).maxCount) s := by
  have hmaxPos := (class_facts hc).2.1
  unfold drainIfFull
  rw [ends_bind, ends_get]
  dsimp only
  rw [ends_ite]
  split
  · next hfull =>
    refine (drainClass_ends h hk hc (by omega) hsep).mono ?_
    rintro _ s' ⟨hinv, hstep, hgrown, hmax', hcount⟩
    exact ⟨hinv, hstep, hgrown, by omega⟩
  · next hroom =>
    rw [ends_pure]
    refine ⟨⟨B, h⟩, Step.refl s, AllGrown.refl s, ?_⟩
    rcases (h.perClass k hk c hc).bound with ⟨_, hle⟩ | ⟨hz, _⟩ <;> omega

/-- A chunk is put on top. -/
theorem put_inv (h : Inv K s B (p ::ₘ held)) (hk : k < K) (hc : c ∈ classes)
    (hp : classOf p = c) (hroom : (s.caches k c).count < (s.caches k c).maxCount) :
    Inv K (s.setPerClass k c ⟨(s.caches k c).count + 1, (s.caches k c).maxCount,
      Function.update (s.caches k c).batch (s.caches k c).count p⟩) B held := by
  have hchunks : PerClass.chunks ⟨(s.caches k c).count + 1, (s.caches k c).maxCount,
      Function.update (s.caches k c).batch (s.caches k c).count p⟩ =
        (s.caches k c).chunks ++ [p] := by
    unfold PerClass.chunks
    dsimp only
    rw [List.range_succ, List.map_append, List.map_singleton, Function.update_self]
    congr 1
    refine List.map_congr_left ?_
    intro i hi
    have hlt := List.mem_range.mp hi
    exact Function.update_of_ne (by omega) _ _
  refine h.setPerClass hk hc rfl hroom ?_ ?_
  · intro x hx
    rw [hchunks] at hx
    rcases List.mem_append.mp hx with hx | hx
    · exact (h.perClass k hk c hc).chunks_class x hx
    · rw [List.mem_singleton.mp hx]
      exact hp
  · rw [hchunks, ← Multiset.coe_add, Multiset.coe_singleton, add_assoc, Multiset.singleton_add]

/-- A chunk that its holder gives back is in the cache, or in a free batch. -/
theorem deallocateWith_ends (h : Inv K s B (p ::ₘ held)) (hk : k < K) (hc : c ∈ classes)
    (hp : classOf p = c) (hsep : requiresSeparateBatch c = true → AllocSpec K k alloc) :
    ends (deallocateWith alloc k c p) oom (fun _ s' => (∃ B', Inv K s' B' held) ∧
      Step k (homes c) (insert c (homes c)) held s s' ∧ AllGrown s s') s := by
  have hheld : ∀ x ∈ held, x ∈ p ::ₘ held := fun x hx => Multiset.mem_cons_of_mem hx
  have hmaxPos := (class_facts hc).2.1
  rcases mem_classes.mp hc with ⟨h0, h53⟩
  unfold deallocateWith
  rw [ends_bind]
  refine ends_require_true (decide_eq_true (by omega)) ?_
  rw [ends_bind]
  refine ends_require_true (decide_eq_true h53) ?_
  rw [ends_bind]
  refine (initCache_ends (R := homes c) (C := insert c (homes c)) h hk).mono ?_
  rintro _ s₁ ⟨h₁, hstep₁, hgrown₁, hmax₁, _⟩
  rw [ends_bind, ends_get, ends_bind]
  refine ends_require_true (decide_eq_true (by rw [hmax₁ c hc]; omega)) ?_
  rw [ends_bind]
  refine (drainIfFull_ends h₁ hk hc (hmax₁ c hc) hsep).mono ?_
  rintro _ s₂ ⟨⟨B₂, h₂⟩, hstep₂, hgrown₂, hroom⟩
  rw [ends_modify]
  refine ⟨⟨B₂, put_inv h₂ hk hc hp hroom⟩, ?_, hgrown₁.trans (hgrown₂.trans ?_)⟩
  · exact ((hstep₁.trans hstep₂).mono subset_rfl subset_rfl hheld).trans
      (Step.of_setPerClass (Set.mem_insert _ _) rfl)
  · exact AllGrown.of_regions rfl

/-- A batch fills an empty class. -/
theorem fill_inv (h : Inv K s B (fb.content c + held)) (hok : BatchOk s.mem c fb) (hk : k < K)
    (hc : c ∈ classes) (hempty : (s.caches k c).count = 0)
    (hmax : (s.caches k c).maxCount = 2 * maxCached c) {n : ℕ} (hn : n = fb.chunks.length) :
    Inv K (s.setPerClass k c ⟨n, (s.caches k c).maxCount,
      loadItems fb.addr s.mem n (s.caches k c).batch⟩) B (extra c fb.addr + held) := by
  have hle := hok.length_le
  have hchunks : PerClass.chunks ⟨n, (s.caches k c).maxCount,
      loadItems fb.addr s.mem n (s.caches k c).batch⟩ = fb.chunks := by
    unfold PerClass.chunks
    refine List.ext_get (by simp [hn]) ?_
    intro i hi hi'
    have hlt : i < n := by omega
    simp only [List.get_eq_getElem, List.getElem_map, List.getElem_range, loadItems_eq, if_pos hlt]
    exact hok.items i hi'
  have hold : (s.caches k c).chunks = [] := by
    simp [PerClass.chunks, hempty]
  refine h.setPerClass hk hc rfl ?_ ?_ ?_
  · show n ≤ (s.caches k c).maxCount
    omega
  · rw [hchunks]
    exact hok.chunks_class
  · rw [hchunks, hold, content_eq, Multiset.coe_nil, zero_add, add_assoc]

/-- `Refill` leaves at least one chunk in the class. -/
theorem refill_ends (h : Inv K s B held) (hk : k < K) (hc : c ∈ classes)
    (hempty : (s.caches k c).count = 0)
    (hsep : requiresSeparateBatch c = true → AllocSpec K k alloc) :
    ends (refill alloc k c) oom (fun _ s' => (∃ B', Inv K s' B' held) ∧
      Step k (insert c (homes c)) (insert c (homes c)) held s s' ∧ AllGrown s s' ∧
      0 < (s'.caches k c).count) s := by
  have hmaxPos := (class_facts hc).2.1
  unfold refill
  rw [ends_bind]
  refine (initCache_ends (R := insert c (homes c)) (C := insert c (homes c)) h hk).mono ?_
  rintro _ s₁ ⟨h₁, hstep₁, hgrown₁, hmax₁, hsame₁⟩
  rw [ends_bind]
  refine (allocateBatch_ends h₁ hc hsep).mono ?_
  rintro b s₂ ⟨⟨B₂, fb, rfl, h₂, hok₂⟩, hstep₂, hgrown₂⟩
  have hempty₂ : (s₂.caches k c).count = 0 := by
    rw [(hstep₂.counts c (not_mem_homes hc)).1, (hsame₁ c).1, hempty]
  have hmax₂ : (s₂.caches k c).maxCount = 2 * maxCached c := by
    have hm := hmax₁ c hc
    rw [hstep₂.maxCounts c hc (by omega), hm]
  have hcount := hok₂.count_toNat hc
  rw [ends_bind, ends_get, ends_bind]
  refine ends_require_true (decide_eq_true (by rw [hcount]; exact hok₂.nonempty)) ?_
  rw [ends_bind, ends_modify, ends_ite]
  have h₃ := fill_inv h₂ hok₂ hk hc hempty₂ hmax₂ hcount
  have hstep₃ : Step k (insert c (homes c)) (insert c (homes c)) held s
      (s₂.setPerClass k c ⟨(s₂.mem (countAt fb.addr)).toNat, (s₂.caches k c).maxCount,
        loadItems fb.addr s₂.mem (s₂.mem (countAt fb.addr)).toNat (s₂.caches k c).batch⟩) :=
    (hstep₁.trans (hstep₂.mono subset_rfl (Set.subset_insert _ _) fun _ hx => hx)).trans
      (Step.of_setPerClass (Set.mem_insert _ _) rfl)
  have hcount₃ : 0 < ((s₂.setPerClass k c ⟨(s₂.mem (countAt fb.addr)).toNat,
      (s₂.caches k c).maxCount, loadItems fb.addr s₂.mem (s₂.mem (countAt fb.addr)).toNat
        (s₂.caches k c).batch⟩).caches k c).count := by
    simp only [State.setPerClass, Function.update_self]
    rw [hcount]
    exact hok₂.nonempty
  split
  · next hs =>
    -- the chunk that stored the batch goes back to its class
    rw [extra, if_pos hs, Multiset.singleton_add] at h₃
    have hclass : classOf fb.addr = batchClass := by
      rw [hok₂.addr_class, homeClass, if_pos hs]
    have hnot : requiresSeparateBatch batchClass = true → AllocSpec K k alloc := fun ht =>
      absurd (batchClass_not_separate ▸ ht) (by decide)
    refine (deallocateWith_ends h₃ hk batchClass_mem hclass hnot).mono ?_
    rintro _ s₄ ⟨h₄, hstep₄, hgrown₄⟩
    rw [homes_of_not_separate batchClass_not_separate] at hstep₄
    have hhome : homes c = {batchClass} := homes_of_separate hs
    refine ⟨h₄, hstep₃.trans (hstep₄.mono (Set.empty_subset _) ?_ fun _ hx => hx), ?_, ?_⟩
    · rw [hhome]
      intro d hd
      exact Set.mem_insert_of_mem _ (by simpa using hd)
    · exact hgrown₁.trans (hgrown₂.trans hgrown₄)
    · have hne : c ∉ insert batchClass (∅ : Set ℕ) := by
        intro hmem
        exact not_mem_homes hc (hhome ▸ (by simpa using hmem))
      rw [(hstep₄.counts c hne).1]
      exact hcount₃
  · next hs =>
    rw [ends_pure]
    rw [extra, if_neg hs, zero_add] at h₃
    exact ⟨⟨_, h₃⟩, hstep₃, hgrown₁.trans hgrown₂, hcount₃⟩

/-- The top chunk is taken. -/
theorem take_inv (h : Inv K s B held) (hk : k < K) (hc : c ∈ classes)
    (hpos : 0 < (s.caches k c).count) :
    Inv K (s.setPerClass k c ⟨(s.caches k c).count - 1, (s.caches k c).maxCount,
        (s.caches k c).batch⟩) B ((s.caches k c).batch ((s.caches k c).count - 1) ::ₘ held) ∧
      classOf ((s.caches k c).batch ((s.caches k c).count - 1)) = c := by
  obtain ⟨n, hn⟩ : ∃ n, (s.caches k c).count = n + 1 := ⟨_, (Nat.succ_pred_eq_of_pos hpos).symm⟩
  have hok := h.perClass k hk c hc
  have hchunks : (s.caches k c).chunks =
      PerClass.chunks ⟨n, (s.caches k c).maxCount, (s.caches k c).batch⟩ ++
        [(s.caches k c).batch n] := by
    unfold PerClass.chunks
    rw [hn, List.range_succ, List.map_append, List.map_singleton]
  rw [hn, Nat.add_sub_cancel]
  have hclass := hok.chunks_class
  rw [hchunks] at hclass
  refine ⟨h.setPerClass hk hc rfl ?_ ?_ ?_, hclass _ (by simp)⟩
  · show n ≤ (s.caches k c).maxCount
    rcases hok.bound with ⟨_, hle⟩ | ⟨_, hz⟩ <;> omega
  · exact fun x hx => hclass x (List.mem_append_left _ hx)
  · rw [hchunks, ← Multiset.coe_add, Multiset.coe_singleton, add_assoc, Multiset.singleton_add]

/-- A call of `Allocate` whose nested calls do what is asked of them. -/
theorem allocate_round {depth : ℕ} (h : Inv K s B held) (hk : k < K) (hc : c ∈ classes)
    (hsep : requiresSeparateBatch c = true → AllocSpec K k (allocate depth k batchClass)) :
    ends (allocate (depth + 1) k c) oom (fun p s' => (∃ B', Inv K s' B' (p ::ₘ held)) ∧
      classOf p = c ∧ Step k (insert c (homes c)) (insert c (homes c)) held s s' ∧
      AllGrown s s') s := by
  rcases mem_classes.mp hc with ⟨h0, h53⟩
  rw [allocate, ends_bind]
  refine ends_require_true (decide_eq_true (by omega)) ?_
  rw [ends_bind]
  refine ends_require_true (decide_eq_true h53) ?_
  rw [ends_bind]
  have hrefill : ends (refillIfEmpty (allocate depth k batchClass) k c) oom (fun _ s' =>
      (∃ B', Inv K s' B' held) ∧ Step k (insert c (homes c)) (insert c (homes c)) held s s' ∧
        AllGrown s s' ∧ 0 < (s'.caches k c).count) s := by
    unfold refillIfEmpty
    rw [ends_bind, ends_get, ends_ite]
    split
    · next hempty => exact refill_ends h hk hc hempty hsep
    · next hne => exact ⟨⟨B, h⟩, Step.refl s, AllGrown.refl s, Nat.pos_of_ne_zero hne⟩
  refine hrefill.mono ?_
  rintro _ s₁ ⟨⟨B₁, h₁⟩, hstep₁, hgrown₁, hpos⟩
  rcases take_inv h₁ hk hc hpos with ⟨hinv, hclass⟩
  rw [ends_bind, ends_modify, ends_bind, ends_get, ends_pure]
  simp only [State.setPerClass, Function.update_self]
  refine ⟨⟨B₁, hinv⟩, hclass, hstep₁.trans (Step.of_setPerClass (Set.mem_insert _ _) rfl), ?_⟩
  exact hgrown₁.trans (AllGrown.of_regions rfl)

/-- One call is enough where a batch fits into its own chunks. -/
theorem allocate_batchClass (hk : k < K) : AllocSpec K k (allocate 1 k batchClass) := by
  intro s B held h
  have hnot : requiresSeparateBatch batchClass = true →
      AllocSpec K k (allocate 0 k batchClass) := fun ht =>
    absurd (batchClass_not_separate ▸ ht) (by decide)
  refine (allocate_round h hk batchClass_mem hnot).mono ?_
  rintro p s' ⟨⟨B', hinv⟩, hclass, hstep, hgrown⟩
  rw [homes_of_not_separate batchClass_not_separate, insert_empty_eq] at hstep
  exact ⟨B', hinv, hclass, hstep, hgrown⟩

/-- And two calls are enough for every class. -/
theorem allocate_ends (h : Inv K s B held) (hk : k < K) (hc : c ∈ classes) :
    ends (allocate 2 k c) oom (fun p s' => (∃ B', Inv K s' B' (p ::ₘ held)) ∧
      classOf p = c ∧ Step k (insert c (homes c)) (insert c (homes c)) held s s' ∧
      AllGrown s s') s :=
  allocate_round h hk hc fun _ => allocate_batchClass hk

theorem deallocate_ends (h : Inv K s B (p ::ₘ held)) (hk : k < K) (hc : c ∈ classes)
    (hp : classOf p = c) :
    ends (deallocate k c p) oom (fun _ s' => (∃ B', Inv K s' B' held) ∧
      Step k (homes c) (insert c (homes c)) held s s' ∧ AllGrown s s') s :=
  deallocateWith_ends h hk hc hp fun _ => allocate_batchClass hk

end Caver.Sanitizer.LocalCache
