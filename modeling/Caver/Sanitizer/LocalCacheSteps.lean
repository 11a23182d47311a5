import Caver.Sanitizer.FreeChunks
import Mathlib.Logic.Relation

/-!
# Caver.Sanitizer.LocalCacheSteps — frames, and what single accesses do

* `Step`: what an operation leaves alone. Memory changes in free chunks only.
* `initCache_ends`: `InitCache` sets limits, and nothing else.
* `HasRoom.batchOk`: a batch that is written into a chunk is there.
* `pop_ends`, `push_ends`: a batch between its holder and the free list.
-/

namespace Caver.Sanitizer.LocalCache

open Caver.Core

/-! ## Frames -/

/-- The one cause of death that is left. -/
def oom (e : Death) : Prop := e = .outOfMemory

/-- A region has been populated any number of times. -/
def Grows (c : ℕ) : RegionInfo → RegionInfo → Prop :=
  Relation.ReflTransGen fun r r' => populateFreeList c r = some r'

def AllGrown (s s' : State) : Prop := ∀ c ∈ classes, Grows c (s.regions c) (s'.regions c)

/-- The step is one of cache `k`. It changes nothing but the regions in `R`, the
chunks of the cache in the classes `C`, and memory in chunks that are not in `held`. -/
structure Step (k : ℕ) (R C : Set ℕ) (held : Multiset Uptr) (s s' : State) : Prop where
  regions : ∀ d, d ∉ R → s'.regions d = s.regions d
  caches : ∀ j, j ≠ k → s'.caches j = s.caches j
  counts : ∀ d, d ∉ C → (s'.caches k d).count = (s.caches k d).count ∧
    (s'.caches k d).batch = (s.caches k d).batch
  maxCounts : ∀ d ∈ classes, (s.caches k d).maxCount ≠ 0 →
    (s'.caches k d).maxCount = (s.caches k d).maxCount
  carved : ∀ x ∈ carvedAll s.regions, x ∈ carvedAll s'.regions
  mem : ∀ a, (∀ x ∈ carvedAll s'.regions, Inside x a → x ∈ held) → s'.mem a = s.mem a

/-- The class whose chunks store the batches of a class that needs others for it. -/
def homes (c : ℕ) : Set ℕ := {d | requiresSeparateBatch c = true ∧ d = batchClass}

variable {K k c d : ℕ} {R R' C C' : Set ℕ} {held held' : Multiset Uptr} {s s' s'' : State}
  {B : Batches} {alloc : CacheM Uptr} {p b : Uptr} {n : ℕ}

theorem AllGrown.refl (s : State) : AllGrown s s := fun _ _ => Relation.ReflTransGen.refl

theorem AllGrown.trans (h : AllGrown s s') (h' : AllGrown s' s'') : AllGrown s s'' :=
  fun c hc => (h c hc).trans (h' c hc)

theorem AllGrown.of_regions (h : s'.regions = s.regions) : AllGrown s s' := by
  intro c _
  rw [h]
  exact Relation.ReflTransGen.refl

namespace Step

theorem refl (s : State) : Step k R C held s s where
  regions _ _ := rfl
  caches _ _ := rfl
  counts _ _ := ⟨rfl, rfl⟩
  maxCounts _ _ _ := rfl
  carved _ hx := hx
  mem _ _ := rfl

theorem trans (h : Step k R C held s s') (h' : Step k R C held s' s'') :
    Step k R C held s s'' where
  regions d hd := (h'.regions d hd).trans (h.regions d hd)
  caches j hj := (h'.caches j hj).trans (h.caches j hj)
  counts d hd := ⟨(h'.counts d hd).1.trans (h.counts d hd).1,
    (h'.counts d hd).2.trans (h.counts d hd).2⟩
  maxCounts d hd hne := by
    have hmax := h.maxCounts d hd hne
    exact (h'.maxCounts d hd (hmax ▸ hne)).trans hmax
  carved x hx := h'.carved x (h.carved x hx)
  mem a ha := (h'.mem a ha).trans (h.mem a fun x hx => ha x (h'.carved x hx))

theorem mono (h : Step k R C held s s') (hR : R ⊆ R') (hC : C ⊆ C')
    (hheld : ∀ x ∈ held', x ∈ held) : Step k R' C' held' s s' where
  regions d hd := h.regions d fun hmem => hd (hR hmem)
  caches := h.caches
  counts d hd := h.counts d fun hmem => hd (hC hmem)
  maxCounts := h.maxCounts
  carved := h.carved
  mem a ha := h.mem a fun x hx hin => hheld x (ha x hx hin)

/-- Memory changes in a free chunk. -/
theorem of_setMem {mem : Uptr → Uptr} {x : Uptr} (hx : x ∈ carvedAll s.regions)
    (hfree : x ∉ held) (hmem : ∀ a, mem a ≠ s.mem a → Inside x a) :
    Step k R C held s (s.setMem mem) where
  regions _ _ := rfl
  caches _ _ := rfl
  counts _ _ := ⟨rfl, rfl⟩
  maxCounts _ _ _ := rfl
  carved _ hx := hx
  mem a ha := by
    by_contra hne
    exact hfree (ha x hx (hmem a hne))

theorem of_setPerClass {pc : PerClass} (hc : c ∈ C)
    (hmax : pc.maxCount = (s.caches k c).maxCount) :
    Step k R C held s (s.setPerClass k c pc) where
  regions _ _ := rfl
  caches j hj := Function.update_of_ne hj _ _
  counts d hd := by
    have hne : d ≠ c := fun hdc => hd (hdc ▸ hc)
    simp only [State.setPerClass, Function.update_self, Function.update_of_ne hne]
    exact ⟨trivial, trivial⟩
  maxCounts d _ _ := by
    by_cases hdc : d = c
    · subst hdc
      simp only [State.setPerClass, Function.update_self]
      exact hmax
    · simp only [State.setPerClass, Function.update_self, Function.update_of_ne hdc]
  carved _ hx := hx
  mem _ _ := rfl

theorem of_setFreeList (head : UInt64) : Step k R C held s (s.setFreeList c head) where
  regions _ _ := rfl
  caches _ _ := rfl
  counts _ _ := ⟨rfl, rfl⟩
  maxCounts _ _ _ := rfl
  carved _ hx := hx
  mem _ _ := rfl

theorem of_setRegion {r : RegionInfo} (hc : c ∈ R)
    (hcarved : ∀ x ∈ carvedOf c (s.regions c), x ∈ carvedOf c r) :
    Step k R C held s (s.setRegion c r) where
  regions d hd := by
    have hne : d ≠ c := fun hdc => hd (hdc ▸ hc)
    exact Function.update_of_ne hne _ _
  caches _ _ := rfl
  counts _ _ := ⟨rfl, rfl⟩
  maxCounts _ _ _ := rfl
  carved x hx := by
    rcases mem_carvedAll.mp hx with ⟨d, hd, hmem⟩
    refine mem_carvedAll.mpr ⟨d, hd, ?_⟩
    by_cases hdc : d = c
    · subst hdc
      simp only [State.setRegion, Function.update_self]
      exact hcarved x hmem
    · simp only [State.setRegion, Function.update_of_ne hdc]
      exact hmem
  mem _ _ := rfl

end Step

/-! ## Initialization -/

@[simp] theorem initPerClass_count (c : ℕ) (pc : PerClass) :
    (initPerClass c pc).count = pc.count := by
  unfold initPerClass
  split <;> rfl

@[simp] theorem initPerClass_batch (c : ℕ) (pc : PerClass) :
    (initPerClass c pc).batch = pc.batch := by
  unfold initPerClass
  split <;> rfl

theorem initPerClass_maxCount (hc : c ∈ classes) (pc : PerClass) :
    (initPerClass c pc).maxCount = 2 * maxCached c := by
  unfold initPerClass
  rw [if_pos (mem_classes.mp hc).2]

@[simp] theorem initPerClass_chunks (c : ℕ) (pc : PerClass) :
    (initPerClass c pc).chunks = pc.chunks := by
  simp [PerClass.chunks]

theorem initCache_ends (h : Inv K s B held) (hk : k < K) :
    ends (initCache k) oom (fun _ s' => Inv K s' B held ∧ Step k R C held s s' ∧
      AllGrown s s' ∧ (∀ c ∈ classes, (s'.caches k c).maxCount = 2 * maxCached c) ∧
      ∀ c, (s'.caches k c).count = (s.caches k c).count ∧
        (s'.caches k c).batch = (s.caches k c).batch) s := by
  unfold initCache
  rw [ends_modify]
  by_cases hinit : (s.caches k 1).maxCount ≠ 0
  · rw [if_pos hinit]
    exact ⟨h, Step.refl s, AllGrown.refl s, h.inits k hk hinit, fun _ => ⟨rfl, rfl⟩⟩
  rw [if_neg hinit]
  -- only the limits change
  have hchunks : ∀ j d, ((Function.update s.caches k fun c =>
      initPerClass c (s.caches k c)) j d).chunks = (s.caches j d).chunks := by
    intro j d
    by_cases hj : j = k
    · rw [hj, Function.update_self, initPerClass_chunks]
    · rw [Function.update_of_ne hj]
  have hmax : ∀ d ∈ classes, ((Function.update s.caches k fun c =>
      initPerClass c (s.caches k c)) k d).maxCount = 2 * maxCached d := by
    intro d hd
    rw [Function.update_self, initPerClass_maxCount hd]
  have hbound : ∀ d ∈ classes, (s.caches k d).count ≤ 2 * maxCached d := by
    intro d hd
    rcases (h.perClass k hk d hd).bound with ⟨hm, hle⟩ | ⟨_, hz⟩ <;> omega
  refine ⟨⟨h.roomy, ?_, h.lists, h.batches, ?_, ?_⟩, ?_, AllGrown.of_regions rfl, hmax, ?_⟩
  · have hcached : cached K { s with
        caches := Function.update s.caches k (fun c => initPerClass c (s.caches k c)) } =
          cached K s := by
      unfold cached
      simp only [hchunks]
    rw [hcached]
    exact h.places
  · intro j hj d hd
    refine ⟨?_, by rw [hchunks]; exact (h.perClass j hj d hd).chunks_class⟩
    by_cases hjk : j = k
    · subst hjk
      refine Or.inl ⟨hmax d hd, ?_⟩
      rw [hmax d hd]
      simp only [Function.update_self, initPerClass_count]
      exact hbound d hd
    · simp only [Function.update_of_ne hjk]
      exact (h.perClass j hj d hd).bound
  · intro j hj hne d hd
    by_cases hjk : j = k
    · rw [hjk]
      exact hmax d hd
    · simp only [Function.update_of_ne hjk] at hne ⊢
      exact h.inits j hj hne d hd
  · refine ⟨fun _ _ => rfl, fun j hj => Function.update_of_ne hj _ _, fun d _ => ?_,
      fun d hd hne => ?_, fun _ hx => hx, fun _ _ => rfl⟩
    · simp only [Function.update_self, initPerClass_count, initPerClass_batch]
      exact ⟨trivial, trivial⟩
    · rw [hmax d hd]
      rcases (h.perClass k hk d hd).bound with ⟨hm, _⟩ | ⟨hz, _⟩
      · exact hm.symm
      · exact absurd hz hne
  · intro d
    simp only [Function.update_self, initPerClass_count, initPerClass_batch]
    exact ⟨trivial, trivial⟩

/-! ## Batches in memory -/

theorem storeItems_of_ne {f : ℕ → Uptr} {mem : Uptr → Uptr} {a : Uptr}
    (h : ∀ j < n, a ≠ itemAt b j) : storeItems b f n mem a = mem a := by
  induction n with
  | zero => rfl
  | succ n ih =>
    rw [storeItems, Function.update_of_ne (h n (Nat.lt_succ_self n))]
    exact ih fun j hj => h j (Nat.lt_succ_of_lt hj)

theorem storeItems_item {f : ℕ → Uptr} {mem : Uptr → Uptr} {i : ℕ} (hi : i < n)
    (hinj : ∀ j < n, ∀ l < n, itemAt b j = itemAt b l → j = l) :
    storeItems b f n mem (itemAt b i) = f i := by
  induction n with
  | zero => exact absurd hi (Nat.not_lt_zero i)
  | succ n ih =>
    rw [storeItems]
    rcases Nat.lt_succ_iff_lt_or_eq.mp hi with hlt | rfl
    · have hne : itemAt b i ≠ itemAt b n := by
        intro heq
        have hin := hinj i hi n (Nat.lt_succ_self n) heq
        omega
      rw [Function.update_of_ne hne]
      exact ih hlt fun j hj l hl =>
        hinj j (Nat.lt_succ_of_lt hj) l (Nat.lt_succ_of_lt hl)
    · exact Function.update_self _ _ _

theorem loadItems_eq (b : Uptr) (mem : Uptr → Uptr) (n : ℕ) (batch : ℕ → Uptr) (i : ℕ) :
    loadItems b mem n batch i = if i < n then mem (itemAt b i) else batch i := by
  induction n with
  | zero => rfl
  | succ n ih =>
    rw [loadItems]
    by_cases hin : i = n
    · rw [hin, Function.update_self, if_pos (Nat.lt_succ_self n)]
    · rw [Function.update_of_ne hin, ih]
      have hiff : i < n ↔ i < n + 1 := by omega
      simp only [hiff]

/-- Chunks that are read are not overwritten before. -/
theorem drainItems_eq {half : ℕ} (hle : n ≤ half) (mem : Uptr → Uptr) (batch : ℕ → Uptr) :
    (drainItems b half n (mem, batch)).1 = storeItems b batch n mem ∧
      ∀ i, (drainItems b half n (mem, batch)).2 i =
        if i < n then batch (i + half) else batch i := by
  induction n with
  | zero => exact ⟨rfl, fun _ => rfl⟩
  | succ n ih =>
    rcases ih (by omega) with ⟨hmem, hbatch⟩
    refine ⟨?_, fun i => ?_⟩
    · rw [drainItems, storeItems]
      dsimp only
      rw [hmem, hbatch, if_neg (Nat.lt_irrefl n)]
    · rw [drainItems]
      dsimp only
      by_cases hin : i = n
      · rw [hin, Function.update_self, if_pos (Nat.lt_succ_self n), hbatch,
          if_neg (by omega)]
      · rw [Function.update_of_ne hin, hbatch]
        have hiff : i < n ↔ i < n + 1 := by omega
        simp only [hiff]

/-- The count of a batch and its first `n` chunks. -/
def writeBatch (b : Uptr) (f : ℕ → Uptr) (n : ℕ) (mem : Uptr → Uptr) : Uptr → Uptr :=
  storeItems b f n (Function.update mem (countAt b) (UInt64.ofNat n))

/-- Writing the items after the count, or before it. -/
theorem storeItems_update {f : ℕ → Uptr} {mem : Uptr → Uptr} {v : Uptr}
    (hne : ∀ j < n, countAt b ≠ itemAt b j) :
    Function.update (storeItems b f n mem) (countAt b) v =
      storeItems b f n (Function.update mem (countAt b) v) := by
  induction n with
  | zero => rfl
  | succ n ih =>
    rw [storeItems, storeItems, ← ih fun j hj => hne j (Nat.lt_succ_of_lt hj),
      Function.update_comm (hne n (Nat.lt_succ_self n))]

/-- There is room for `n` chunks behind the header of a batch at `b`. -/
structure HasRoom (b : Uptr) (n : ℕ) : Prop where
  count : (countAt b).toNat = b.toNat + 8
  item : ∀ j < n, (itemAt b j).toNat = b.toNat + (16 + 8 * j)
  count_inside : Inside b (countAt b)
  item_inside : ∀ j < n, Inside b (itemAt b j)

theorem hasRoom (hc : c ∈ classes) {i : ℕ} (hf : Fits (homeClass c) i)
    (hb : b.toNat = chunkBeg (homeClass c) i) (hn : n ≤ maxCached c) : HasRoom b n := by
  have hroom := (class_facts hc).1
  refine ⟨?_, fun j hj => ?_, ?_, fun j hj => ?_⟩
  · exact (inside_offset hf hb (n := 8) (by omega)).2
  · exact (inside_offset hf hb (n := 16 + 8 * j) (by omega)).2
  · exact (inside_offset hf hb (n := 8) (by omega)).1
  · exact (inside_offset hf hb (n := 16 + 8 * j) (by omega)).1

theorem HasRoom.count_ne (h : HasRoom b n) : ∀ j < n, countAt b ≠ itemAt b j := by
  intro j hj heq
  have hc := h.count
  have hi := h.item j hj
  rw [heq] at hc
  omega

theorem HasRoom.item_inj (h : HasRoom b n) :
    ∀ j < n, ∀ l < n, itemAt b j = itemAt b l → j = l := by
  intro j hj l hl heq
  have hi := h.item j hj
  have hi' := h.item l hl
  rw [heq] at hi
  omega

theorem HasRoom.write_inside (h : HasRoom b n) {f : ℕ → Uptr} {mem : Uptr → Uptr} {a : Uptr}
    (ha : writeBatch b f n mem a ≠ mem a) : Inside b a := by
  by_contra hout
  refine ha ?_
  have hne : ∀ j < n, a ≠ itemAt b j := fun j hj heq => hout (heq ▸ h.item_inside j hj)
  have hcount : a ≠ countAt b := fun heq => hout (heq ▸ h.count_inside)
  rw [writeBatch, storeItems_of_ne hne, Function.update_of_ne hcount]

/-- A batch that has just been written. -/
theorem HasRoom.batchOk (fb : FreeBatch) {f : ℕ → Uptr} (mem : Uptr → Uptr)
    (h : HasRoom fb.addr fb.chunks.length) (hf : ∀ i (hi : i < fb.chunks.length),
      f i = fb.chunks.get ⟨i, hi⟩) (hpos : 0 < fb.chunks.length)
    (hle : fb.chunks.length ≤ maxCached c) (hclass : ∀ p ∈ fb.chunks, classOf p = c)
    (haddr : classOf fb.addr = homeClass c)
    (hfirst : requiresSeparateBatch c = false → fb.addr ∈ fb.chunks) :
    BatchOk (writeBatch fb.addr f fb.chunks.length mem) c fb where
  nonempty := hpos
  length_le := hle
  chunks_class := hclass
  addr_class := haddr
  addr_first := hfirst
  count := by
    rw [writeBatch, storeItems_of_ne h.count_ne, Function.update_self]
  items i hi := by
    rw [writeBatch, storeItems_item hi h.item_inj, hf i hi]

/-- The count that is read from a batch. -/
theorem BatchOk.count_toNat {mem : Uptr → Uptr} {fb : FreeBatch} (hc : c ∈ classes)
    (h : BatchOk mem c fb) : (mem (countAt fb.addr)).toNat = fb.chunks.length := by
  have hle := h.length_le
  have hmax := (class_facts hc).2.2.1
  rw [h.count, UInt64.toNat_ofNat', Nat.mod_eq_of_lt (by omega)]

theorem BatchOk.count_pos {mem : Uptr → Uptr} {fb : FreeBatch} (hc : c ∈ classes)
    (h : BatchOk mem c fb) : mem (countAt fb.addr) > 0 := by
  rw [gt_iff_lt, UInt64.lt_iff_toNat_lt, h.count_toNat hc]
  exact h.nonempty

/-! ## Free lists -/

theorem pop_ends (h : Inv K s B held) (hc : c ∈ classes) :
    ends (pop c) oom (fun b s' =>
      (b = 0 ∧ s' = s) ∨
      ∃ fb rest, fb.addr = b ∧ b ≠ 0 ∧ BatchOk s'.mem c fb ∧
        Inv K s' (Function.update B c rest) (fb.content c + held) ∧
        s' = s.setFreeList c (LFStack.Pop (s.freeList c) s.mem).2) s := by
  unfold pop
  simp only [ends_bind, ends_get, ends_modify, ends_pure]
  by_cases hz : LFStack.pointer (s.freeList c) = 0
  · refine Or.inl ⟨?_, pop_empty hz⟩
    rw [LFStack.Pop, if_pos hz]
  · rcases h.pop hc hz with ⟨fb, rest, _, haddr, hok, hinv⟩
    have hfst : (LFStack.Pop (s.freeList c) s.mem).1 = fb.addr := by
      rw [LFStack.Pop, if_neg hz, haddr]
    refine Or.inr ⟨fb, rest, hfst.symm, ?_, hok, hinv, trivial⟩
    rw [hfst, ← haddr]
    exact hz

theorem push_ends {fb : FreeBatch} (h : Inv K s B (fb.content c + held)) (hc : c ∈ classes)
    (hb : BatchOk s.mem c fb) :
    ends (push c fb.addr) oom (fun _ s' =>
      Inv K s' (Function.update B c (fb :: B c)) held ∧ Step k R C held s s' ∧
        s'.regions = s.regions ∧ s'.caches = s.caches) s := by
  unfold push
  rw [ends_modify]
  refine ⟨h.push hc hb, ?_, rfl, rfl⟩
  have hheld : fb.addr ∈ fb.content c + held := Multiset.mem_add.mpr (Or.inl hb.addr_mem)
  have hcarved : fb.addr ∈ carvedAll s.regions := by
    rw [← h.places]
    exact Multiset.mem_add.mpr (Or.inr hheld)
  have hfree : fb.addr ∉ held := by
    have hnodup := (Multiset.nodup_add.mp h.nodup).2.1
    exact Multiset.disjoint_left.mp (Multiset.nodup_add.mp hnodup).2.2 hb.addr_mem
  refine (Step.of_setMem hcarved hfree ?_).trans (Step.of_setFreeList _)
  intro a ha
  by_cases hab : a = fb.addr
  · rcases carved_start h.roomy hcarved with ⟨i, hf, hx, _⟩
    rw [hab]
    exact ⟨_, i, hf, hx, hf.start hx⟩
  · exact absurd (Function.update_of_ne hab _ _) ha

end Caver.Sanitizer.LocalCache
