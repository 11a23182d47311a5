import Caver.Sanitizer.LocalCache
import Mathlib.Algebra.BigOperators.Group.Finset.Basic
import Mathlib.Algebra.Order.BigOperators.Group.Finset
import Mathlib.Data.Multiset.Bind
import Mathlib.Order.Interval.Finset.Nat
import Mathlib.Tactic.Abel

/-!
# Caver.Sanitizer.FreeChunks — where the chunks are

Every carved chunk is in a cache, or in a free batch, or stores a free batch, or is
held by a caller. As multisets, these together are the carved chunks.

* `Inventory`: the free batches of a class, which are linked through the chunks that
  store them.
* `Inv`: the free lists and the batches in memory are those of the inventory, and the
  equation holds.
* `Inv.setMem`, `Inv.setPerClass`, `Inv.setRegion`, `Inv.push`, `Inv.pop`: what each
  kind of update does to the inventory.
-/

namespace Caver.Sanitizer.LocalCache

open Caver.Core

/-! ## Chunks as places in memory -/

/-- The classes in use. -/
def classes : Finset ℕ := Finset.Ico 1 53

theorem mem_classes {c : ℕ} : c ∈ classes ↔ 0 < c ∧ c < 53 := by
  unfold classes
  rw [Finset.mem_Ico]
  omega

/-- The start of a chunk. -/
def chunk (c i : ℕ) : Uptr := UInt64.ofNat (chunkBeg c i)

/-- The address is in the chunk that starts at `x`. -/
def Inside (x a : Uptr) : Prop := ∃ c i, Fits c i ∧ x.toNat = chunkBeg c i ∧ InChunk c i a

variable {c d i : ℕ} {x y a p : Uptr}

theorem chunk_toNat (hf : Fits c i) : (chunk c i).toNat = chunkBeg c i := hf.chunkBeg_toNat

/-- An address is in one chunk. -/
theorem Inside.unique (hx : Inside x a) (hy : Inside y a) : x = y := by
  rcases hx with ⟨c, i, hf, hxs, hxa⟩
  rcases hy with ⟨d, j, hg, hys, hya⟩
  rcases hxa.locate hf with ⟨_, hc, hi⟩
  rcases hya.locate hg with ⟨_, hd, hj⟩
  refine UInt64.toNat_inj.mp ?_
  rw [hxs, hys, ← hc, ← hi, hd, hj]

theorem inside_offset (hf : Fits c i) (hx : x.toNat = chunkBeg c i) {n : ℕ}
    (hn : n < chunkSize c) : Inside x (x + UInt64.ofNat n) ∧
      (x + UInt64.ofNat n).toNat = x.toNat + n := by
  have hfit := hf.2.2
  have hc := hf.2.1
  rw [Nat.succ_mul] at hfit
  have hlt : chunkBeg c i + n < 2 ^ 64 := by
    unfold chunkBeg
    omega
  have hnat : (UInt64.ofNat n).toNat = n := by
    rw [UInt64.toNat_ofNat', Nat.mod_eq_of_lt (by omega)]
  have hsum : (x + UInt64.ofNat n).toNat = x.toNat + n := by
    rw [toNat_add_of_lt (by omega), hnat]
  refine ⟨⟨c, i, hf, hx, ?_⟩, hsum⟩
  unfold InChunk
  omega

/-- A chunk is user memory. -/
theorem chunk_user (hf : Fits c i) (hx : x.toNat = chunkBeg c i) :
    x ≠ 0 ∧ x.toNat < 2 ^ 47 ∧ classOf x = c := by
  have hfit := hf.2.2
  have hc := hf.2.1
  have hpos := chunkSize_pos hf.1 hf.2.1
  rw [Nat.succ_mul] at hfit
  have hbeg : chunkBeg c i = 0x600000000000 + c * 2 ^ 37 + i * chunkSize c := rfl
  refine ⟨?_, by omega, ((hf.start hx).locate hf).2.1⟩
  intro hz
  rw [hz, UInt64.toNat_zero] at hx
  omega

/-- The chunks that a region has been carved into. -/
def carvedOf (c : ℕ) (r : RegionInfo) : Multiset Uptr :=
  (Multiset.range (r.allocatedUser / chunkSize c)).map (chunk c)

/-- All carved chunks. -/
def carvedAll (regions : Regions) : Multiset Uptr := ∑ c ∈ classes, carvedOf c (regions c)

/-- What holds of a region also while it is being carved. -/
structure RegionInfo.Room (c : ℕ) (r : RegionInfo) : Prop where
  whole : chunkSize c ∣ r.allocatedUser
  user_mapped : r.allocatedUser ≤ r.mappedUser
  apart : r.mappedUser + r.mappedMeta ≤ 2 ^ 37

theorem RegionInfo.Room.fits {r : RegionInfo} (h : RegionInfo.Room c r) (hc : c ∈ classes)
    (hi : i < r.allocatedUser / chunkSize c) : Fits c i := by
  rcases mem_classes.mp hc with ⟨h0, h53⟩
  have hle : (i + 1) * chunkSize c ≤ r.allocatedUser :=
    (Nat.mul_le_mul_right _ hi).trans (Nat.div_mul_le_self _ _)
  have huser := h.user_mapped
  have hap := h.apart
  exact ⟨h0, h53, by omega⟩

theorem mem_carvedOf {r : RegionInfo} :
    x ∈ carvedOf c r ↔ ∃ i, i < r.allocatedUser / chunkSize c ∧ chunk c i = x := by
  simp [carvedOf]

theorem mem_carvedAll {regions : Regions} :
    x ∈ carvedAll regions ↔ ∃ c ∈ classes, x ∈ carvedOf c (regions c) := by
  simp [carvedAll, Multiset.mem_sum]

/-- All regions have room. -/
def Roomy (regions : Regions) : Prop := ∀ c ∈ classes, RegionInfo.Room c (regions c)

variable {regions : Regions}

theorem carved_start (h : Roomy regions) (hx : x ∈ carvedAll regions) :
    ∃ i, Fits (classOf x) i ∧ x.toNat = chunkBeg (classOf x) i ∧
      i < (regions (classOf x)).allocatedUser / chunkSize (classOf x) := by
  rcases mem_carvedAll.mp hx with ⟨c, hc, hmem⟩
  rcases mem_carvedOf.mp hmem with ⟨i, hi, rfl⟩
  have hf := (h c hc).fits hc hi
  have hstart := chunk_toNat hf
  rw [(chunk_user hf hstart).2.2]
  exact ⟨i, hf, hstart, hi⟩

theorem carved_class (h : Roomy regions) (hx : x ∈ carvedAll regions) : classOf x ∈ classes := by
  rcases carved_start h hx with ⟨i, hf, _⟩
  exact mem_classes.mpr ⟨hf.1, hf.2.1⟩

theorem carvedOf_nodup {r : RegionInfo} (hc : c ∈ classes) (h : RegionInfo.Room c r) :
    (carvedOf c r).Nodup := by
  refine Multiset.Nodup.map_on ?_ (Multiset.nodup_range _)
  intro i hi j hj hij
  have hfi := h.fits hc (Multiset.mem_range.mp hi)
  have hfj := h.fits hc (Multiset.mem_range.mp hj)
  refine (chunkBeg_inj hfi hfj ?_).2
  rw [← chunk_toNat hfi, ← chunk_toNat hfj, hij]

theorem carvedAll_nodup (h : Roomy regions) : (carvedAll regions).Nodup := by
  refine Multiset.nodup_bind.mpr ⟨fun c hc => carvedOf_nodup hc (h c hc), ?_⟩
  have hdisj : ∀ c ∈ classes, ∀ d ∈ classes, c ≠ d →
      Disjoint (carvedOf c (regions c)) (carvedOf d (regions d)) := by
    intro c hc d hd hne
    rw [Multiset.disjoint_left]
    intro x hx hx'
    rcases mem_carvedOf.mp hx with ⟨i, hi, rfl⟩
    rcases mem_carvedOf.mp hx' with ⟨j, hj, hij⟩
    have hfi := (h c hc).fits hc hi
    have hfj := (h d hd).fits hd hj
    refine hne (chunkBeg_inj hfi hfj ?_).1
    rw [← chunk_toNat hfi, ← chunk_toNat hfj, hij]
  exact Multiset.Nodup.pairwise hdisj classes.nodup

/-! ## The inventory -/

/-- A free batch: where it is stored, and its chunks. -/
structure FreeBatch where
  addr : Uptr
  chunks : List Uptr

/-- The free batches of each class. -/
abbrev Batches := ℕ → List FreeBatch

/-- The class of the chunk that stores a batch. -/
def homeClass (c : ℕ) : ℕ := if requiresSeparateBatch c then batchClass else c

/-- The chunks that a batch of class `c` takes. -/
def FreeBatch.content (c : ℕ) (b : FreeBatch) : Multiset Uptr :=
  ↑b.chunks + if requiresSeparateBatch c then {b.addr} else 0

/-- The chunks of the free lists. -/
def stored (B : Batches) : Multiset Uptr := ∑ c ∈ classes, ((B c).map (FreeBatch.content c)).sum

/-- The chunks at hand in a cache. -/
def PerClass.chunks (pc : PerClass) : List Uptr := (List.range pc.count).map pc.batch

/-- The chunks of the first `K` caches. -/
def cached (K : ℕ) (s : State) : Multiset Uptr :=
  ∑ k ∈ Finset.range K, ∑ c ∈ classes, ((s.caches k c).chunks : Multiset Uptr)

/-- The batch is in memory, and well formed. -/
structure BatchOk (mem : Uptr → Uptr) (c : ℕ) (b : FreeBatch) : Prop where
  nonempty : 0 < b.chunks.length
  length_le : b.chunks.length ≤ maxCached c
  chunks_class : ∀ p ∈ b.chunks, classOf p = c
  addr_class : classOf b.addr = homeClass c
  addr_first : requiresSeparateBatch c = false → b.addr ∈ b.chunks
  count : mem (countAt b.addr) = UInt64.ofNat b.chunks.length
  items : ∀ i (h : i < b.chunks.length), mem (itemAt b.addr i) = b.chunks.get ⟨i, h⟩

/-- A class of a cache: not initialized yet, or with room for two batches. -/
structure PerClassOk (c : ℕ) (pc : PerClass) : Prop where
  bound : pc.maxCount = 2 * maxCached c ∧ pc.count ≤ pc.maxCount ∨
    pc.maxCount = 0 ∧ pc.count = 0
  chunks_class : ∀ p ∈ pc.chunks, classOf p = c

/-- The state has the free batches `B`, and the callers hold `held`. -/
structure Inv (K : ℕ) (s : State) (B : Batches) (held : Multiset Uptr) : Prop where
  roomy : Roomy s.regions
  places : cached K s + stored B + held = carvedAll s.regions
  lists : ∀ c ∈ classes, Linked s.mem 0 (LFStack.pointer (s.freeList c))
    ((B c).map FreeBatch.addr)
  batches : ∀ c ∈ classes, ∀ b ∈ B c, BatchOk s.mem c b
  perClass : ∀ k < K, ∀ c ∈ classes, PerClassOk c (s.caches k c)
  -- `InitCache` looks at one class to see whether all have been initialized
  inits : ∀ k < K, (s.caches k 1).maxCount ≠ 0 → ∀ c ∈ classes,
    (s.caches k c).maxCount = 2 * maxCached c

variable {K k : ℕ} {s : State} {B : Batches} {held : Multiset Uptr} {b : FreeBatch}

/-! ### Classes -/

theorem batchClass_eq : batchClass = 25 := by decide

theorem batchClass_mem : batchClass ∈ classes := by
  rw [batchClass_eq, mem_classes]
  omega

theorem batchClass_not_separate : requiresSeparateBatch batchClass = false := by decide

/-- What a class needs for its batches. -/
theorem class_facts (hc : c ∈ classes) :
    16 + 8 * maxCached c ≤ chunkSize (homeClass c) ∧ 0 < maxCached c ∧ maxCached c ≤ 128 ∧
      batchCount c ≤ maxCached c ∧ (requiresSeparateBatch c = true → c < batchClass) := by
  have hall : ∀ c : Fin 53, 0 < c.val →
      16 + 8 * maxCached c ≤ chunkSize (homeClass c) ∧ 0 < maxCached c ∧ maxCached c ≤ 128 ∧
        batchCount c ≤ maxCached c ∧ (requiresSeparateBatch c.val = true → c.val < batchClass) := by
    decide
  rcases mem_classes.mp hc with ⟨h0, h53⟩
  exact hall ⟨c, h53⟩ h0

/-! ### Sums with one summand changed -/

theorem sum_change {ι : Type} [DecidableEq ι] {S : Finset ι} {f g : ι → Multiset Uptr} {j : ι}
    (hj : j ∈ S) (hother : ∀ i ∈ S, i ≠ j → f i = g i) {u v : Multiset Uptr}
    (hself : f j + u = g j + v) : ∑ i ∈ S, f i + u = ∑ i ∈ S, g i + v := by
  rw [← Finset.sum_erase_add S f hj, ← Finset.sum_erase_add S g hj, add_assoc, hself,
    ← add_assoc]
  congr 2
  exact Finset.sum_congr rfl fun i hi =>
    hother i (Finset.mem_of_mem_erase hi) (Finset.ne_of_mem_erase hi)

/-- Another list of batches for one class. -/
theorem stored_update (hc : c ∈ classes) {bs : List FreeBatch} {u v : Multiset Uptr}
    (h : (bs.map (FreeBatch.content c)).sum + u = ((B c).map (FreeBatch.content c)).sum + v) :
    stored (Function.update B c bs) + u = stored B + v := by
  refine sum_change hc (fun d _ hd => ?_) ?_
  · rw [Function.update_of_ne hd]
  · rw [Function.update_self]
    exact h

/-- Another content for one class of a cache. -/
theorem cached_setPerClass (hk : k < K) (hc : c ∈ classes) {pc : PerClass} {u v : Multiset Uptr}
    (h : (pc.chunks : Multiset Uptr) + u = ((s.caches k c).chunks : Multiset Uptr) + v) :
    cached K (s.setPerClass k c pc) + u = cached K s + v := by
  refine sum_change (Finset.mem_range.mpr hk) (fun j _ hj => ?_) ?_
  · simp only [State.setPerClass, Function.update_of_ne hj]
  · simp only [State.setPerClass, Function.update_self]
    refine sum_change hc (fun d _ hd => ?_) ?_
    · rw [Function.update_of_ne hd]
    · rw [Function.update_self]
      exact h

/-! ### Where free batches are -/

theorem mem_stored {x : Uptr} : x ∈ stored B ↔ ∃ c ∈ classes, ∃ b ∈ B c, x ∈ b.content c := by
  simp only [stored, Multiset.mem_sum]
  constructor
  · rintro ⟨c, hc, hx⟩
    refine ⟨c, hc, ?_⟩
    generalize B c = bs at hx ⊢
    induction bs with
    | nil => simp at hx
    | cons b bs ih =>
      rw [List.map_cons, List.sum_cons, Multiset.mem_add] at hx
      rcases hx with hx | hx
      · exact ⟨b, List.mem_cons_self, hx⟩
      · rcases ih hx with ⟨b', hb', hx'⟩
        exact ⟨b', List.mem_cons_of_mem b hb', hx'⟩
  · rintro ⟨c, hc, b, hb, hx⟩
    refine ⟨c, hc, ?_⟩
    have hle : b.content c ≤ ((B c).map (FreeBatch.content c)).sum :=
      List.single_le_sum (fun _ _ => Multiset.zero_le _) _ (List.mem_map_of_mem hb)
    exact Multiset.mem_of_le hle hx

theorem BatchOk.addr_mem {mem : Uptr → Uptr} (h : BatchOk mem c b) : b.addr ∈ b.content c := by
  unfold FreeBatch.content
  cases hsep : requiresSeparateBatch c with
  | true => simp
  | false => simpa using h.addr_first hsep

/-- The words of a batch are in its chunk. -/
theorem BatchOk.inside {mem : Uptr → Uptr} (h : BatchOk mem c b) (hc : c ∈ classes)
    (hf : Fits (homeClass c) i) (hx : b.addr.toNat = chunkBeg (homeClass c) i) :
    Inside b.addr b.addr ∧ Inside b.addr (countAt b.addr) ∧
      ∀ j, j < b.chunks.length → Inside b.addr (itemAt b.addr j) := by
  have hroom := (class_facts hc).1
  have hlen := h.length_le
  refine ⟨⟨_, i, hf, hx, hf.start hx⟩, ?_, fun j hj => ?_⟩
  · exact (inside_offset hf hx (n := 8) (by omega)).1
  · exact (inside_offset hf hx (n := 16 + 8 * j) (by omega)).1

theorem Inv.nodup (h : Inv K s B held) : (cached K s + stored B + held).Nodup := by
  rw [h.places]
  exact carvedAll_nodup h.roomy

/-- A free batch is in a carved chunk that nobody holds. -/
theorem Inv.batch_place (h : Inv K s B held) (hc : c ∈ classes) (hb : b ∈ B c) :
    b.addr ∈ carvedAll s.regions ∧ b.addr ∉ held := by
  have hmem : b.addr ∈ stored B := mem_stored.mpr ⟨c, hc, b, hb, (h.batches c hc b hb).addr_mem⟩
  have hdisj := (Multiset.nodup_add.mp h.nodup).2.2
  refine ⟨?_, Multiset.disjoint_left.mp hdisj (Multiset.mem_add.mpr (Or.inr hmem))⟩
  rw [← h.places]
  exact Multiset.mem_add.mpr (Or.inl (Multiset.mem_add.mpr (Or.inr hmem)))

theorem Inv.batch_user (h : Inv K s B held) (hc : c ∈ classes) (hb : b ∈ B c) :
    b.addr ≠ 0 ∧ b.addr.toNat < 2 ^ 47 := by
  rcases carved_start h.roomy (h.batch_place hc hb).1 with ⟨i, hf, hx, _⟩
  exact ⟨(chunk_user hf hx).1, (chunk_user hf hx).2.1⟩

/-- All words of a free batch are in its chunk. -/
theorem Inv.batch_inside (h : Inv K s B held) (hc : c ∈ classes) (hb : b ∈ B c) :
    Inside b.addr b.addr ∧ Inside b.addr (countAt b.addr) ∧
      ∀ j, j < b.chunks.length → Inside b.addr (itemAt b.addr j) := by
  have hok := h.batches c hc b hb
  rcases carved_start h.roomy (h.batch_place hc hb).1 with ⟨i, hf, hx, _⟩
  rw [hok.addr_class] at hf hx
  exact hok.inside hc hf hx

theorem BatchOk.congr {mem mem' : Uptr → Uptr} (h : BatchOk mem c b)
    (hcount : mem' (countAt b.addr) = mem (countAt b.addr))
    (hitems : ∀ j, j < b.chunks.length → mem' (itemAt b.addr j) = mem (itemAt b.addr j)) :
    BatchOk mem' c b :=
  { h with
    count := hcount.trans h.count
    items := fun i hi => (hitems i hi).trans (h.items i hi) }

/-! ## Updates -/

/-- Memory changes where no free batch is. -/
theorem Inv.setMem (h : Inv K s B held) {mem : Uptr → Uptr}
    (hmem : ∀ c ∈ classes, ∀ b ∈ B c, ∀ a, Inside b.addr a → mem a = s.mem a) :
    Inv K (s.setMem mem) B held where
  roomy := h.roomy
  places := h.places
  lists c hc := by
    refine (h.lists c hc).congr ?_
    intro x hx
    rcases List.mem_map.mp hx with ⟨b, hb, rfl⟩
    exact hmem c hc b hb _ (h.batch_inside hc hb).1
  batches c hc b hb := by
    rcases h.batch_inside hc hb with ⟨_, hcount, hitems⟩
    exact (h.batches c hc b hb).congr (hmem c hc b hb _ hcount)
      fun j hj => hmem c hc b hb _ (hitems j hj)
  perClass := h.perClass
  inits := h.inits

/-- A chunk that somebody holds is not one that stores a free batch. -/
theorem Inv.apart (h : Inv K s B held) (hx : x ∈ held) (ha : Inside x a) (hc : c ∈ classes)
    (hb : b ∈ B c) : ¬ Inside b.addr a := by
  intro hin
  have hne : b.addr ∉ held := (h.batch_place hc hb).2
  rw [hin.unique ha] at hne
  exact hne hx

/-- A write to a chunk that somebody holds. -/
theorem Inv.write (h : Inv K s B held) (hx : x ∈ held) {mem : Uptr → Uptr}
    (hmem : ∀ a, mem a ≠ s.mem a → Inside x a) : Inv K (s.setMem mem) B held := by
  refine h.setMem ?_
  intro c hc b hb a hin
  by_contra hne
  exact h.apart hx (hmem a hne) hc hb hin

/-- Chunks move between a cache and the callers. -/
theorem Inv.setPerClass (h : Inv K s B held) (hk : k < K) (hc : c ∈ classes) {pc : PerClass}
    {held' : Multiset Uptr} (hmax : pc.maxCount = (s.caches k c).maxCount)
    (hbound : pc.count ≤ pc.maxCount) (hclass : ∀ p ∈ pc.chunks, classOf p = c)
    (hmoved : (pc.chunks : Multiset Uptr) + held' =
      ((s.caches k c).chunks : Multiset Uptr) + held) :
    Inv K (s.setPerClass k c pc) B held' where
  roomy := h.roomy
  places := by
    have hsum := cached_setPerClass hk hc hmoved
    rw [add_right_comm, hsum, add_right_comm]
    exact h.places
  lists := h.lists
  batches := h.batches
  perClass j hj d hd := by
    -- only the one class of the one cache has changed
    by_cases hkj : j = k
    · subst hkj
      by_cases hcd : d = c
      · subst hcd
        simp only [State.setPerClass, Function.update_self]
        refine ⟨?_, hclass⟩
        rcases (h.perClass j hj d hd).bound with ⟨hm, _⟩ | ⟨hm, _⟩
        · exact Or.inl ⟨hmax.trans hm, hbound⟩
        · exact Or.inr ⟨hmax.trans hm, by omega⟩
      · simp only [State.setPerClass, Function.update_self, Function.update_of_ne hcd]
        exact h.perClass j hj d hd
    · simp only [State.setPerClass, Function.update_of_ne hkj]
      exact h.perClass j hj d hd
  inits j hj := by
    have hkeep : ∀ d, ((s.setPerClass k c pc).caches j d).maxCount =
        (s.caches j d).maxCount := by
      intro d
      by_cases hkj : j = k
      · subst hkj
        by_cases hcd : d = c
        · subst hcd
          simp only [State.setPerClass, Function.update_self]
          exact hmax
        · simp only [State.setPerClass, Function.update_self, Function.update_of_ne hcd]
      · simp only [State.setPerClass, Function.update_of_ne hkj]
    simp only [hkeep]
    exact h.inits j hj

/-- New chunks are carved. -/
theorem Inv.setRegion (h : Inv K s B held) (hc : c ∈ classes) {r : RegionInfo}
    {new : Multiset Uptr} (hroom : RegionInfo.Room c r)
    (hnew : carvedOf c r = new + carvedOf c (s.regions c)) :
    Inv K (s.setRegion c r) B (new + held) where
  roomy d hd := by
    by_cases hcd : d = c
    · subst hcd
      simp only [State.setRegion, Function.update_self]
      exact hroom
    · simp only [State.setRegion, Function.update_of_ne hcd]
      exact h.roomy d hd
  places := by
    have hsum : carvedAll (s.setRegion c r).regions + 0 = carvedAll s.regions + new := by
      refine sum_change hc (fun d _ hd => ?_) ?_
      · simp only [State.setRegion, Function.update_of_ne hd]
      · simp only [State.setRegion, Function.update_self]
        rw [hnew, add_zero, add_comm]
    rw [add_zero] at hsum
    rw [hsum, ← h.places]
    show cached K s + stored B + (new + held) = cached K s + stored B + held + new
    abel
  lists := h.lists
  batches := h.batches
  perClass := h.perClass
  inits := h.inits

/-- A batch that its holder has written is pushed to the free list. -/
theorem Inv.push (h : Inv K s B (b.content c + held)) (hc : c ∈ classes)
    (hb : BatchOk s.mem c b) :
    Inv K ((s.setMem (LFStack.Push b.addr (s.freeList c) s.mem).2).setFreeList c
        (LFStack.Push b.addr (s.freeList c) s.mem).1) (Function.update B c (b :: B c)) held := by
  have hheld : b.addr ∈ b.content c + held := Multiset.mem_add.mpr (Or.inl hb.addr_mem)
  have hcarved : b.addr ∈ carvedAll s.regions := by
    rw [← h.places]
    exact Multiset.mem_add.mpr (Or.inr hheld)
  rcases carved_start h.roomy hcarved with ⟨i, hf, hx, _⟩
  rcases chunk_user hf hx with ⟨hne, hlt, _⟩
  have hin : Inside b.addr b.addr := ⟨_, i, hf, hx, hf.start hx⟩
  rw [hb.addr_class] at hf hx
  have hapart : ∀ d ∈ classes, b.addr ∉ (B d).map FreeBatch.addr := by
    intro d hd hmem
    rcases List.mem_map.mp hmem with ⟨b', hb', heq⟩
    exact (h.batch_place hd hb').2 (heq ▸ hheld)
  have hmem : ∀ a, (LFStack.Push b.addr (s.freeList c) s.mem).2 a ≠ s.mem a →
      Inside b.addr a := by
    intro a ha
    by_cases hab : a = b.addr
    · exact hab ▸ hin
    · exact absurd (Function.update_of_ne hab _ _) ha
  have hw := h.write hheld hmem
  constructor
  · exact hw.roomy
  · have hsum : stored (Function.update B c (b :: B c)) + 0 = stored B + b.content c := by
      refine stored_update hc ?_
      rw [List.map_cons, List.sum_cons, add_zero, add_comm]
    rw [add_zero] at hsum
    rw [hsum]
    have hplaces := h.places
    show cached K s + (stored B + b.content c) + held = carvedAll s.regions
    rw [← hplaces]
    abel
  · intro d hd
    by_cases hcd : d = c
    · subst hcd
      simp only [State.setFreeList, State.setMem, Function.update_self, LFStack.Push, List.map_cons]
      rw [LFStack.pushWord_pointer hlt]
      refine ⟨rfl, hne, ?_⟩
      rw [Function.update_self]
      exact (h.lists d hd).update (hapart d hd)
    · simp only [State.setFreeList, Function.update_of_ne hcd]
      exact hw.lists d hd
  · intro d hd b' hb'
    by_cases hcd : d = c
    · subst hcd
      rw [Function.update_self] at hb'
      rcases List.mem_cons.mp hb' with rfl | hb'
      · -- the link is not one of the other words of the batch
        have hlen := hb.length_le
        have hroom := (class_facts hc).1
        refine hb.congr (Function.update_of_ne ?_ _ _) fun j hj => Function.update_of_ne ?_ _ _
        · intro heq
          have hoff := (inside_offset hf hx (n := 8) (by omega)).2
          rw [show b'.addr + UInt64.ofNat 8 = countAt b'.addr from rfl, heq] at hoff
          omega
        · intro heq
          have hoff := (inside_offset hf hx (n := 16 + 8 * j) (by omega)).2
          rw [show b'.addr + UInt64.ofNat (16 + 8 * j) = itemAt b'.addr j from rfl, heq] at hoff
          omega
      · exact hw.batches d hd b' hb'
    · rw [Function.update_of_ne hcd] at hb'
      exact hw.batches d hd b' hb'
  · exact hw.perClass
  · exact hw.inits

/-- The first batch of a free list that is not empty is popped. -/
theorem Inv.pop (h : Inv K s B held) (hc : c ∈ classes)
    (hne : LFStack.pointer (s.freeList c) ≠ 0) :
    ∃ b rest, B c = b :: rest ∧ LFStack.pointer (s.freeList c) = b.addr ∧
      BatchOk s.mem c b ∧
      Inv K (s.setFreeList c (LFStack.Pop (s.freeList c) s.mem).2) (Function.update B c rest)
        (b.content c + held) := by
  have hlist := h.lists c hc
  cases hB : B c with
  | nil =>
    rw [hB] at hlist
    exact absurd hlist hne
  | cons b rest =>
    rw [hB] at hlist
    have hok := h.batches c hc b (hB ▸ List.mem_cons_self)
    refine ⟨b, rest, rfl, hlist.1, hok, ?_⟩
    have hrest : ∀ d ∈ classes, ∀ b' ∈ Function.update B c rest d, b' ∈ B d := by
      intro d _ b' hb'
      by_cases hcd : d = c
      · subst hcd
        rw [Function.update_self] at hb'
        exact hB ▸ List.mem_cons_of_mem b hb'
      · rwa [Function.update_of_ne hcd] at hb'
    constructor
    · exact h.roomy
    · have hsum : stored (Function.update B c rest) + b.content c = stored B + 0 := by
        refine stored_update hc ?_
        rw [hB, List.map_cons, List.sum_cons, add_zero, add_comm]
      rw [add_zero] at hsum
      have hplaces := h.places
      rw [← hsum] at hplaces
      show cached K s + stored (Function.update B c rest) + (b.content c + held) =
        carvedAll s.regions
      rw [← hplaces]
      abel
    · intro d hd
      by_cases hcd : d = c
      · subst hcd
        simp only [State.setFreeList, Function.update_self, LFStack.Pop, if_neg hne]
        -- the second node is a chunk, too, or there is none
        have hnxt : (s.mem (LFStack.pointer (s.freeList d))).toNat < 2 ^ 47 := by
          rw [hlist.1]
          have htail := hlist.2.2
          by_cases hz : s.mem b.addr = 0
          · rw [hz]
            decide
          · rcases htail.eq_cons hz with ⟨ys, hys, _⟩
            have hmem : s.mem b.addr ∈ rest.map FreeBatch.addr := hys ▸ List.mem_cons_self
            rcases List.mem_map.mp hmem with ⟨b', hb', heq⟩
            have hold : b' ∈ B d := by
              rw [hB]
              exact List.mem_cons_of_mem b hb'
            rw [← heq]
            exact (h.batch_user hd hold).2
        rw [LFStack.popWord_pointer hnxt, hlist.1]
        exact hlist.2.2
      · simp only [State.setFreeList, Function.update_of_ne hcd]
        exact h.lists d hd
    · exact fun d hd b' hb' => h.batches d hd b' (hrest d hd b' hb')
    · exact h.perClass
    · exact h.inits

/-- There is nothing to pop. -/
theorem pop_empty (hz : LFStack.pointer (s.freeList c) = 0) :
    s.setFreeList c (LFStack.Pop (s.freeList c) s.mem).2 = s := by
  simp [State.setFreeList, LFStack.Pop, hz]

end Caver.Sanitizer.LocalCache
