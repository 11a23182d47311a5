import Caver.Sanitizer.Primary
import Mathlib.Tactic.Linarith

/-!
# Caver.Sanitizer.Region — how regions grow, and what their growth keeps

`PopulateFreeList` maps memory for chunks at the start of a region and memory
for their records at its end, and carves the mapped memory into chunks.

* `RegionInfo.Ok`: as many records as chunks have been allocated, both are
  mapped, and the two mapped parts do not meet. `populateFreeList_ok`: growth
  keeps it.
* `Carved`: chunk `i` of class `c` has been handed to the free list.
* `InChunk.locate`: a pointer into a chunk determines it. `record_apart`:
  records of different chunks do not overlap. `chunk_not_inMeta`: no chunk
  reaches into mapped metadata.
-/

namespace Caver.Sanitizer

/-! ## Growth -/

/-- `kUserMapSize` and `kMetaMapSize`. -/
def kMapSize : ℕ := 2 ^ 16

/-- `SizeClassMap::MaxCached`. -/
def maxCached (c : ℕ) : ℕ := if c = 0 then 0 else max 1 (min 128 (2 ^ 16 / chunkSize c))

/-- `count` in `PopulateFreeList`: the chunks of one batch. -/
def batchCount (c : ℕ) : ℕ := if chunkSize c < 2 ^ 14 then maxCached c else 1

/-- `while (need > mapped + map_size) map_size += kUserMapSize`. -/
def growMapSize (need mapped mapSize : ℕ) : ℕ :=
  if need > mapped + mapSize then growMapSize need mapped (mapSize + kMapSize) else mapSize
termination_by need - (mapped + mapSize)
decreasing_by
  unfold kMapSize
  omega

/-- Bytes mapped after at least `need` of them have been asked for. -/
def mapUpTo (need mapped : ℕ) : ℕ :=
  if need > mapped then mapped + growMapSize need mapped kMapSize else mapped

/-- The loop that carves batches of `step` bytes, with `allocatedUser` before
and after it. The check fails where a batch is not mapped. -/
def carveBatches (step size mappedUser allocatedUser : ℕ) : Option ℕ :=
  if allocatedUser + step > mappedUser then none
  else if allocatedUser + step + step + size > mappedUser ∨ step = 0 then
    some (allocatedUser + step)
  else carveBatches step size mappedUser (allocatedUser + step)
termination_by mappedUser - allocatedUser
decreasing_by omega

/-- `PopulateFreeList` when the free list is empty: the region afterwards.
It dies when the mapped parts would meet. -/
def populateFreeList (c : ℕ) (r : RegionInfo) : Option RegionInfo :=
  let size := chunkSize c
  let count := batchCount c
  let begIdx := r.allocatedUser
  let endIdx := begIdx + count * size
  let mappedUser := mapUpTo (endIdx + size) r.mappedUser
  let totalCount := (mappedUser - begIdx - size) / size / count * count
  let allocatedMeta := r.allocatedMeta + totalCount * kMetadataSize.toNat
  let mappedMeta := mapUpTo allocatedMeta r.mappedMeta
  if mappedUser + mappedMeta > kRegionSize.toNat then none
  else do
    let allocatedUser ← carveBatches (count * size) size mappedUser begIdx
    pure ⟨allocatedUser, allocatedMeta, mappedUser, mappedMeta⟩

/-- As many records as chunks, all of them mapped, in parts that do not meet. -/
structure RegionInfo.Ok (c : ℕ) (r : RegionInfo) : Prop where
  records : ∃ n, r.allocatedUser = n * chunkSize c ∧ r.allocatedMeta = n * 24
  user_mapped : r.allocatedUser ≤ r.mappedUser
  meta_mapped : r.allocatedMeta ≤ r.mappedMeta
  apart : r.mappedUser + r.mappedMeta ≤ 2 ^ 37

theorem le_growMapSize (need mapped mapSize : ℕ) :
    need ≤ mapped + growMapSize need mapped mapSize := by
  induction mapSize using growMapSize.induct need mapped with
  | case1 mapSize h ih =>
    rw [growMapSize, if_pos h]
    exact ih
  | case2 mapSize h =>
    rw [growMapSize, if_neg h]
    exact not_lt.mp h

theorem le_mapUpTo (need mapped : ℕ) : need ≤ mapUpTo need mapped := by
  unfold mapUpTo
  split
  · exact le_growMapSize _ _ _
  · omega

theorem mapUpTo_mono (need mapped : ℕ) : mapped ≤ mapUpTo need mapped := by
  unfold mapUpTo
  split <;> omega

/-- The loop carves as many whole batches as `total_count` says. -/
theorem carveBatches_eq {step size mapped : ℕ} (hstep : 0 < step) (a : ℕ)
    (hroom : a + step + size ≤ mapped) :
    carveBatches step size mapped a = some (a + (mapped - a - size) / step * step) := by
  induction a using carveBatches.induct step size mapped with
  | case1 a h => omega
  | case2 a h hlast =>
    -- the last batch: one step fits, two do not
    have hone : (mapped - a - size) / step = 1 := by
      rw [Nat.div_eq_iff hstep]
      omega
    rw [carveBatches, if_neg h, if_pos hlast, hone, Nat.one_mul]
  | case3 a h hmore ih =>
    have hroom' : a + step + step + size ≤ mapped := by omega
    have hsub : mapped - a - size = mapped - (a + step) - size + step := by omega
    rw [carveBatches, if_neg h, if_neg hmore, ih hroom', hsub, Nat.add_div_right _ hstep,
      Nat.succ_mul]
    congr 1
    omega

theorem batchCount_pos {c : ℕ} (h0 : 0 < c) : 0 < batchCount c := by
  have hne : ¬ c = 0 := by omega
  unfold batchCount maxCached
  rw [if_neg hne]
  split <;> omega

/-- The steps of `kMapSize` that cover `n` bytes. -/
def mapSteps (n : ℕ) : ℕ := (n + (kMapSize - 1)) / kMapSize

theorem growMapSize_eq (need mapped mapSize : ℕ) :
    growMapSize need mapped mapSize =
      mapSize + mapSteps (need - (mapped + mapSize)) * kMapSize := by
  unfold mapSteps
  induction mapSize using growMapSize.induct need mapped with
  | case1 mapSize h ih =>
    rw [growMapSize, if_pos h, ih]
    unfold kMapSize
    omega
  | case2 mapSize h =>
    have hle : need - (mapped + mapSize) = 0 := by omega
    rw [growMapSize, if_neg h, hle]
    rfl

/-- Memory is mapped in whole steps, and no more of them than are needed. -/
theorem mapUpTo_eq (need mapped : ℕ) :
    mapUpTo need mapped = mapped + mapSteps (need - mapped) * kMapSize := by
  unfold mapUpTo
  rw [growMapSize_eq]
  unfold mapSteps kMapSize
  split <;> omega

/-- `populateFreeList` without its loops. -/
def populated (c : ℕ) (r : RegionInfo) : Option RegionInfo :=
  let need := r.allocatedUser + batchCount c * chunkSize c + chunkSize c
  let mappedUser := r.mappedUser + mapSteps (need - r.mappedUser) * kMapSize
  let batches := (mappedUser - r.allocatedUser - chunkSize c) / (batchCount c * chunkSize c)
  let allocatedMeta := r.allocatedMeta + batches * batchCount c * 24
  let mappedMeta := r.mappedMeta + mapSteps (allocatedMeta - r.mappedMeta) * kMapSize
  if mappedUser + mappedMeta > 2 ^ 37 then none
  else some ⟨r.allocatedUser + batches * (batchCount c * chunkSize c), allocatedMeta,
    mappedUser, mappedMeta⟩

theorem chunkSize_pos {c : ℕ} (h0 : 0 < c) (hc : c < 53) : 0 < chunkSize c := by
  have hb := chunkSize_bounds h0 (show c < 64 by omega)
  omega

theorem populateFreeList_eq {c : ℕ} (h0 : 0 < c) (hc : c < 53) (r : RegionInfo) :
    populateFreeList c r = populated c r := by
  have hstep := Nat.mul_pos (batchCount_pos h0) (chunkSize_pos h0 hc)
  have hneed :=
    le_mapUpTo (r.allocatedUser + batchCount c * chunkSize c + chunkSize c) r.mappedUser
  have hsize : chunkSize c * batchCount c = batchCount c * chunkSize c := Nat.mul_comm _ _
  unfold populateFreeList populated
  dsimp only
  rw [← mapUpTo_eq, ← mapUpTo_eq, kMetadataSize_toNat, kRegionSize_toNat,
    Nat.div_div_eq_div_mul, hsize, carveBatches_eq hstep _ hneed]
  rfl

/-- What growth does to a region, where it does not die. -/
theorem populateFreeList_ok {c : ℕ} {r r' : RegionInfo} (h0 : 0 < c) (hc : c < 53)
    (hr : r.Ok c) (h : populateFreeList c r = some r') :
    r'.Ok c ∧ r.allocatedUser ≤ r'.allocatedUser ∧ r.mappedUser ≤ r'.mappedUser ∧
      r.mappedMeta ≤ r'.mappedMeta := by
  rcases hr.records with ⟨n, hn, hm⟩
  have hneed :=
    le_mapUpTo (r.allocatedUser + batchCount c * chunkSize c + chunkSize c) r.mappedUser
  rw [populateFreeList_eq h0 hc, populated, ← mapUpTo_eq, ← mapUpTo_eq] at h
  split at h
  · -- the region is exhausted, and the process dies
    simp at h
  · next hfits =>
    obtain ⟨U, hU⟩ : ∃ U, mapUpTo (r.allocatedUser + batchCount c * chunkSize c + chunkSize c)
        r.mappedUser = U := ⟨_, rfl⟩
    have hmono :=
      mapUpTo_mono (r.allocatedUser + batchCount c * chunkSize c + chunkSize c) r.mappedUser
    rw [hU] at h hfits hneed hmono
    -- `q` batches are carved, and as many records
    obtain ⟨q, hq⟩ : ∃ q, (U - r.allocatedUser - chunkSize c) / (batchCount c * chunkSize c) = q :=
      ⟨_, rfl⟩
    have hle := Nat.div_mul_le_self (U - r.allocatedUser - chunkSize c) (batchCount c * chunkSize c)
    rw [hq] at h hfits hle
    simp only [Option.some.injEq] at h
    subst h
    refine ⟨⟨⟨n + q * batchCount c, ?_, ?_⟩, ?_, ?_, ?_⟩, ?_, hmono, mapUpTo_mono _ _⟩
    · show r.allocatedUser + q * (batchCount c * chunkSize c) = (n + q * batchCount c) * chunkSize c
      rw [hn]
      ring
    · show r.allocatedMeta + q * batchCount c * 24 = (n + q * batchCount c) * 24
      rw [hm]
      ring
    · show r.allocatedUser + q * (batchCount c * chunkSize c) ≤ U
      omega
    · exact le_mapUpTo _ _
    · exact not_lt.mp hfits
    · exact Nat.le_add_right _ _

/-! ## The geometry of chunks and records -/

/-- The chunk lies within the region of a class in use. -/
def Fits (c i : ℕ) : Prop := 0 < c ∧ c < 53 ∧ (i + 1) * chunkSize c ≤ 2 ^ 37

/-- The chunk has been handed to the free list. -/
def Carved (regions : Regions) (c i : ℕ) : Prop :=
  0 < c ∧ c < 53 ∧ (i + 1) * chunkSize c ≤ (regions c).allocatedUser

/-- The pointer lies in chunk `i` of class `c`. -/
def InChunk (c i : ℕ) (p : Uptr) : Prop :=
  chunkBeg c i ≤ p.toNat ∧ p.toNat < chunkBeg c i + chunkSize c

/-- The address lies in the mapped metadata of a region. -/
def InMeta (regions : Regions) (a : Uptr) : Prop :=
  ∃ c, 0 < c ∧ c < 53 ∧ 0x600000000000 + (c + 1) * 2 ^ 37 ≤ a.toNat + (regions c).mappedMeta ∧
    a.toNat < 0x600000000000 + (c + 1) * 2 ^ 37

/-- Every region is in order. -/
def RegionsOk (regions : Regions) : Prop := ∀ c, 0 < c → c < 53 → (regions c).Ok c

variable {regions : Regions} {c i c' i' : ℕ} {p : Uptr}

instance : Decidable (Carved regions c i) := inferInstanceAs (Decidable (_ ∧ _ ∧ _))

theorem pointerIsMine_iff (p : Uptr) :
    pointerIsMine p = true ↔ 0x600000000000 ≤ p.toNat ∧ p.toNat < 0x680000000000 := by
  have hs : kSpaceSize.toNat = 2 ^ 43 := rfl
  have hb : (kSpaceBeg / kSpaceSize).toNat = 12 := rfl
  unfold pointerIsMine
  rw [beq_iff_eq, ← UInt64.toNat_inj, UInt64.toNat_div, hs, hb]
  omega

theorem Carved.fits (hr : RegionsOk regions) (h : Carved regions c i) : Fits c i := by
  rcases h with ⟨h0, hc, hi⟩
  have hok := hr c h0 hc
  have hum := hok.user_mapped
  have hap := hok.apart
  exact ⟨h0, hc, by omega⟩

/-- There is a record for every chunk. -/
theorem Carved.meta_le (hr : RegionsOk regions) (h : Carved regions c i) :
    (i + 1) * 24 ≤ (regions c).mappedMeta := by
  rcases h with ⟨h0, hc, hi⟩
  have hok := hr c h0 hc
  have hmm := hok.meta_mapped
  rcases hok.records with ⟨n, hn, hm⟩
  have hpos := (chunkSize_bounds h0 (show c < 64 by omega)).1
  rw [hn] at hi
  have hle : i + 1 ≤ n := Nat.le_of_mul_le_mul_right hi (by omega)
  omega

/-- A pointer into a chunk that fits is in the allocator's space, and its bits
name the class and the chunk. -/
theorem InChunk.locate (hf : Fits c i) (hp : InChunk c i p) :
    pointerIsMine p = true ∧ classOf p = c ∧ chunkOf p = i := by
  rcases hf with ⟨h0, hc, hi⟩
  rcases hp with ⟨hlo, hhi⟩
  unfold chunkBeg at hlo hhi
  rw [Nat.succ_mul] at hi
  have hpos := (chunkSize_bounds h0 (show c < 64 by omega)).1
  have hcls : classOf p = c := by
    unfold classOf
    have hdiv : p.toNat / 2 ^ 37 = 768 + c := by
      rw [Nat.div_eq_iff (by decide)]
      omega
    omega
  refine ⟨(pointerIsMine_iff p).mpr (by omega), hcls, ?_⟩
  have hmod : p.toNat % 2 ^ 37 = p.toNat - (768 + c) * 2 ^ 37 := by omega
  unfold chunkOf
  rw [hcls, hmod, Nat.div_eq_iff (by omega)]
  omega

/-- The block of a pointer of the allocator that is served. -/
theorem getBlockBegin_of_mine (hm : pointerIsMine p = true) (hs : Served regions p) :
    (getBlockBegin regions p).toNat = chunkBeg (classOf p) (chunkOf p) := by
  have hcls : p.toNat = 0x600000000000 + classOf p * 2 ^ 37 + p.toNat % 2 ^ 37 := by
    rw [pointerIsMine_iff] at hm
    unfold classOf
    omega
  rw [getBlockBegin_toNat, if_pos hs]
  unfold chunkBeg
  omega

theorem Carved.served (hr : RegionsOk regions) (h : Carved regions c i) (hp : InChunk c i p) :
    Served regions p := by
  rcases hp.locate (h.fits hr) with ⟨-, hcls, hidx⟩
  rcases h with ⟨h0, hc, hi⟩
  have hum := (hr c h0 hc).user_mapped
  unfold Served
  rw [hcls, hidx]
  exact ⟨h0, hc, by omega⟩

/-- The start of a chunk is in it. -/
theorem Fits.start (hf : Fits c i) (hp : p.toNat = chunkBeg c i) : InChunk c i p := by
  have hpos := chunkSize_pos hf.1 hf.2.1
  exact ⟨by omega, by omega⟩

/-- A carved chunk is the block of every pointer into it. -/
theorem Carved.getBlockBegin_eq (hr : RegionsOk regions) (h : Carved regions c i)
    (hp : InChunk c i p) {b : Uptr} (hb : b.toNat = chunkBeg c i) :
    getBlockBegin regions p = b := by
  rcases hp.locate (h.fits hr) with ⟨hm, hcls, hidx⟩
  rw [← UInt64.toNat_inj, getBlockBegin_of_mine hm (h.served hr hp), hcls, hidx, hb]

theorem Served.fits (hr : RegionsOk regions) (hs : Served regions p) :
    Fits (classOf p) (chunkOf p) := by
  rcases hs with ⟨h0, hc, hi⟩
  have hap := (hr _ h0 hc).apart
  exact ⟨h0, hc, by omega⟩

/-- Records of different chunks do not overlap. A record of class 1 may lie
below its own region, but nothing uses the region below that. -/
theorem record_apart (hf : Fits c i) (hf' : Fits c' i') (hne : ¬ (c = c' ∧ i = i')) :
    recordBeg c i + 24 ≤ recordBeg c' i' ∨ recordBeg c' i' + 24 ≤ recordBeg c i := by
  -- records of larger chunks stay within their own region
  have hlarge : ∀ d j, Fits d j → 2 ≤ d → (j + 1) * 24 ≤ 2 ^ 37 := by
    intro d j hd h2
    have hsize : ∀ e : Fin 53, 2 ≤ e.val → 32 ≤ chunkSize e.val := by decide
    have hle := Nat.mul_le_mul_left (j + 1) (hsize ⟨d, hd.2.1⟩ h2)
    have hfit := hd.2.2
    dsimp only at hle
    omega
  -- those of class 1 take at most one and a half regions
  have hsmall : ∀ d j, Fits d j → (j + 1) * 24 ≤ 3 * 2 ^ 36 := by
    intro d j hd
    have hd64 : d < 64 := by
      have hd53 := hd.2.1
      omega
    have hle := Nat.mul_le_mul_left (j + 1) (chunkSize_bounds hd.1 hd64).1
    have hfit := hd.2.2
    omega
  have h1 := hsmall c i hf
  have h1' := hsmall c' i' hf'
  unfold recordBeg
  rcases Nat.lt_trichotomy c c' with hlt | rfl | hgt
  · have h2 := hlarge c' i' hf' (by have := hf.1; omega)
    left
    omega
  · -- within a class, records go down as chunks go up
    rcases Nat.lt_trichotomy i i' with hlt | rfl | hgt
    · right
      omega
    · exact absurd ⟨rfl, rfl⟩ hne
    · left
      omega
  · have h2 := hlarge c i hf (by have := hf'.1; omega)
    right
    omega

/-- The start of a chunk as a word. -/
theorem Fits.chunkBeg_toNat (hf : Fits c i) :
    (UInt64.ofNat (chunkBeg c i)).toNat = chunkBeg c i := by
  have hle := hf.2.2
  have hc := hf.2.1
  rw [Nat.succ_mul] at hle
  rw [UInt64.toNat_ofNat', Nat.mod_eq_of_lt]
  unfold chunkBeg
  omega

/-- Records are in the primary space. -/
theorem Fits.recordBeg_bounds (hf : Fits c i) :
    0x600000000000 ≤ recordBeg c i ∧ recordBeg c i + 24 ≤ 0x680000000000 := by
  have hle := Nat.mul_le_mul_left (i + 1)
    (chunkSize_bounds hf.1 (show c < 64 by have := hf.2.1; omega)).1
  rcases hf with ⟨h0, hc, hfit⟩
  unfold recordBeg
  omega

theorem Fits.recordBeg_toNat (hf : Fits c i) :
    (UInt64.ofNat (recordBeg c i)).toNat = recordBeg c i := by
  have hle := hf.recordBeg_bounds.2
  rw [UInt64.toNat_ofNat', Nat.mod_eq_of_lt]
  omega

/-- Different chunks of the allocator start at different addresses. -/
theorem chunkBeg_inj (hf : Fits c i) (hf' : Fits c' i') (h : chunkBeg c i = chunkBeg c' i') :
    c = c' ∧ i = i' := by
  have hn := hf.chunkBeg_toNat
  have hp := hf.start hn
  have hp' := hf'.start (hn.trans h)
  rcases hp.locate hf with ⟨-, hc, hi⟩
  rcases hp'.locate hf' with ⟨-, hc', hi'⟩
  exact ⟨hc.symm.trans hc', hi.symm.trans hi'⟩

/-- The record of a carved chunk is mapped metadata. -/
theorem record_inMeta (hr : RegionsOk regions) (h : Carved regions c i) {a : Uptr}
    (hlo : recordBeg c i ≤ a.toNat) (hhi : a.toNat < recordBeg c i + 24) :
    InMeta regions a := by
  have hmeta := h.meta_le hr
  have hap := (hr c h.1 h.2.1).apart
  unfold recordBeg at hlo hhi
  refine ⟨c, h.1, h.2.1, ?_, ?_⟩ <;> omega

/-- No chunk reaches into mapped metadata. -/
theorem chunk_not_inMeta (hr : RegionsOk regions) (h : Carved regions c i) (hp : InChunk c i p) :
    ¬ InMeta regions p := by
  rintro ⟨d, hd0, hd, hlo, hhi⟩
  have hok := hr c h.1 h.2.1
  have hum := hok.user_mapped
  have hap := hok.apart
  have hi := h.2.2
  rcases hp with ⟨hp1, hp2⟩
  unfold chunkBeg at hp1 hp2
  rw [Nat.succ_mul] at hi
  rcases Nat.lt_trichotomy c d with hlt | rfl | hgt
  · have hap' := (hr d hd0 hd).apart
    omega
  · omega
  · omega

end Caver.Sanitizer
