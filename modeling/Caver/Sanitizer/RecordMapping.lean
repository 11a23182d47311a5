import Caver.Sanitizer.Region

/-!
# Caver.Sanitizer.RecordMapping — which records a lookup may read

User memory and metadata of a region are both mapped in steps of 64 KiB. The
lookup of a pointer compares its chunk with the user memory that is mapped, but
metadata is mapped for the chunks that have been carved from that memory only.

* `Grown`: the regions that calls of `PopulateFreeList` lead to, in any order
  and number.
* `Grown.metaStepped`: the metadata mapped for a region is that of its carved
  chunks, rounded up to whole steps.
* `lookup_recordMapped_iff`: the record that a lookup names is mapped exactly
  if it ends in a step that the records of the carved chunks have reached.
* `lookup_past_metadata`: after 42 calls for the class of 1024 bytes, there is a
  chunk whose record is not mapped.
-/

namespace Caver.Sanitizer

/-! ## Runs of `PopulateFreeList` -/

/-- The regions as `Init` leaves them. -/
def emptyRegions : Regions := fun _ => ⟨0, 0, 0, 0⟩

/-- Regions that a sequence of `PopulateFreeList` calls leads to. -/
inductive Grown : Regions → Prop where
  | init : Grown emptyRegions
  | grow {regions : Regions} {c : ℕ} {r : RegionInfo} :
      Grown regions → 0 < c → c < 53 → populateFreeList c (regions c) = some r →
      Grown (Function.update regions c r)

/-- Metadata is mapped in whole steps, and no more of them than the records of
carved chunks need. -/
def RegionInfo.MetaStepped (r : RegionInfo) : Prop :=
  r.mappedMeta = mapSteps r.allocatedMeta * kMapSize

/-- The chunks of a class that have been carved. -/
def carvedChunks (regions : Regions) (c : ℕ) : ℕ := (regions c).allocatedUser / chunkSize c

/-- The steps that the records of the first `n` chunks of a class take. -/
def recordSteps (n : ℕ) : ℕ := mapSteps (n * kMetadataSize.toNat)

/-- The whole record at `m` lies in the metadata mapped for the class. -/
def RecordMapped (regions : Regions) (c : ℕ) (m : Uptr) : Prop :=
  0x600000000000 + (c + 1) * 2 ^ 37 ≤ m.toNat + (regions c).mappedMeta ∧
    m.toNat + kMetadataSize.toNat ≤ 0x600000000000 + (c + 1) * 2 ^ 37

instance (regions : Regions) (c : ℕ) (m : Uptr) : Decidable (RecordMapped regions c m) :=
  inferInstanceAs (Decidable (_ ∧ _))

variable {regions : Regions} {c : ℕ} {p ppMetaData : Uptr}

/-- Growing by steps twice is growing by steps once. -/
theorem mapSteps_grow {a b : ℕ} (h : a ≤ b) :
    mapSteps a * kMapSize + mapSteps (b - mapSteps a * kMapSize) * kMapSize =
      mapSteps b * kMapSize := by
  unfold mapSteps kMapSize
  omega

theorem populateFreeList_metaStepped {r r' : RegionInfo} (h0 : 0 < c) (hc : c < 53)
    (hr : r.MetaStepped) (h : populateFreeList c r = some r') : r'.MetaStepped := by
  rw [populateFreeList_eq h0 hc, populated] at h
  split at h
  · simp at h
  · simp only [Option.some.injEq] at h
    subst h
    unfold RegionInfo.MetaStepped at hr ⊢
    dsimp only
    rw [hr]
    exact mapSteps_grow (Nat.le_add_right _ _)

/-- What holds of the regions at first and survives their growth holds in every
region at any time. -/
theorem Grown.forall_region {P : ℕ → RegionInfo → Prop} (h : Grown regions)
    (hinit : ∀ c, 0 < c → c < 53 → P c ⟨0, 0, 0, 0⟩)
    (hstep : ∀ c r r', 0 < c → c < 53 → P c r → populateFreeList c r = some r' → P c r') :
    ∀ c, 0 < c → c < 53 → P c (regions c) := by
  induction h with
  | init => exact hinit
  | @grow regions d r _ hd0 hd hrun ih =>
    intro c h0 hc
    by_cases hcd : c = d
    · subst hcd
      rw [Function.update_self]
      exact hstep c _ r h0 hc (ih c h0 hc) hrun
    · rw [Function.update_of_ne hcd]
      exact ih c h0 hc

theorem Grown.ok (h : Grown regions) : RegionsOk regions := by
  refine h.forall_region ?_ ?_
  · intro c _ _
    exact ⟨⟨0, by simp, by simp⟩, Nat.le_refl _, Nat.le_refl _, by decide⟩
  · intro c r r' h0 hc hr hrun
    exact (populateFreeList_ok h0 hc hr hrun).1

theorem Grown.metaStepped (h : Grown regions) :
    ∀ c, 0 < c → c < 53 → (regions c).MetaStepped := by
  refine h.forall_region (P := fun _ r => r.MetaStepped) ?_ ?_
  · intro c _ _
    exact (by decide : 0 = mapSteps 0 * kMapSize)
  · intro c r r' h0 hc hr hrun
    exact populateFreeList_metaStepped h0 hc hr hrun

/-- The metadata mapped for a class, from its carved chunks alone. -/
theorem Grown.mappedMeta_eq (h : Grown regions) (h0 : 0 < c) (hc : c < 53) :
    (regions c).mappedMeta = recordSteps (carvedChunks regions c) * kMapSize := by
  rcases (h.ok c h0 hc).records with ⟨n, hn, hm⟩
  have hcarved : carvedChunks regions c = n := by
    unfold carvedChunks
    rw [hn]
    exact Nat.mul_div_left n (chunkSize_pos h0 hc)
  rw [h.metaStepped c h0 hc, hm, hcarved]
  rfl

/-! ## The lookup -/

/-- The record of a served pointer is mapped, if metadata is mapped that far. -/
theorem Served.recordMapped_iff (hs : Served regions p) :
    RecordMapped regions (classOf p) (getMetaData p) ↔
      (chunkOf p + 1) * 24 ≤ (regions (classOf p)).mappedMeta := by
  have hlt := classOf_lt p
  -- the index is so small that the subtraction does not wrap
  have hi : chunkOf p < 2 ^ 33 := by
    have h := Nat.div_le_div_left (chunkSize_bounds hs.1 hlt).1 (by decide)
      (a := p.toNat % 2 ^ 37)
    unfold chunkOf
    omega
  unfold RecordMapped
  rw [getMetaData_toNat hs.1, kMetadataSize_toNat]
  unfold recordBeg
  omega

/-- The pointers whose records casts can read, in every state that growth leads
to: the record ends in a step that the records of carved chunks have reached. -/
theorem lookup_recordMapped_iff (h : Grown regions)
    (hblock : (getBlockBeginAndMetaData regions p ppMetaData).1 ≠ 0) :
    RecordMapped regions (classOf p) (getBlockBeginAndMetaData regions p ppMetaData).2 ↔
      recordSteps (chunkOf p + 1) ≤ recordSteps (carvedChunks regions (classOf p)) := by
  rw [getBlockBeginAndMetaData_eq] at hblock ⊢
  have hs := (getBlockBegin_ne_zero_iff regions p).mp hblock
  dsimp only
  rw [if_pos hs, hs.recordMapped_iff, h.mappedMeta_eq hs.1 hs.2.1]
  -- a number is below a multiple of the step exactly if its steps are
  unfold recordSteps mapSteps kMapSize
  rw [kMetadataSize_toNat]
  omega

/-! ## A chunk without a record -/

/-- A region after `k` calls. -/
def growTimes (c : ℕ) : ℕ → RegionInfo → Option RegionInfo
  | 0, r => some r
  | k + 1, r => (populated c r).bind (growTimes c k)

theorem Grown.growTimes {r : RegionInfo} {k : ℕ} (h : Grown regions) (h0 : 0 < c) (hc : c < 53)
    (hrun : growTimes c k (regions c) = some r) : Grown (Function.update regions c r) := by
  induction k generalizing regions with
  | zero =>
    cases hrun
    rw [Function.update_eq_self]
    exact h
  | succ k ih =>
    rcases Option.bind_eq_some_iff.mp hrun with ⟨r₁, h₁, hrest⟩
    have hnext := h.grow h0 hc ((populateFreeList_eq h0 hc _).trans h₁)
    have hlast := ih hnext (by rw [Function.update_self]; exact hrest)
    rw [Function.update_idem] at hlast
    exact hlast

/-- Regions of which only class 24 has been used. Its chunks have 1024 bytes. -/
def regions24 (r : RegionInfo) : Regions := Function.update emptyRegions 24 r

theorem grown_regions24 {k : ℕ} {r : RegionInfo} (hrun : growTimes 24 k ⟨0, 0, 0, 0⟩ = some r) :
    Grown (regions24 r) :=
  Grown.init.growTimes (by decide) (by decide) hrun

/-- The last chunk that the first call carves. -/
theorem lookup_recordMapped_carved :
    RecordMapped (regions24 ⟨65536, 1536, 131072, 65536⟩) (classOf 0x63000000fc00)
      (getBlockBeginAndMetaData (regions24 ⟨65536, 1536, 131072, 65536⟩) 0x63000000fc00 0).2 :=
  (lookup_recordMapped_iff (grown_regions24 (k := 1) (by decide +kernel)) (by decide)).mpr
    (by decide)

/-- Call 42 maps user memory for 2752 chunks and carves 2688 of them. The record
of the last chunk that is mapped ends beyond the metadata that is. -/
theorem lookup_past_metadata :
    Grown (regions24 ⟨2752512, 64512, 2818048, 65536⟩) ∧
      pointerIsMine 0x6300002afc00 = true ∧
      (getBlockBeginAndMetaData (regions24 ⟨2752512, 64512, 2818048, 65536⟩)
        0x6300002afc00 0).1 ≠ 0 ∧
      ¬ RecordMapped (regions24 ⟨2752512, 64512, 2818048, 65536⟩) 24
        (getBlockBeginAndMetaData (regions24 ⟨2752512, 64512, 2818048, 65536⟩)
          0x6300002afc00 0).2 :=
  ⟨grown_regions24 (k := 42) (by decide +kernel), by decide, by decide, by decide⟩

end Caver.Sanitizer
