import Caver.Core.Coupled
import Caver.Sanitizer.LargeMmapSteps

/-!
# Caver.Sanitizer.LargeMmapRefines — the array refines the list of large chunks

`secondaryAllocate`, `secondaryDeallocate` and `secondaryGetBlockBegin` keep the chunks
in a list. The array with its indices, its sort and its search does the same.

* `legal`: what is freed, and what a size is asked of, are blocks.
* `array_refines_list`: any such calls have the same answers, and fail in the same place,
  which is an allocation.
* `fast_lookup_agrees`: both lookups find the block that contains the pointer.
* `statistics_count`: the statistics are exact, and no check of an index fails.
-/

namespace Caver.Sanitizer.LargeMmap

open Caver.Core

/-- Calls of the allocator. -/
inductive Op where
  | allocate (mapBeg size alignment : Uptr)
  | deallocate (p : Uptr)
  | getBlockBegin (p : Uptr)
  | getBlockBeginFastLocked (p : Uptr)
  | getActuallyAllocatedSize (p : Uptr)
  | totalMemoryUsed
deriving DecidableEq, Repr

def Op.exec : Op → LargeM Uptr
  | .allocate mapBeg size alignment => LargeMmap.allocate mapBeg size alignment
  | .deallocate p => do
    LargeMmap.deallocate p
    return 0
  | .getBlockBegin p => LargeMmap.getBlockBegin p
  | .getBlockBeginFastLocked p => LargeMmap.getBlockBeginFastLocked p
  | .getActuallyAllocatedSize p => LargeMmap.getActuallyAllocatedSize p
  | .totalMemoryUsed => LargeMmap.totalMemoryUsed

/-- The mapped bytes, but for what an alignment has added. -/
def totalUsed (L : Multiset LargeChunk) : Uptr := (L.map fun k => roundUpMapSize k.size).sum

/-- The same calls, of the list. There is only one lookup. -/
def Op.spec : Op → HeapM Uptr
  | .allocate mapBeg size alignment => secondaryAllocate mapBeg size alignment
  | .deallocate p => do
    secondaryDeallocate p
    return 0
  | .getBlockBegin p => secondaryGetBlockBegin p
  | .getBlockBeginFastLocked p => secondaryGetBlockBegin p
  | .getActuallyAllocatedSize p => secondaryGetActuallyAllocatedSize p
  | .totalMemoryUsed => do
    let h ← get
    return totalUsed ↑h.large

/-- The pointer is that of a live block. -/
def isBlock (L : List LargeChunk) (p : Uptr) : Bool := L.any fun k => p == k.header + kPageSize

/-- Only blocks are freed, and asked for their sizes. -/
def Op.ok (L : List LargeChunk) : Op → Bool
  | .deallocate p | .getActuallyAllocatedSize p => isBlock L p
  | _ => true

/-- Every call is about a block that is live when it is made. -/
def legal : List Op → HeapState → Bool
  | [], _ => true
  | op :: ops, h => op.ok h.large && (op.spec h).all fun r => legal ops r.2

/-- The allocator with an empty list. -/
def listStart (mayReturnNull : Bool) : HeapState :=
  ⟨fun _ => 0, fun _ => ⟨0, 0, 0, 0⟩, fun _ => false, [], mayReturnNull⟩

/-- The array and the list hold the same chunks. -/
def Related (s : State) (h : HeapState) : Prop :=
  ∃ c, Inv s c ∧ (↑h.large : Multiset LargeChunk) = live s c ∧ Counted s.stats (live s c) ∧
    h.mayReturnNull = s.mayReturnNull

variable {s s' : State} {h : HeapState} {c : ℕ → LargeChunk} {i n : ℕ} {k : LargeChunk}
  {p r b size mapSize : Uptr} {L : Multiset LargeChunk}

theorem related_start (b : Bool) : Related (start b) (listStart b) := by
  refine ⟨fun _ => ⟨0, 0, 0, 0⟩, ⟨Nat.zero_le _, ?_, ?_, ?_, ?_, ?_, ?_⟩, rfl, Counted.start, rfl⟩
  · exact fun i hi => absurd hi (Nat.not_lt_zero i)
  · exact fun i hi => absurd hi (Nat.not_lt_zero i)
  · exact fun x hd hx => absurd hx (by simp [start])
  · exact fun i hi => absurd hi (Nat.not_lt_zero i)
  · exact fun i j hi => absurd hi (Nat.not_lt_zero i)
  · exact fun hs => absurd hs Bool.false_ne_true

/-! ## Allocation -/

theorem Inv.mapped_eq (hinv : Inv s c) : s.mapped = (List.range s.nChunks).map c := by
  rw [State.mapped, ← List.filterMap_eq_map]
  refine List.filterMap_congr fun i hi => ?_
  have hlt := List.mem_range.mp hi
  rw [hinv.chunks i hlt, hinv.header i hlt]
  rfl

theorem perm_mapped (hinv : Inv s c) (hlive : (↑h.large : Multiset LargeChunk) = live s c) :
    s.mapped.Perm h.large := by
  rw [hinv.mapped_eq, ← Multiset.coe_eq_coe, coe_map_range]
  exact hlive.symm

theorem mappable_congr {l l' : List LargeChunk} (hperm : l.Perm l') (b n : Uptr) :
    mappable l b n = mappable l' b n := by
  unfold mappable
  rw [hperm.all_eq]

theorem coupled_mmapOrDie (hinv : Inv s c)
    (hlive : (↑h.large : Multiset LargeChunk) = live s c) :
    coupled (LargeMmap.mmapOrDie b mapSize) (Sanitizer.mmapOrDie b mapSize)
      (fun a a' s' h' => b = a ∧ b = a' ∧ s = s' ∧ h = h' ∧ mappable h.large b mapSize = true)
      s h := by
  unfold LargeMmap.mmapOrDie Sanitizer.mmapOrDie
  refine coupled_bind (coupled_get ?_)
  have hmap := mappable_congr (perm_mapped hinv hlive) b mapSize
  refine coupled_bind (coupled_check hmap fun hok => ?_)
  exact coupled_pure ⟨rfl, rfl, rfl, rfl, hmap ▸ hok⟩

/-- The chunk of a mapping that the kernel could return. -/
theorem mapped_of_mappable {l : List LargeChunk} (hmap : mappable l b mapSize = true)
    (hp : isAligned r kPageSize = true)
    (hheader : (decide (b ≤ r - kPageSize) &&
      decide ((r - kPageSize).toNat + kPageSize.toNat ≤ (b + mapSize).toNat)) = true) :
    Mapped ⟨r - kPageSize, b, mapSize, size⟩ ∧
      ∀ k ∈ l, ApartFrom ⟨r - kPageSize, b, mapSize, size⟩ k := by
  simp only [mappable, Bool.and_eq_true, Bool.or_eq_true, decide_eq_true_eq, List.all_eq_true,
    bne_iff_ne] at hmap hheader
  rcases hmap with ⟨⟨⟨⟨-, hne⟩, huser⟩, -⟩, hall⟩
  rcases hheader with ⟨hlo, hhi⟩
  have hend : (b + mapSize).toNat = b.toNat + mapSize.toNat := toNat_add_of_lt (by omega)
  have hk := kPageSize_toNat
  rw [hend, hk] at hhi
  rw [UInt64.le_iff_toNat_le] at hlo
  refine ⟨⟨?_, ?_, hlo, hhi, huser⟩, hall⟩
  · show isAligned (r - kPageSize) kPageSize = true
    rw [isAligned_iff] at hp ⊢
    have hsub : (r - kPageSize).toNat + 4096 = r.toNat := by
      have hlt := r.toNat_lt
      rw [UInt64.toNat_sub, hk] at hhi ⊢
      omega
    omega
  · refine Nat.pos_of_ne_zero fun hz => hne ?_
    exact UInt64.toNat_inj.mp hz

theorem Related.added (hinv : Inv s c) (hlive : (↑h.large : Multiset LargeChunk) = live s c)
    (hcounted : Counted s.stats (live s c)) (hnull : h.mayReturnNull = s.mayReturnNull)
    (hk : Mapped k) (hfree : ∀ k' ∈ h.large, ApartFrom k k') (hroom : s.nChunks < kMaxNumChunks) :
    Related (LargeMmap.added s k) { h with large := h.large ++ [k] } := by
  have hfree' : ∀ i, i < s.nChunks → ApartFrom k (c i) := by
    intro i hi
    refine hfree _ (Multiset.mem_coe.mp ?_)
    rw [hlive]
    exact mem_live.mpr ⟨i, hi, rfl⟩
  have hinv' := hinv.added hk hfree' hroom
  have hlive' := live_added s c k
  refine ⟨_, hinv', ?_, ?_, hnull⟩
  · rw [hlive', ← hlive, Multiset.cons_coe, Multiset.coe_eq_coe]
    exact List.perm_append_singleton k h.large
  · rw [hlive']
    exact hcounted.allocated (hlive' ▸ hinv'.live)

theorem coupled_allocatorReturnNull (hnull : h.mayReturnNull = s.mayReturnNull) :
    coupled LargeMmap.allocatorReturnNull Sanitizer.allocatorReturnNull
      (fun a a' s' h' => a = a' ∧ s = s' ∧ h = h') s h := by
  unfold LargeMmap.allocatorReturnNull Sanitizer.allocatorReturnNull
  refine coupled_bind (coupled_get ?_)
  refine coupled_bind (coupled_check hnull.symm fun _ => ?_)
  exact coupled_pure ⟨rfl, rfl, rfl⟩

theorem coupled_getHeader (p : Uptr) :
    coupled (LargeMmap.getHeader p) (Sanitizer.getHeader p)
      (fun a a' s' h' => a = p - kPageSize ∧ a' = p - kPageSize ∧ s = s' ∧ h = h' ∧
        isAligned p kPageSize = true) s h := by
  unfold LargeMmap.getHeader Sanitizer.getHeader
  refine coupled_bind (coupled_check rfl fun hp => ?_)
  exact coupled_pure ⟨rfl, rfl, rfl, rfl, hp⟩

theorem Inv.length_eq (hinv : Inv s c)
    (hlive : (↑h.large : Multiset LargeChunk) = LargeMmap.live s c) :
    h.large.length = s.nChunks := by
  rw [← (perm_mapped hinv hlive).length_eq, hinv.mapped_eq, List.length_map, List.length_range]

/-- A new mapping has a size that can be counted. -/
theorem check_size (hk : Mapped ⟨r, b, mapSize, size⟩) (s : State) :
    (check (mapSize != 0 && decide (mostSignificantSetBitIndex mapSize < 64)) : LargeM PUnit) s =
      some (⟨⟩, s) := by
  have hne : mapSize ≠ 0 := by
    rintro rfl
    have h₁ := hk.header
    have h₂ := hk.room
    simp only [UInt64.toNat_zero] at h₁ h₂
    omega
  refine check_eval ?_ s
  rw [Bool.and_eq_true, bne_iff_ne, decide_eq_true_eq]
  exact ⟨hne, mostSignificantSetBitIndex_lt hne⟩

theorem addChunk_full (hfull : ¬ s.nChunks < kMaxNumChunks) (x b n m : Uptr) :
    addChunk x b n m s = none := by
  unfold addChunk
  rw [bind_eval (get_eval s)]
  exact bind_fails (check_fails (decide_eq_false hfull) s) _

theorem coupled_allocate (hrel : Related s h) (mapBeg size alignment : Uptr) :
    coupled (LargeMmap.allocate mapBeg size alignment) (secondaryAllocate mapBeg size alignment)
      (fun a a' s' h' => a = a' ∧ Related s' h') s h := by
  rcases hrel with ⟨c, hinv, hlive, hcounted, hnull⟩
  -- both sides compute the same size and the same place for the user
  obtain ⟨mapSize, hmapSize⟩ : ∃ n, (if alignment > kPageSize then
    roundUp size kPageSize + kPageSize + alignment else roundUp size kPageSize + kPageSize) = n :=
    ⟨_, rfl⟩
  simp only [LargeMmap.allocate, secondaryAllocate, roundUpMapSize, hmapSize]
  refine coupled_bind (coupled_check rfl fun _ => ?_)
  refine coupled_ite Iff.rfl (fun _ => ?_) fun _ => ?_
  · refine (coupled_allocatorReturnNull hnull).mono ?_
    rintro a _ _ _ ⟨rfl, rfl, rfl⟩
    exact ⟨rfl, c, hinv, hlive, hcounted, hnull⟩
  · refine coupled_bind ((coupled_mmapOrDie hinv hlive).mono ?_)
    rintro _ _ _ _ ⟨rfl, rfl, rfl, rfl, hmap⟩
    obtain ⟨res, hres⟩ : ∃ r, (if mapBeg + kPageSize &&& (alignment - 1) ≠ 0 then
        mapBeg + kPageSize + (alignment - (mapBeg + kPageSize &&& (alignment - 1)))
      else mapBeg + kPageSize) = r := ⟨_, rfl⟩
    simp only [hres]
    refine coupled_bind (coupled_check rfl fun _ => ?_)
    refine coupled_bind (coupled_check rfl fun _ => ?_)
    refine coupled_bind ((coupled_getHeader _).mono ?_)
    rintro _ _ _ _ ⟨rfl, rfl, rfl, rfl, hp⟩
    refine coupled_bind (coupled_check rfl fun hheader => ?_)
    rcases mapped_of_mappable hmap hp hheader with ⟨hk, hfree⟩
    -- the array checks the size again and has one entry more, the list one chunk more
    refine coupled_left (check_size hk s) ?_
    refine coupled_right (get_eval h) ?_
    have hlen := hinv.length_eq hlive
    by_cases hroom : s.nChunks < kMaxNumChunks
    · refine coupled_left (addChunk_eval s ⟨res - kPageSize, mapBeg, mapSize, size⟩ hroom) ?_
      refine coupled_right (check_eval (decide_eq_true (hlen ▸ hroom)) h) ?_
      refine coupled_right (modify_eval _ h) ?_
      exact coupled_pure ⟨rfl, Related.added hinv hlive hcounted hnull hk hfree hroom⟩
    · refine coupled_bind (coupled_fail (addChunk_full hroom _ _ _ _) ?_)
      exact check_fails (decide_eq_false (hlen ▸ hroom)) h

/-! ## Deallocation -/

theorem readHeader_live (hlive : Live ↑h.large) (hk : k ∈ h.large) :
    Sanitizer.readHeader k.header h = some (k, h) := by
  obtain ⟨k', hfind⟩ : ∃ k', h.large.find? (·.header == k.header) = some k' := by
    rw [← Option.isSome_iff_exists, List.find?_isSome]
    exact ⟨k, hk, beq_self_eq_true _⟩
  have hheader : k'.header = k.header := by
    have htrue := List.find?_some hfind
    exact eq_of_beq htrue
  have hk' : k' = k :=
    hlive.header_inj (Multiset.mem_coe.mpr (List.mem_of_find?_eq_some hfind)) hk hheader
  rw [readHeader_eval hfind, hk']

theorem readHeader_none {x : Uptr} (hx : s.header x = none) : readHeader x s = none := by
  unfold readHeader
  rw [bind_eval (get_eval s), hx]
  rfl

/-- The list and memory have the same headers. -/
theorem readHeader_list (hinv : Inv s c)
    (hlive : (↑h.large : Multiset LargeChunk) = LargeMmap.live s c) (x : Uptr) :
    (s.header x = none ∧ Sanitizer.readHeader x h = none) ∨
      ∃ i, i < s.nChunks ∧ (c i).header = x ∧ s.header x = some (headerOf (c i) i) ∧
        Sanitizer.readHeader x h = some (c i, h) := by
  cases hx : s.header x with
  | none =>
    refine Or.inl ⟨rfl, ?_⟩
    have hfind : h.large.find? (·.header == x) = none := by
      rw [List.find?_eq_none]
      intro k hk heq
      rw [beq_iff_eq] at heq
      have hk' : k ∈ LargeMmap.live s c := hlive ▸ Multiset.mem_coe.mpr hk
      rcases mem_live.mp hk' with ⟨i, hi, rfl⟩
      have hread := hinv.header i hi
      rw [heq, hx] at hread
      exact absurd hread (by simp)
    unfold Sanitizer.readHeader
    rw [bind_eval (get_eval h), hfind]
    rfl
  | some hd =>
    rcases hinv.only x hd hx with ⟨i, hi, rfl⟩
    have hread := hinv.header i hi
    rw [hx] at hread
    refine Or.inr ⟨i, hi, rfl, hread, ?_⟩
    have hmem : c i ∈ h.large := by
      rw [← Multiset.mem_coe, hlive]
      exact mem_live.mpr ⟨i, hi, rfl⟩
    exact readHeader_live (hlive ▸ hinv.live) hmem

theorem Related.removed (hinv : Inv s c)
    (hlive : (↑h.large : Multiset LargeChunk) = LargeMmap.live s c)
    (hcounted : Counted s.stats (LargeMmap.live s c)) (hnull : h.mayReturnNull = s.mayReturnNull)
    (hi : i < s.nChunks) :
    Related (LargeMmap.removed s c i) { h with large := h.large.erase (c i) } := by
  have hlive' := live_removed (c := c) hi
  refine ⟨_, hinv.removed hi, ?_, ?_, hnull⟩
  · show (↑(h.large.erase (c i)) : Multiset LargeChunk) = _
    rw [← Multiset.coe_erase, hlive, hlive', Multiset.erase_cons_head]
  · rw [hlive'] at hcounted
    exact hcounted.freed

theorem coupled_deallocate (hrel : Related s h) (p : Uptr) :
    coupled (LargeMmap.deallocate p) (secondaryDeallocate p) (fun _ _ s' h' => Related s' h')
      s h := by
  rcases hrel with ⟨c, hinv, hlive, hcounted, hnull⟩
  by_cases hp : isAligned p kPageSize = true
  · have hleft : LargeMmap.getHeader p s = some (p - kPageSize, s) :=
      bind_eval (check_eval hp s) _
    have hright : Sanitizer.getHeader p h = some (p - kPageSize, h) :=
      bind_eval (check_eval hp h) _
    rcases readHeader_list hinv hlive (p - kPageSize) with ⟨hs, hh⟩ | ⟨i, hi, heq, hs, hh⟩
    · refine coupled_fail ?_ ?_
      · unfold LargeMmap.deallocate
        rw [bind_eval hleft]
        exact bind_fails (readHeader_none hs) _
      · unfold secondaryDeallocate
        rw [bind_eval hright]
        exact bind_fails hh _
    · have hlist : secondaryDeallocate p h =
          some (⟨⟩, { h with large := h.large.erase (c i) }) := by
        unfold secondaryDeallocate
        rw [bind_eval hright, bind_eval hh]
        exact modify_eval _ h
      exact coupled_eval (deallocate_eval hinv hi hp heq.symm) hlist
        (Related.removed hinv hlive hcounted hnull hi)
  · have hf : isAligned p kPageSize = false := Bool.eq_false_iff.mpr hp
    exact coupled_fail (bind_fails (bind_fails (check_fails hf s) _) _)
      (bind_fails (bind_fails (check_fails hf h) _) _)

/-! ## Lookups -/

/-- The list finds the block that contains the pointer, too. -/
theorem secondaryGetBlockBegin_located (hlive : Live ↑h.large) (p : Uptr) :
    wp (secondaryGetBlockBegin p) (fun r h' => h' = h ∧ Located ↑h.large p r) h := by
  simp only [secondaryGetBlockBegin, wp_bind, wp_get, wp_ite, wp_pure]
  rcases nearestChunk_nearest h.large p with ⟨h0, hall⟩ | ⟨k, hk, heq⟩
  · rw [if_pos h0]
    refine ⟨trivial, located_zero fun k hk => ?_⟩
    have hmapped := hlive.mapped k hk
    have hpos := hmapped.nonnull
    have hle := hmapped.header
    refine hall k (Multiset.mem_coe.mp hk) fun hz => ?_
    rw [hz, UInt64.toNat_zero] at hle
    omega
  · have hmapped := hlive.mapped k hk.mem
    have hnonnull := hmapped.nonnull
    have hlo := hmapped.header
    have hroom := hmapped.room
    have hend := hmapped.end_toNat
    have hread := readHeader_live hlive (Multiset.mem_coe.mp hk.mem)
    rw [heq, if_neg (fun hz => by rw [hz, UInt64.toNat_zero] at hlo; omega), wp_eval hread]
    simp only [wp_check, Bool.and_eq_true, decide_eq_true_eq, ge_iff_le, UInt64.le_iff_toNat_le,
      UInt64.lt_iff_toNat_lt, Sanitizer.getUser, wp_bind, wp_pure]
    refine ⟨⟨⟨hlo, by omega⟩, hk.le⟩, ?_⟩
    have hloc := hk.located hlive
    simp only [UInt64.le_iff_toNat_le] at hloc
    split
    · next hp =>
      rw [if_pos hp] at hloc
      exact ⟨trivial, hloc⟩
    · next hp =>
      rw [if_neg hp] at hloc
      exact ⟨hmapped.aligned, trivial, hloc⟩

/-- The lookup in the array, sorted or not, and possibly sorted on the way. -/
theorem getBlockBeginFastLocked_located (hinv : Inv s c) (p : Uptr) :
    wp (LargeMmap.getBlockBeginFastLocked p) (fun r s' => Keeps s s' ∧
      Located (LargeMmap.live s c) p r ∧
      ∃ c', Inv s' c' ∧ LargeMmap.live s' c' = LargeMmap.live s c) s := by
  simp only [LargeMmap.getBlockBeginFastLocked, wp_bind, wp_get, wp_ite, wp_pure]
  split
  · next h0 =>
    refine ⟨Keeps.refl s, .nowhere fun k hk => ?_, c, hinv, rfl⟩
    rcases mem_live.mp hk with ⟨i, hi, -⟩
    omega
  · next h0 =>
    refine (sortChunks_spec hinv (Nat.pos_of_ne_zero h0)).mono ?_
    rintro _ s' ⟨hkeeps, c', hinv', hsorted, hlive⟩
    have hpos : 0 < s'.nChunks := by
      rw [hkeeps.nChunks]
      exact Nat.pos_of_ne_zero h0
    refine (findSorted_located hinv' hsorted hpos p).mono ?_
    rintro r _ ⟨rfl, hloc⟩
    exact ⟨hkeeps, hlive ▸ hloc, c', hinv', hlive⟩

theorem coupled_getBlockBegin (hrel : Related s h) (p : Uptr) :
    coupled (LargeMmap.getBlockBegin p) (secondaryGetBlockBegin p)
      (fun a a' s' h' => a = a' ∧ Related s' h') s h := by
  rcases hrel with ⟨c, hinv, hlive, hcounted, hnull⟩
  rcases getBlockBegin_located hinv p with ⟨r, _, hleft, rfl, hloc⟩
  rcases secondaryGetBlockBegin_located (hlive ▸ hinv.live) p with
    ⟨r', _, hright, rfl, hloc'⟩
  rw [hlive] at hloc'
  exact coupled_eval hleft hright
    ⟨hloc.unique hinv.live hloc', c, hinv, hlive, hcounted, hnull⟩

theorem coupled_getBlockBeginFastLocked (hrel : Related s h) (p : Uptr) :
    coupled (LargeMmap.getBlockBeginFastLocked p) (secondaryGetBlockBegin p)
      (fun a a' s' h' => a = a' ∧ Related s' h') s h := by
  rcases hrel with ⟨c, hinv, hlive, hcounted, hnull⟩
  rcases getBlockBeginFastLocked_located hinv p with
    ⟨r, s', hleft, hkeeps, hloc, c', hinv', hsame⟩
  rcases secondaryGetBlockBegin_located (hlive ▸ hinv.live) p with
    ⟨r', _, hright, rfl, hloc'⟩
  rw [hlive] at hloc'
  refine coupled_eval hleft hright ⟨hloc.unique hinv.live hloc', c', hinv', ?_, ?_, ?_⟩
  · rw [hsame, hlive]
  · rw [hsame, hkeeps.stats]
    exact hcounted
  · rw [hkeeps.mayReturnNull, hnull]

/-! ## Sizes -/

theorem coupled_getActuallyAllocatedSize (hrel : Related s h) (p : Uptr) :
    coupled (LargeMmap.getActuallyAllocatedSize p) (secondaryGetActuallyAllocatedSize p)
      (fun a a' s' h' => a = a' ∧ Related s' h') s h := by
  have hrel' := hrel
  rcases hrel with ⟨c, hinv, hlive, hcounted, hnull⟩
  unfold LargeMmap.getActuallyAllocatedSize secondaryGetActuallyAllocatedSize
  refine coupled_bind ((coupled_getHeader p).mono ?_)
  rintro _ _ _ _ ⟨rfl, rfl, rfl, rfl, -⟩
  rcases readHeader_list hinv hlive (p - kPageSize) with ⟨hs, hh⟩ | ⟨i, hi, heq, hs, hh⟩
  · exact coupled_fail (bind_fails (readHeader_none hs) _) (bind_fails hh _)
  · refine coupled_left (readHeader_some hs) (coupled_right hh ?_)
    exact coupled_pure ⟨rfl, hrel'⟩

/-- No check of an index fails. -/
theorem totalMemoryUsed_eval (hinv : Inv s c) :
    LargeMmap.totalMemoryUsed s = some (totalUsed (LargeMmap.live s c), s) := by
  refine eval_of_wp ?_
  simp only [LargeMmap.totalMemoryUsed, wp_bind, wp_get]
  refine (wp_foldlM_range (I := fun i (b : Uptr) t =>
    b = totalUsed ((Multiset.range i).map c) ∧ t = s) ?_ ⟨rfl, rfl⟩).mono fun _ _ hI => hI
  rintro i hi _ _ ⟨rfl, rfl⟩
  simp only [wp_bind, wp_get, hinv.chunks i hi]
  rw [wp_eval (readHeader_some (hinv.header i hi))]
  simp only [headerOf, wp_check, wp_pure, beq_self_eq_true]
  refine ⟨trivial, ?_, trivial⟩
  rw [totalUsed, totalUsed, Multiset.range_succ, Multiset.map_cons, Multiset.map_cons,
    Multiset.sum_cons]
  exact UInt64.add_comm _ _

/-- Every live block is visited once. -/
theorem forEachChunk_eval (hinv : Inv s c) :
    LargeMmap.forEachChunk s = some (s.mapped.map fun k => k.header + kPageSize, s) := by
  have hall : ∀ l : List ℕ, (∀ i ∈ l, i < s.nChunks) →
      (l.mapM fun i => do
        let h := (← get).chunks i
        LargeMmap.getUser h : LargeM (List Uptr)) s =
          some (l.map fun i => (c i).header + kPageSize, s) := by
    intro l
    induction l with
    | nil => exact fun _ => rfl
    | cons i l ih =>
      intro hl
      have hi := hl i List.mem_cons_self
      refine eval_of_wp ?_
      simp only [List.mapM_cons, wp_bind, wp_get, hinv.chunks i hi]
      rw [wp_eval (getUser_eval (hinv.mapped i hi) s)]
      rw [wp_eval (ih fun j hj => hl j (List.mem_cons_of_mem i hj)), wp_pure]
      exact ⟨rfl, rfl⟩
  rw [hinv.mapped_eq, List.map_map]
  exact hall (List.range s.nChunks) fun i hi => List.mem_range.mp hi

/-- The chunks in the array are the live ones. -/
theorem Inv.coe_mapped (hinv : Inv s c) :
    (↑s.mapped : Multiset LargeChunk) = LargeMmap.live s c := by
  rw [hinv.mapped_eq, coe_map_range]

/-! ## Runs -/

theorem coupled_exec (op : Op) (hrel : Related s h) :
    coupled op.exec op.spec (fun a a' s' h' => a = a' ∧ Related s' h') s h := by
  cases op with
  | allocate mapBeg size alignment => exact coupled_allocate hrel mapBeg size alignment
  | deallocate p =>
    refine coupled_bind ((coupled_deallocate hrel p).mono ?_)
    exact fun _ _ _ _ hrel' => coupled_pure ⟨rfl, hrel'⟩
  | getBlockBegin p => exact coupled_getBlockBegin hrel p
  | getBlockBeginFastLocked p => exact coupled_getBlockBeginFastLocked hrel p
  | getActuallyAllocatedSize p => exact coupled_getActuallyAllocatedSize hrel p
  | totalMemoryUsed =>
    have hrel' := hrel
    rcases hrel with ⟨c, hinv, hlive, -, -⟩
    refine coupled_eval (totalMemoryUsed_eval hinv) ?_ ⟨rfl, hrel'⟩
    rw [← hlive]
    rfl

/-- The list of a run that succeeds. -/
theorem wlp_run {b : Bool} {ops : List Op} {Q : State → Prop}
    (hQ : ∀ s h, Related s h → Q s) :
    wlp (ops.mapM Op.exec) (fun _ s => Q s) (start b) := by
  intro as s hrun
  rcases coupled_mapM (fun op s h hrel => coupled_exec op hrel) ops (related_start b) with
    ⟨hfail, -⟩ | ⟨as', s', bs, h', hrun', -, -, hrel⟩
  · exact absurd (hrun.symm.trans hfail) (by simp)
  · have hsame := Option.some.inj (hrun.symm.trans hrun')
    cases hsame
    exact hQ s h' hrel

theorem legal_append {ops ops' : List Op} (hlegal : legal (ops ++ ops') h = true) :
    legal ops h = true := by
  induction ops generalizing h with
  | nil => rfl
  | cons op ops ih =>
    rw [List.cons_append, legal, Bool.and_eq_true] at hlegal
    rw [legal, Bool.and_eq_true]
    refine ⟨hlegal.1, ?_⟩
    have hrest := hlegal.2
    cases hspec : op.spec h with
    | none => rfl
    | some r =>
      rw [hspec, Option.all_some] at hrest
      exact ih hrest

/-- What is called after some of the calls is about a block that is live then. -/
theorem Related.run {ops : List Op} {op : Op} {as : List Uptr} (hrel : Related s h)
    (hlegal : legal (ops ++ [op]) h = true) (hrun : ops.mapM Op.exec s = some (as, s')) :
    ∃ h', Related s' h' ∧ op.ok h'.large = true := by
  induction ops generalizing s h as with
  | nil =>
    cases hrun
    rw [List.nil_append, legal, Bool.and_eq_true] at hlegal
    exact ⟨h, hrel, hlegal.1⟩
  | cons first ops ih =>
    rw [List.mapM_cons] at hrun
    rw [List.cons_append, legal, Bool.and_eq_true] at hlegal
    rcases coupled_exec first hrel with ⟨hfail, -⟩ | ⟨a, s₁, b, h₁, hexec, hspec, -, hrel₁⟩
    · rw [bind_fails hfail] at hrun
      cases hrun
    · rw [bind_eval hexec] at hrun
      have hrest := hlegal.2
      rw [hspec, Option.all_some] at hrest
      cases hops : ops.mapM Op.exec s₁ with
      | none =>
        rw [bind_fails hops] at hrun
        cases hrun
      | some r =>
        rcases r with ⟨as₁, s₂⟩
        rw [bind_eval hops] at hrun
        cases hrun
        exact ih hrel₁ hrest hops

theorem isBlock_index (hinv : Inv s c)
    (hlive : (↑h.large : Multiset LargeChunk) = LargeMmap.live s c)
    (hp : isBlock h.large p = true) :
    ∃ i, i < s.nChunks ∧ isAligned p kPageSize = true ∧ p - kPageSize = (c i).header := by
  rw [isBlock, List.any_eq_true] at hp
  rcases hp with ⟨k, hk, heq⟩
  rw [beq_iff_eq] at heq
  subst heq
  rw [← Multiset.mem_coe, hlive] at hk
  rcases mem_live.mp hk with ⟨i, hi, rfl⟩
  have hmapped := hinv.mapped i hi
  have hroom := hmapped.room
  have huser := hmapped.user_space
  have hadd : ((c i).header + kPageSize).toNat = (c i).header.toNat + kPageSize.toNat :=
    toNat_add_of_lt (by rw [kPageSize_toNat]; omega)
  refine ⟨i, hi, ?_, add_sub_cancel_right _ _⟩
  have haligned := hmapped.aligned
  rw [isAligned_iff] at haligned ⊢
  rw [hadd, kPageSize_toNat]
  omega

/-- Only an allocation can fail. -/
theorem exec_succeeds {op : Op} (hrel : Related s h) (hok : op.ok h.large = true)
    (hnot : ∀ mapBeg size alignment, op ≠ .allocate mapBeg size alignment) :
    ∃ r s', op.exec s = some (r, s') := by
  rcases hrel with ⟨c, hinv, hlive, -, -⟩
  cases op with
  | allocate mapBeg size alignment => exact absurd rfl (hnot mapBeg size alignment)
  | deallocate p =>
    rcases isBlock_index hinv hlive hok with ⟨i, hi, hp, heq⟩
    have hrun := bind_eval (deallocate_eval hinv hi hp heq) fun _ => (pure 0 : LargeM Uptr)
    exact ⟨_, _, hrun⟩
  | getBlockBegin p =>
    rcases getBlockBegin_located hinv p with ⟨r, s', hrun, -⟩
    exact ⟨r, s', hrun⟩
  | getBlockBeginFastLocked p =>
    rcases getBlockBeginFastLocked_located hinv p with ⟨r, s', hrun, -⟩
    exact ⟨r, s', hrun⟩
  | getActuallyAllocatedSize p =>
    rcases isBlock_index hinv hlive hok with ⟨i, hi, hp, heq⟩
    have hheader : LargeMmap.getHeader p s = some (p - kPageSize, s) :=
      bind_eval (check_eval hp s) _
    have hread : readHeader (p - kPageSize) s = some (headerOf (c i) i, s) := by
      rw [heq]
      exact readHeader_some (hinv.header i hi)
    refine ⟨roundUp (headerOf (c i) i).size kPageSize, s, ?_⟩
    show LargeMmap.getActuallyAllocatedSize p s = _
    unfold LargeMmap.getActuallyAllocatedSize
    rw [bind_eval hheader, bind_eval hread]
    rfl
  | totalMemoryUsed => exact ⟨_, _, totalMemoryUsed_eval hinv⟩

/-- Whatever is called for blocks, the array answers as the list does, and where one of them
fails so does the other. Only an allocation fails. -/
theorem array_refines_list (mayReturnNull : Bool) (ops : List Op)
    (hlegal : legal ops (listStart mayReturnNull) = true) :
    coupled (ops.mapM Op.exec) (ops.mapM Op.spec) (fun as bs s h => as = bs ∧ Related s h)
      (start mayReturnNull) (listStart mayReturnNull) ∧
    ∀ pre op rest as s, ops = pre ++ op :: rest →
      pre.mapM Op.exec (start mayReturnNull) = some (as, s) →
      (∀ mapBeg size alignment, op ≠ .allocate mapBeg size alignment) →
      ∃ r s', op.exec s = some (r, s') := by
  constructor
  · exact coupled_mapM (fun op _ _ hrel => coupled_exec op hrel) ops (related_start mayReturnNull)
  · rintro pre op rest as s rfl hrun hnot
    have hsplit : pre ++ op :: rest = (pre ++ [op]) ++ rest := by simp
    rw [hsplit] at hlegal
    rcases (related_start mayReturnNull).run (legal_append hlegal) hrun with ⟨h, hrel, hok⟩
    exact exec_succeeds hrel hok hnot

/-- Two blocks, one of them freed. -/
def twoBlocks : List Op :=
  [.allocate 0x100000 0x30000 8, .allocate 0x40000 0x30000 8, .getBlockBegin 0x101234,
    .deallocate 0x101000, .getBlockBegin 0x101234, .getBlockBegin 0x41234]

theorem array_refines_twoBlocks :
    coupled (twoBlocks.mapM Op.exec) (twoBlocks.mapM Op.spec)
      (fun as bs s h => as = bs ∧ Related s h) (start false) (listStart false) :=
  (array_refines_list false twoBlocks (by decide +kernel)).1

example : (twoBlocks.mapM Op.exec (start false)).map Prod.fst =
    some [0x101000, 0x41000, 0x101000, 0, 0, 0x41000] := by
  decide +kernel

/-- After any calls, the fast lookup and the plain one give the same answer for every
pointer: the live block that contains it, or null. The sort changes no later answer. -/
theorem fast_lookup_agrees (mayReturnNull : Bool) (ops : List Op) (p : Uptr) :
    wlp (ops.mapM Op.exec) (fun _ s => Live ↑s.mapped ∧
      LargeMmap.forEachChunk s = some (s.mapped.map fun k => k.header + kPageSize, s) ∧
      ∃ r s', Located ↑s.mapped p r ∧
      LargeMmap.getBlockBegin p s = some (r, s) ∧
      LargeMmap.getBlockBeginFastLocked p s = some (r, s') ∧
      ∀ q, ∃ a s'', LargeMmap.getBlockBegin q s = some (a, s) ∧
        LargeMmap.getBlockBegin q s' = some (a, s') ∧
        LargeMmap.getBlockBeginFastLocked q s' = some (a, s'')) (start mayReturnNull) := by
  refine wlp_run ?_
  rintro s h ⟨c, hinv, -, -, -⟩
  rcases getBlockBegin_located hinv p with ⟨r, _, hplain, rfl, hloc⟩
  rcases getBlockBeginFastLocked_located hinv p with
    ⟨r', s', hfast, -, hloc', c', hinv', hsame⟩
  have hrr := hloc'.unique hinv.live hloc
  rw [hinv.coe_mapped]
  refine ⟨hinv.live, forEachChunk_eval hinv, r, s', hloc, hplain, hrr ▸ hfast, ?_⟩
  intro q
  rcases getBlockBegin_located hinv q with ⟨a, _, hq, rfl, hqloc⟩
  rcases getBlockBegin_located hinv' q with ⟨a', _, hq', rfl, hqloc'⟩
  rcases getBlockBeginFastLocked_located hinv' q with ⟨a'', s'', hq'', -, hqloc'', -⟩
  rw [hsame] at hqloc' hqloc''
  have h₁ := hqloc'.unique hinv.live hqloc
  have h₂ := hqloc''.unique hinv.live hqloc
  exact ⟨a, s'', hq, h₁ ▸ hq', h₂ ▸ hq''⟩

/-- After any calls, the statistics are those of the blocks that `ForEachChunk` visits,
and `TotalMemoryUsed` finds every chunk at its index. -/
theorem statistics_count (mayReturnNull : Bool) (ops : List Op) :
    wlp (ops.mapM Op.exec) (fun _ s => Live ↑s.mapped ∧
      LargeMmap.forEachChunk s = some (s.mapped.map fun k => k.header + kPageSize, s) ∧
      Counted s.stats ↑s.mapped ∧
      LargeMmap.totalMemoryUsed s = some (totalUsed ↑s.mapped, s)) (start mayReturnNull) := by
  refine wlp_run ?_
  rintro s h ⟨c, hinv, -, hcounted, -⟩
  rw [hinv.coe_mapped]
  exact ⟨hinv.live, forEachChunk_eval hinv, hcounted, totalMemoryUsed_eval hinv⟩

end Caver.Sanitizer.LargeMmap
