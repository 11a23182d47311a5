import Caver.Runtime.LiveBlocks

/-!
# Caver.Runtime.BlockMoves — what allocation and deallocation do to blocks

* `HandedOut s size p m room s'`: an allocation has handed out the block at `p`,
  and the other blocks have been left alone.
* `GivenBack s p m s'`: a deallocation has taken the block at `p` back.
* `cverAllocate_eval`, `cverDeallocate_eval`: these are the only ways in which
  the two functions end, apart from a failing allocation.
-/

namespace Caver.Runtime

open Caver.Core Caver.Sanitizer

variable {s s' s₁ : HeapState} {p q m m' size alignment : Uptr} {room room' : ℕ}
  {choice : Choice} {zeroise : Bool}

/-! ## Allocation -/

/-- What the combined allocator does when it returns `p`. -/
inductive Obtained (s : HeapState) (size p : Uptr) : HeapState → Prop
  | null : p = 0 → Obtained s size p s
  | chunk (c i : ℕ) : Carved s.regions c i → p.toNat = chunkBeg c i → s.out p = false →
      size.toNat ≤ chunkSize c → Obtained s size p { s with out := Function.update s.out p true }
  | mapping (n : Uptr) (h : LargeChunk) : n ≠ 0 → size.toNat ≤ n.toNat → MappedFor s n p h →
      Obtained s size p { s with large := s.large ++ [h] }

theorem allocate_obtained (hr : RegionsOk s.regions) :
    wlp (allocate choice size alignment) (Obtained s size) s := by
  have hrule : wlp (allocate choice size alignment)
      (fun p s' => Obtained s size p s' ∧ (alignment > 8 → p &&& (alignment - 1) = 0)) s := by
    refine allocate_rule (fun _ => .null rfl) ?_ ?_
    · intro n hn hle hmax
      refine ((cacheAllocate_spec hr _ _ hn hmax).and (cacheAllocate_same _ _)).mono ?_
      rintro p s' ⟨h, hsame⟩
      cases h with
      | null hp => exact .null hp
      | chunk c i hc hp ho hsize => exact .chunk c i hc hp ho (hle.trans hsize)
      | mapping h =>
        -- the primary allocator adds no mapping
        have hlen := congrArg List.length hsame.2
        simp at hlen
    · intro n hn hle _
      refine (secondaryAllocate_mapped _ _ _).mono ?_
      rintro p s' (⟨hp, rfl, -⟩ | ⟨h, hm, rfl⟩)
      · exact .null hp
      · exact .mapping n h hn hle hm
  exact hrule.mono fun _ _ h => h.1

/-- A new mapping is where mappings should be. -/
theorem placed_of_mapped {h : LargeChunk} (hm : MappedFor s size p h) (h0 : size ≠ 0) :
    Placed h ∧ ∀ h' ∈ s.large, MappingsApart h' h := by
  have hmap := hm.mappable
  have hpages := hm.pages
  have huser := hm.user
  simp only [mappable, Bool.and_eq_true, Bool.or_eq_true, decide_eq_true_eq, List.all_eq_true,
    bne_iff_ne, ne_eq] at hmap
  rcases hmap with ⟨⟨⟨⟨-, hnull⟩, hend⟩, hout⟩, happart⟩
  refine ⟨⟨hm.ok h0, ?_, ?_, ?_, hend, hout⟩, ?_⟩
  · exact Nat.pos_of_ne_zero fun hz => hnull (UInt64.toNat_inj.mp hz)
  · rw [hm.size_eq]
    omega
  · rw [hm.size_eq]
    exact hm.rounded
  · intro h' hh'
    exact (happart h' hh').symm

theorem Obtained.laid (hs : Laid s) (h : Obtained s size p s') : Laid s' := by
  cases h with
  | null _ => exact hs
  | chunk _ _ _ _ _ _ => exact hs.of_mem rfl rfl
  | mapping n h hn _ hm =>
    rcases placed_of_mapped hm hn with ⟨hplaced, hapart⟩
    refine ⟨hs.regions, ?_, ?_⟩
    · intro x hx
      rcases List.mem_append.mp hx with hx | hx
      · exact hs.large x hx
      · rwa [List.mem_singleton.mp hx]
    · rw [List.pairwise_append]
      refine ⟨hs.apart, List.pairwise_singleton _ _, ?_⟩
      intro x hx y hy
      rw [List.mem_singleton.mp hy]
      exact hapart x hx

/-- The block that has been obtained. -/
theorem Obtained.block (h : Obtained s size p s') (h0 : p ≠ 0) :
    ∃ m room, Block s' p m room ∧ size.toNat ≤ room := by
  cases h with
  | null hp => exact absurd hp h0
  | chunk c i hc hp _ hsize =>
    exact ⟨_, _, .chunk hc hp (Function.update_self _ _ _), hsize⟩
  | mapping n h hn hle hm =>
    refine ⟨_, _, .mapping (h := h) ?_ ?_, ?_⟩
    · exact List.mem_append_right _ List.mem_cons_self
    · have hu := (placed_of_mapped hm hn).1.user_toNat
      exact UInt64.toNat_inj.mp (hm.user.trans hu.symm)
    · rw [hm.size_eq]
      exact hle.trans hm.rounded

/-- It was no block before, and the blocks that there were stay. -/
theorem Obtained.keeps (hs : Laid s) (h : Obtained s size p s') (hb : Block s q m room) :
    q ≠ p ∧ Block s' q m room := by
  cases h with
  | null hp =>
    rw [hp]
    exact ⟨hb.ne_zero hs, hb⟩
  | chunk c i hc hp ho _ =>
    have hne : q ≠ p := by
      rintro rfl
      cases hb with
      | chunk _ _ ho' =>
        rw [ho] at ho'
        exact absurd ho' (by decide)
      | mapping hh hq =>
        -- the start of a mapping is not in the primary space
        rcases chunk_locate (hc.fits hs.regions) hp with ⟨hm, -⟩
        rw [hq, hs.user_not_mine hh] at hm
        exact absurd hm (by decide)
    exact ⟨hne, hb.of_mem rfl (Function.update_of_ne hne _ _) rfl⟩
  | mapping n h hn _ hm =>
    rcases placed_of_mapped hm hn with ⟨hplaced, hapart⟩
    have huser := hm.user
    have hpages := hm.pages
    have hheader := hm.header
    have hout := hplaced.outside
    have hpos := hplaced.ok.size_pos
    have hrounded := hplaced.rounded
    have hpages' := hplaced.pages
    cases hb with
    | chunk hc hq ho =>
      have hin := chunk_owns hs.regions hc hq (a := q) (.inl ⟨Nat.le_refl _, by
        have hsize := chunkSize_pos hc.1 hc.2.1
        omega⟩)
      refine ⟨?_, .chunk hc hq ho⟩
      rintro rfl
      omega
    | mapping hh hq =>
      refine ⟨?_, .mapping (List.mem_append_left _ hh) hq⟩
      rintro rfl
      have hbounds := (hs.large _ hh).bounds
      have hu := (hs.large _ hh).user_toNat
      rw [← hq] at hu
      rcases hapart _ hh with hlt | hlt
      · omega
      · omega

theorem Obtained.mem (h : Obtained s size p s') : s'.mem = s.mem ∧ s'.regions = s.regions := by
  cases h <;> exact ⟨rfl, rfl⟩

/-- The block at `p` has been handed out for `size` bytes. -/
structure HandedOut (s : HeapState) (size p m : Uptr) (room : ℕ) (s' : HeapState) : Prop where
  laid : Laid s'
  block : Block s' p m room
  fits : size.toNat ≤ room
  record : loadMetadata s'.mem m = ⟨size, 0, 0⟩
  keeps : ∀ q m' room', Block s q m' room' → q ≠ p ∧ Block s' q m' room'
  mem : ∀ a, ¬ OwnedBy p m room a → s'.mem a = s.mem a

/-- The bytes of a block end in user space, and so does its record. -/
theorem Block.user_space (hs : Laid s) (hb : Block s p m room) :
    p.toNat + room ≤ 2 ^ 47 ∧ m.toNat + 24 ≤ 2 ^ 64 := by
  cases hb with
  | @chunk c i hc hp _ =>
    have hfit := hc.fits hs.regions
    have hb := hfit.recordBeg_bounds
    have hn := hfit.recordBeg_toNat
    rcases hfit with ⟨-, hlt, hend⟩
    rw [Nat.succ_mul] at hend
    unfold chunkBeg at hp
    omega
  | mapping hh hp =>
    subst hp
    have hu := (hs.large _ hh).user_toNat
    have hr := (hs.large _ hh).record_toNat
    have hpages := (hs.large _ hh).pages
    have huser := (hs.large _ hh).user
    omega

/-- The memory after an allocation: the record, and the cleared bytes. -/
def handedOutMem (mem : Uptr → Uptr) (p m size : Uptr) (zeroise : Bool) : Uptr → Uptr :=
  fun a => if zeroise = true ∧ InBytes p size.toNat a then 0
    else writeMetadata mem m ⟨size, 0, 0⟩ a

/-- It differs in what the block owns only, and has the new record. -/
theorem handedOutMem_spec (hs : Laid s) (hb : Block s p m room) (hfits : size.toNat ≤ room)
    (zeroise : Bool) :
    loadMetadata (handedOutMem s.mem p m size zeroise) m = ⟨size, 0, 0⟩ ∧
      ∀ a, ¬ OwnedBy p m room a → handedOutMem s.mem p m size zeroise a = s.mem a := by
  have huser := hb.user_space hs
  have hbytes : ∀ a, InBytes p size.toNat a → InBytes p room a :=
    fun a ha => ⟨ha.1, ha.2.trans_le (Nat.add_le_add_left hfits _)⟩
  unfold handedOutMem
  constructor
  · have hself : loadMetadata (writeMetadata s.mem m ⟨size, 0, 0⟩) m = ⟨size, 0, 0⟩ :=
      loadMetadata_write_self huser.2
    refine (loadMetadata_congr huser.2 ?_).trans hself
    intro a hlo hhi
    refine if_neg ?_
    rintro ⟨-, ha⟩
    exact hb.bytes_not_record hs (hbytes a ha) ⟨hlo, hhi⟩
  · intro a ha
    rw [if_neg]
    · refine writeMetadata_of_outside huser.2 ?_
      by_contra hin
      exact ha (.inr ⟨by omega, by omega⟩)
    · exact fun hin => ha (.inl (hbytes a hin.2))

/-- An allocation of a size that is served, where the allocator has a block. -/
theorem cverAllocate_eval (hs : Laid s) (hsize : ¬ size > kMaxAllowedMallocSize)
    (hrun : allocate choice size alignment s = some (p, s₁)) (h0 : p ≠ 0) (zeroise : Bool) :
    ∃ s' m room, cverAllocate choice size alignment zeroise s = some (p, s') ∧
      HandedOut s size p m room s' := by
  have hgot := (allocate_obtained hs.regions).elim hrun
  rcases hgot.block h0 with ⟨m, room, hb, hfits⟩
  have hlaid := hgot.laid hs
  rcases handedOutMem_spec hlaid hb hfits zeroise with ⟨hrecord, hother⟩
  rw [hgot.mem.1] at hrecord hother
  refine ⟨{ s₁ with mem := handedOutMem s.mem p m size zeroise }, m, room, eval_of_wp ?_, ?_⟩
  · rw [cverAllocate, if_neg hsize, wp_bind, wp_eval hrun, wp_bind,
      wp_eval (hb.getMetaData_eval hlaid), ← hgot.mem.1]
    unfold handedOutMem InBytes
    cases zeroise with
    | false => simp [storeMetadata, storeWord, writeMetadata]
    | true => simp [storeMetadata, storeWord, memset, writeMetadata]
  · refine ⟨hlaid.of_mem rfl rfl, hb.of_mem rfl rfl rfl, hfits, hrecord, ?_, hother⟩
    intro q m' room' hq
    rcases hgot.keeps hs hq with ⟨hne, hq'⟩
    exact ⟨hne, hq'.of_mem rfl rfl rfl⟩

/-- Without a block nothing has happened. -/
theorem Obtained.null_same (h : Obtained s size 0 s') : s' = s := by
  have hz := UInt64.toNat_zero
  cases h with
  | null _ => rfl
  | chunk c i hc hp _ _ =>
    rw [hz] at hp
    unfold chunkBeg at hp
    omega
  | mapping n h _ _ hm =>
    have huser := hm.user
    omega

/-- Without a block there is no record to write: null is not in any mapping. -/
theorem cverAllocate_null (hb : Blocks s) (hsize : ¬ size > kMaxAllowedMallocSize)
    (hrun : allocate choice size alignment s = some (0, s₁)) :
    cverAllocate choice size alignment zeroise s = none := by
  have hsame := ((allocate_obtained hb.regions).elim hrun).null_same
  have hnull : combinedGetMetaData 0 s₁ = none := by
    have hm : ¬ pointerIsMine 0 = true := by decide
    rw [combinedGetMetaData, if_neg hm, hsame]
    rcases hrec : secondaryGetMetaData 0 s with _ | ⟨m, s₂⟩
    · rfl
    · exact ((secondaryGetMetaData_null (Q := fun _ _ => False) hb.large).elim hrec).elim
  rw [cverAllocate, if_neg hsize]
  show (allocate choice size alignment s).bind _ = none
  rw [hrun]
  show (combinedGetMetaData 0 s₁).bind _ = none
  rw [hnull]
  rfl

/-- The ways in which an allocation ends. -/
theorem cverAllocate_cases (hs : Laid s) :
    wlp (cverAllocate choice size alignment zeroise) (fun p s' =>
      (p = 0 ∧ s' = s ∧ size > kMaxAllowedMallocSize) ∨
        ∃ m room, HandedOut s size p m room s') s := by
  intro p s' hrun
  by_cases hsize : size > kMaxAllowedMallocSize
  · left
    rw [cverAllocate, if_pos hsize] at hrun
    have hwlp : wlp allocatorReturnNull (fun p s' => p = 0 ∧ s' = s) s :=
      wlp_allocatorReturnNull ⟨rfl, rfl⟩
    rcases hwlp.elim hrun with ⟨hp, hs'⟩
    exact ⟨hp, hs', hsize⟩
  · right
    rcases hall : allocate choice size alignment s with _ | ⟨p₁, s₁⟩
    · -- the allocator stops the process
      rw [cverAllocate, if_neg hsize] at hrun
      have hnone : (allocate choice size alignment s).bind _ = some (p, s') := hrun
      rw [hall] at hnone
      exact absurd hnone (by simp)
    · by_cases h0 : p₁ = 0
      · subst h0
        rw [cverAllocate_null hs.blocks hsize hall] at hrun
        exact absurd hrun (by simp)
      · rcases cverAllocate_eval hs hsize hall h0 zeroise with
          ⟨s₂, m, room, heval, hout⟩
        rw [heval] at hrun
        cases hrun
        exact ⟨m, room, hout⟩

/-! ## Deallocation -/

/-- The block at `p` has been taken back. -/
structure GivenBack (s : HeapState) (p m : Uptr) (s' : HeapState) : Prop where
  laid : Laid s'
  gone : ∀ m' room', ¬ Block s' p m' room'
  keeps : ∀ q m' room', q ≠ p → Block s q m' room' → Block s' q m' room'
  mem : ∀ a, ¬ InBytes m 24 a → s'.mem a = s.mem a

theorem Laid.nodup (hs : Laid s) : s.large.Nodup := by
  refine hs.apart.imp_of_mem ?_
  intro h h' hh hh' hapart heq
  subst heq
  have hbounds := (hs.large h hh).bounds
  rcases hapart with hlt | hlt
  · omega
  · omega

/-- A chunk that is out no longer. -/
theorem Laid.giveBack_chunk {mem : Uptr → Uptr} (hs : Laid s) (hmine : pointerIsMine p = true)
    (hmem : ∀ a, ¬ InBytes m 24 a → mem a = s.mem a) :
    GivenBack s p m { s with mem := mem, out := Function.update s.out p false } := by
  refine ⟨hs.of_mem rfl rfl, ?_, ?_, hmem⟩
  · intro m' room' hb'
    cases hb' with
    | chunk _ _ ho' =>
      dsimp only at ho'
      rw [Function.update_self] at ho'
      exact absurd ho' (by decide)
    | mapping hh hq =>
      rw [hq, hs.user_not_mine hh] at hmine
      exact absurd hmine (by decide)
  · intro q m' room' hne hq
    exact hq.of_mem rfl (Function.update_of_ne hne _ _) rfl

/-- A mapping that is no longer in the list. -/
theorem Laid.giveBack_mapping {mem : Uptr → Uptr} {h : LargeChunk} (hs : Laid s)
    (hh : h ∈ s.large) (hmem : ∀ a, ¬ InBytes m 24 a → mem a = s.mem a) :
    GivenBack s (h.header + kPageSize) m
      { s with mem := mem, large := s.large.erase h } := by
  have hmine := hs.user_not_mine hh
  have hsub : ∀ x ∈ s.large.erase h, x ∈ s.large := fun x hx => List.mem_of_mem_erase hx
  refine ⟨⟨hs.regions, fun x hx => hs.large x (hsub x hx), ?_⟩, ?_, ?_, hmem⟩
  · exact hs.apart.sublist List.erase_sublist
  · intro m' room' hb'
    cases hb' with
    | chunk hc' hp' ho' =>
      rcases chunk_locate (hc'.fits hs.regions) hp' with ⟨hm, -⟩
      rw [hmine] at hm
      exact absurd hm (by decide)
    | @mapping h' hh' hp' =>
      -- the header of the block is erased, and no other is at its address
      rcases hs.nodup.mem_erase_iff.mp hh' with ⟨hne, hmem'⟩
      have hu := (hs.large h hh).user_toNat
      have hu' := (hs.large h' hmem').user_toNat
      have hbounds := (hs.large h hh).bounds
      have hbounds' := (hs.large h' hmem').bounds
      rw [← hp'] at hu'
      exact hne (hs.mapping_inj hmem' hh (x := h.header.toNat) (by omega) (by omega))
  · intro q m' room' hne hq
    cases hq with
    | chunk hc' hp' ho' => exact .chunk hc' hp' ho'
    | @mapping h' hh' hp' =>
      refine .mapping ((List.mem_erase_of_ne ?_).mpr hh') hp'
      rintro rfl
      exact hne hp'

/-- The record is cleared first. -/
theorem Block.cverDeallocate_cleared {s' : HeapState} (hs : Laid s) (hb : Block s p m room)
    (hrun : deallocate p { s with mem := writeMetadata s.mem m ⟨0, 0, 0⟩ } = some (⟨⟩, s')) :
    cverDeallocate p s = some (⟨⟩, s') := by
  refine eval_of_wp ?_
  rw [cverDeallocate, wp_bind, wp_check]
  refine ⟨by simpa using hb.ne_zero hs, ?_⟩
  rw [wp_bind, wp_eval (hb.getBlockBegin_eval hs), if_neg (fun h => h rfl), wp_bind,
    wp_eval (hb.getMetaData_eval hs)]
  simp only [storeMetadata, storeWord, wp_bind, wp_modify]
  exact (wp_eval hrun).mpr ⟨trivial, rfl⟩

/-- Deallocating a block. -/
theorem cverDeallocate_eval (hs : Laid s) (hb : Block s p m room) :
    ∃ s', cverDeallocate p s = some (⟨⟩, s') ∧ GivenBack s p m s' := by
  have h0 := hb.ne_zero hs
  have huser := (hb.user_space hs).2
  -- only the metadata of the block is cleared, which both kinds of blocks keep in front of `p`
  have hmem : ∀ a, ¬ InBytes m 24 a → writeMetadata s.mem m ⟨0, 0, 0⟩ a = s.mem a := by
    intro a ha
    refine writeMetadata_of_outside huser ?_
    by_contra hin
    exact ha ⟨by omega, by omega⟩
  have hcleared : ∀ s', deallocate p { s with mem := writeMetadata s.mem m ⟨0, 0, 0⟩ } =
      some (⟨⟩, s') → cverDeallocate p s = some (⟨⟩, s') :=
    fun _ => hb.cverDeallocate_cleared hs
  cases hb with
  | @chunk c i hc hp ho =>
    rcases chunk_locate (hc.fits hs.regions) hp with ⟨hm, hcls, -, -⟩
    have hcls0 : getSizeClass p ≠ 0 := by
      intro hz
      have hn := getSizeClass_toNat p
      rw [hz, hcls] at hn
      have hz' : (0 : Uptr).toNat = 0 := rfl
      have hpos := hc.1
      omega
    have hcls53 : getSizeClass p < kNumClasses := by
      have hk : kNumClasses.toNat = 53 := rfl
      rw [UInt64.lt_iff_toNat_lt, getSizeClass_toNat, hcls, hk]
      exact hc.2.1
    refine ⟨_, hcleared _ (eval_of_wp ?_), hs.giveBack_chunk hm hmem⟩
    simp [deallocate, h0, hm, cacheDeallocate, hcls0, hcls53]
  | @mapping h hh hp =>
    subst hp
    have hs' : Laid { s with mem := writeMetadata s.mem (h.header + 32) ⟨0, 0, 0⟩ } :=
      hs.of_mem rfl rfl
    refine ⟨_, hcleared _ (eval_of_wp ?_), hs.giveBack_mapping hh hmem⟩
    simp only [deallocate, if_neg h0, hs.user_not_mine hh, Bool.false_eq_true, if_false,
      secondaryDeallocate, wp_bind, wp_eval (hs'.getHeader_eval hh),
      wp_eval (readHeader_eval (hs'.find_header hh)), wp_modify, and_self]

end Caver.Runtime
