import Caver.Runtime.BlockSizes

/-!
# Caver.Runtime.LiveBlocks — the blocks that are handed out

A block of either allocator owns the bytes that it has room for and its record.

* `Block s p m room`: the block at `p` is handed out, with its record at `m`.
* `Laid s`: regions and mappings are where the allocators put them.
  `Block.apart`: then no two blocks own a byte in common.
* `Block.getBlockBegin_eval`, `Block.getMetaData_eval`, `Block.actualSize_eval`:
  what the lookups of the combined allocator answer for a block.
-/

namespace Caver.Runtime

open Caver.Core Caver.Sanitizer

/-! ## Where blocks are -/

/-- The address is one of the `n` bytes at `p`. -/
def InBytes (p : Uptr) (n : ℕ) (a : Uptr) : Prop := p.toNat ≤ a.toNat ∧ a.toNat < p.toNat + n

instance (p : Uptr) (n : ℕ) (a : Uptr) : Decidable (InBytes p n a) :=
  inferInstanceAs (Decidable (_ ∧ _))

/-- The block at `p` is handed out: its record is at `m`, and it has room for
`room` bytes. -/
inductive Block (s : HeapState) (p : Uptr) : Uptr → ℕ → Prop
  | chunk {c i : ℕ} : Carved s.regions c i → p.toNat = chunkBeg c i → s.out p = true →
      Block s p (UInt64.ofNat (recordBeg c i)) (chunkSize c)
  | mapping {h : LargeChunk} : h ∈ s.large → p = h.header + kPageSize →
      Block s p (h.header + 32) (roundUp h.size kPageSize).toNat

/-- The address is one of the block's own, in its bytes or in its record. -/
def OwnedBy (p m : Uptr) (room : ℕ) (a : Uptr) : Prop := InBytes p room a ∨ InBytes m 24 a

/-- A large chunk in its mapping, which is outside the primary space. -/
structure Placed (h : LargeChunk) : Prop where
  ok : h.Ok
  not_null : 0 < h.mapBeg.toNat
  pages : h.header.toNat + 4096 + (roundUp h.size kPageSize).toNat ≤
    h.mapBeg.toNat + h.mapSize.toNat
  rounded : h.size.toNat ≤ (roundUp h.size kPageSize).toNat
  user : h.mapBeg.toNat + h.mapSize.toNat ≤ 2 ^ 47
  outside : h.mapBeg.toNat + h.mapSize.toNat ≤ 0x600000000000 ∨
    0x680000000000 ≤ h.mapBeg.toNat

/-- The mappings have no address in common. -/
def MappingsApart (h h' : LargeChunk) : Prop :=
  h.mapBeg.toNat + h.mapSize.toNat ≤ h'.mapBeg.toNat ∨
    h'.mapBeg.toNat + h'.mapSize.toNat ≤ h.mapBeg.toNat

instance : Std.Symm MappingsApart := ⟨fun _ _ h => Or.symm h⟩

/-- Regions and mappings are where the allocators put them. -/
structure Laid (s : HeapState) : Prop where
  regions : RegionsOk s.regions
  large : ∀ h ∈ s.large, Placed h
  apart : s.large.Pairwise MappingsApart

variable {s s' : HeapState} {p q m m' a : Uptr} {room room' : ℕ}

theorem Laid.blocks (hs : Laid s) : Blocks s where
  regions := hs.regions
  large := fun h hh => (hs.large h hh).ok
  pages := fun h hh => (hs.large h hh).pages

theorem Laid.of_mem (hs : Laid s) (hregions : s'.regions = s.regions)
    (hlarge : s'.large = s.large) : Laid s' where
  regions := hregions ▸ hs.regions
  large := hlarge ▸ hs.large
  apart := hlarge ▸ hs.apart

/-- A block is there as long as regions, lists and mappings are. -/
theorem Block.of_mem (hb : Block s p m room) (hregions : s'.regions = s.regions)
    (hout : s'.out p = s.out p) (hlarge : s'.large = s.large) : Block s' p m room := by
  cases hb with
  | chunk hc hp ho => exact .chunk (hregions ▸ hc) hp (hout.trans ho)
  | mapping hh hp => exact .mapping (hlarge ▸ hh) hp

theorem Placed.user_toNat {h : LargeChunk} (hh : Placed h) :
    (h.header + kPageSize).toNat = h.header.toNat + 4096 := by
  have huser := hh.ok.user_space
  have hk := kPageSize_toNat
  rw [toNat_add_of_lt, hk]
  omega

theorem Placed.record_toNat {h : LargeChunk} (hh : Placed h) :
    (h.header + 32).toNat = h.header.toNat + 32 := by
  have huser := hh.ok.user_space
  have hk : (32 : Uptr).toNat = 32 := rfl
  rw [toNat_add_of_lt, hk]
  omega

/-- The header is in its mapping. -/
theorem Placed.bounds {h : LargeChunk} (hh : Placed h) :
    h.mapBeg.toNat ≤ h.header.toNat ∧
      h.header.toNat + 4096 < h.mapBeg.toNat + h.mapSize.toNat := by
  have hlo := UInt64.le_iff_toNat_le.mp hh.ok.mapped.1
  have hpages := hh.pages
  have hrounded := hh.rounded
  have hpos := hh.ok.size_pos
  omega

/-- What a large block owns is in its mapping. -/
theorem Placed.owns {h : LargeChunk} (hh : Placed h)
    (ha : OwnedBy (h.header + kPageSize) (h.header + 32) (roundUp h.size kPageSize).toNat a) :
    h.mapBeg.toNat ≤ a.toNat ∧ a.toNat < h.mapBeg.toNat + h.mapSize.toNat := by
  have hb := hh.bounds
  have hpages := hh.pages
  have hu := hh.user_toNat
  have hr := hh.record_toNat
  rcases ha with ⟨hlo, hhi⟩ | ⟨hlo, hhi⟩
  · omega
  · omega

/-- What a chunk owns is in the primary space. -/
theorem chunk_owns (hr : RegionsOk s.regions) {c i : ℕ} (hc : Carved s.regions c i)
    (hp : p.toNat = chunkBeg c i)
    (ha : OwnedBy p (UInt64.ofNat (recordBeg c i)) (chunkSize c) a) :
    0x600000000000 ≤ a.toNat ∧ a.toNat < 0x680000000000 := by
  have hfit := hc.fits hr
  rcases ha with ⟨hlo, hhi⟩ | ⟨hlo, hhi⟩
  · have hin : InChunk c i a := ⟨by omega, by omega⟩
    exact (pointerIsMine_iff a).mp (hin.locate hfit).1
  · have hb := hfit.recordBeg_bounds
    have hn := hfit.recordBeg_toNat
    omega

/-- Two chunks own the same byte only if they are the same chunk. -/
theorem chunk_owns_inj (hr : RegionsOk s.regions) {c i c' i' : ℕ} (hc : Carved s.regions c i)
    (hc' : Carved s.regions c' i') (hp : p.toNat = chunkBeg c i) (hq : q.toNat = chunkBeg c' i')
    (ha : OwnedBy p (UInt64.ofNat (recordBeg c i)) (chunkSize c) a)
    (ha' : OwnedBy q (UInt64.ofNat (recordBeg c' i')) (chunkSize c') a) : p = q := by
  have hfit := hc.fits hr
  have hfit' := hc'.fits hr
  have hn := hfit.recordBeg_toNat
  have hn' := hfit'.recordBeg_toNat
  suffices h : c = c' ∧ i = i' by
    rcases h with ⟨rfl, rfl⟩
    exact UInt64.toNat_inj.mp (hp.trans hq.symm)
  rcases ha with ⟨hlo, hhi⟩ | ⟨hlo, hhi⟩
  · have hin : InChunk c i a := ⟨by omega, by omega⟩
    rcases ha' with ⟨hlo', hhi'⟩ | ⟨hlo', hhi'⟩
    · have hin' : InChunk c' i' a := ⟨by omega, by omega⟩
      rcases hin.locate hfit with ⟨-, h1, h2⟩
      rcases hin'.locate hfit' with ⟨-, h1', h2'⟩
      exact ⟨h1.symm.trans h1', h2.symm.trans h2'⟩
    · exact absurd (record_inMeta hr hc' (by omega) (by omega)) (chunk_not_inMeta hr hc hin)
  · rcases ha' with ⟨hlo', hhi'⟩ | ⟨hlo', hhi'⟩
    · have hin' : InChunk c' i' a := ⟨by omega, by omega⟩
      exact absurd (record_inMeta hr hc (by omega) (by omega)) (chunk_not_inMeta hr hc' hin')
    · by_contra hne
      have hapart := record_apart hfit hfit' hne
      omega

/-- Headers name their chunks. -/
theorem Laid.mapping_inj (hs : Laid s) {h h' : LargeChunk} (hh : h ∈ s.large)
    (hh' : h' ∈ s.large) {x : ℕ} (hx : h.mapBeg.toNat ≤ x ∧ x < h.mapBeg.toNat + h.mapSize.toNat)
    (hx' : h'.mapBeg.toNat ≤ x ∧ x < h'.mapBeg.toNat + h'.mapSize.toNat) : h = h' := by
  by_contra hne
  rcases hs.apart.forall hh hh' hne with hlt | hlt
  · omega
  · omega

/-- No byte belongs to two blocks. -/
theorem Block.apart (hs : Laid s) (hb : Block s p m room) (hb' : Block s q m' room')
    (hne : p ≠ q) (ha : OwnedBy p m room a) : ¬ OwnedBy q m' room' a := by
  intro ha'
  cases hb with
  | chunk hc hp ho =>
    cases hb' with
    | chunk hc' hq ho' => exact hne (chunk_owns_inj hs.regions hc hc' hp hq ha ha')
    | mapping hh hq =>
      -- one is in the primary space, the other is not
      subst hq
      have hin := chunk_owns hs.regions hc hp ha
      have hmap := (hs.large _ hh).owns ha'
      have hout := (hs.large _ hh).outside
      omega
  | mapping hh hp =>
    subst hp
    have hmap := (hs.large _ hh).owns ha
    have hout := (hs.large _ hh).outside
    cases hb' with
    | chunk hc' hq ho' =>
      have hin := chunk_owns hs.regions hc' hq ha'
      omega
    | mapping hh' hq =>
      subst hq
      have hsame := hs.mapping_inj hh hh' hmap ((hs.large _ hh').owns ha')
      rw [hsame] at hne
      exact hne rfl

/-- The bytes of a block are not in its record. -/
theorem Block.bytes_not_record (hs : Laid s) (hb : Block s p m room) (ha : InBytes p room a) :
    ¬ InBytes m 24 a := by
  rintro ⟨hlo', hhi'⟩
  rcases ha with ⟨hlo, hhi⟩
  cases hb with
  | @chunk c i hc hp ho =>
    have hn := (hc.fits hs.regions).recordBeg_toNat
    have hin : InChunk c i a := ⟨by omega, by omega⟩
    exact chunk_not_inMeta hs.regions hc hin
      (record_inMeta hs.regions hc (by omega) (by omega))
  | mapping hh hp =>
    subst hp
    have hu := (hs.large _ hh).user_toNat
    have hr := (hs.large _ hh).record_toNat
    omega

/-- There is only one way to see a block. -/
theorem Block.unique (hs : Laid s) (hb : Block s p m room) (hb' : Block s p m' room') :
    m = m' ∧ room = room' := by
  cases hb with
  | @chunk c i hc hp ho =>
    -- a chunk is within its region, and mappings are outside of all regions
    have hin := chunk_owns hs.regions hc hp (a := p) (.inl ⟨Nat.le_refl _, by
      have hpos := chunkSize_pos hc.1 hc.2.1
      omega⟩)
    cases hb' with
    | chunk hc' hp' ho' =>
      rcases chunkBeg_inj (hc.fits hs.regions) (hc'.fits hs.regions) (hp.symm.trans hp') with
        ⟨rfl, rfl⟩
      exact ⟨rfl, rfl⟩
    | mapping hh hp' =>
      have hu := (hs.large _ hh).user_toNat
      have hbounds := (hs.large _ hh).bounds
      have hout := (hs.large _ hh).outside
      rw [hp', hu] at hin
      omega
  | @mapping h hh hp =>
    have hu := (hs.large _ hh).user_toNat
    have hbounds := (hs.large _ hh).bounds
    have hout := (hs.large _ hh).outside
    cases hb' with
    | chunk hc' hp' ho' =>
      have hin := chunk_owns hs.regions hc' hp' (a := p) (.inl ⟨Nat.le_refl _, by
        have hpos := chunkSize_pos hc'.1 hc'.2.1
        omega⟩)
      rw [hp, hu] at hin
      omega
    | @mapping h' hh' hp' =>
      have hu' := (hs.large _ hh').user_toNat
      have hbounds' := (hs.large _ hh').bounds
      -- two mappings with one user address have one header
      have hsame : h.header.toNat = h'.header.toNat := by
        rw [hp] at hp'
        rw [hp'] at hu
        omega
      have heq := hs.mapping_inj hh hh' (x := h.header.toNat) (by omega) (by omega)
      rw [heq]
      exact ⟨rfl, rfl⟩

/-! ## Lookups -/

/-- The nearest header is the one at or before the pointer that no other
header follows. -/
theorem nearestChunk_eq {large : List LargeChunk} {h : LargeChunk} (hmem : h ∈ large)
    (hle : h.header.toNat ≤ p.toNat)
    (hlast : ∀ h' ∈ large, h'.header = h.header ∨ h'.header.toNat < h.header.toNat ∨
      p.toNat < h'.header.toNat) : nearestChunk large p = h.header := by
  -- the candidate so far is not after the header, and it stays once it is reached
  have hfold : ∀ (l : List LargeChunk) (n : Uptr), (∀ h' ∈ l, h' ∈ large) →
      n.toNat ≤ h.header.toNat → (n = h.header ∨ h ∈ l) → l.foldl (nearer p) n = h.header := by
    intro l
    induction l with
    | nil =>
      intro n _ _ hn
      exact hn.resolve_right List.not_mem_nil
    | cons x l ih =>
      intro n hl hn hreach
      have hstep := nearer_toNat (p := p) (n := n) (by omega) x
      have hx : x.header.toNat ≤ h.header.toNat ∨ p.toNat < x.header.toNat := by
        rcases hlast x (hl x List.mem_cons_self) with heq | hlt | hlt
        · exact .inl (by rw [heq])
        · exact .inl (Nat.le_of_lt hlt)
        · exact .inr hlt
      apply ih
      · exact fun h' hh' => hl h' (List.mem_cons_of_mem _ hh')
      · split at hstep
        · omega
        · omega
      · rcases hreach with rfl | hin
        · left
          rw [← UInt64.toNat_inj, hstep]
          split
          · rfl
          · omega
        · rcases List.mem_cons.mp hin with rfl | hin
          · left
            rw [← UInt64.toNat_inj, hstep, if_neg (by omega)]
            omega
          · exact .inr hin
  exact hfold large 0 (fun _ hh => hh) (Nat.zero_le _) (.inr hmem)

/-- A header is found under its own address. -/
theorem Laid.find_header (hs : Laid s) {h : LargeChunk} (hh : h ∈ s.large) :
    s.large.find? (fun x => x.header == h.header) = some h := by
  rcases hfind : s.large.find? (fun x => x.header == h.header) with _ | x
  · have hnone := List.find?_eq_none.mp hfind h hh
    simp at hnone
  · have hx : x.header = h.header := by
      simpa using List.find?_some hfind
    have hxmem := List.mem_of_find?_eq_some hfind
    have hbounds := (hs.large h hh).bounds
    have hbounds' := (hs.large x hxmem).bounds
    rw [hx] at hbounds'
    have hsame := hs.mapping_inj hxmem hh (x := h.header.toNat) (by omega) (by omega)
    exact hfind.trans (congrArg some hsame)

/-- The page before a large block holds its header. -/
theorem Laid.getHeader_eval (hs : Laid s) {h : LargeChunk} (hh : h ∈ s.large) :
    getHeader (h.header + kPageSize) s = some (h.header, s) := by
  have hu := (hs.large h hh).user_toNat
  have hal := (hs.large h hh).ok.aligned
  refine eval_of_wp ?_
  simp only [getHeader, wp_bind, wp_check, wp_pure, UInt64.add_sub_cancel, and_self, and_true]
  rw [isAligned_iff] at hal ⊢
  omega

theorem Laid.user_not_mine (hs : Laid s) {h : LargeChunk} (hh : h ∈ s.large) :
    pointerIsMine (h.header + kPageSize) = false := by
  have hu := (hs.large h hh).user_toNat
  have hbounds := (hs.large h hh).bounds
  have hout := (hs.large h hh).outside
  rw [← Bool.not_eq_true, pointerIsMine_iff]
  omega

theorem Block.ne_zero (hs : Laid s) (hb : Block s p m room) : p ≠ 0 := by
  rintro rfl
  cases hb with
  | chunk hc hp ho =>
    rw [UInt64.toNat_zero] at hp
    unfold chunkBeg at hp
    omega
  | mapping hh hp =>
    have hu := (hs.large _ hh).user_toNat
    rw [← hp, UInt64.toNat_zero] at hu
    omega

/-- `GetBlockBegin` of a block. -/
theorem Block.getBlockBegin_eval (hs : Laid s) (hb : Block s p m room) :
    combinedGetBlockBegin p s = some (p, s) := by
  refine eval_of_wp ?_
  cases hb with
  | @chunk c i hc hp ho =>
    rcases chunk_locate (hc.fits hs.regions) hp with ⟨hm, -⟩
    have hin := (hc.fits hs.regions).start hp
    simp [combinedGetBlockBegin, hm, hc.getBlockBegin_eq hs.regions hin hp]
  | @mapping h hh hp =>
    subst hp
    have hplaced := hs.large h hh
    have hu := hplaced.user_toNat
    have hbounds := hplaced.bounds
    have hnull := hplaced.not_null
    have huser := hplaced.user
    have hsum : (h.mapBeg + h.mapSize).toNat = h.mapBeg.toNat + h.mapSize.toNat :=
      toNat_add_of_lt (by omega)
    -- the other headers are in other mappings
    have hnear : nearestChunk s.large (h.header + kPageSize) = h.header := by
      refine nearestChunk_eq hh (by omega) ?_
      intro h' hh'
      have hbounds' := (hs.large h' hh').bounds
      by_cases hsame : h = h'
      · exact .inl (by rw [hsame])
      · rcases hs.apart.forall hh hh' hsame with hlt | hlt
        · exact .inr (.inr (by omega))
        · exact .inr (.inl (by omega))
    have hne : ¬ h.header = 0 := by
      intro hz
      have hz' : (0 : Uptr).toNat = 0 := rfl
      rw [hz, hz'] at hbounds
      omega
    have hbefore : ¬ h.mapBeg + h.mapSize ≤ h.header + kPageSize := by
      rw [UInt64.le_iff_toNat_le, hsum, hu]
      omega
    have hle : h.header ≤ h.header + kPageSize := by
      rw [UInt64.le_iff_toNat_le, hu]
      omega
    simp only [combinedGetBlockBegin, hs.user_not_mine hh, Bool.false_eq_true, if_false,
      secondaryGetBlockBegin, wp_bind, wp_get, hnear, if_neg hne,
      wp_eval (readHeader_eval (hs.find_header hh)), wp_check, if_neg hbefore, getUser, wp_pure,
      hplaced.ok.aligned, true_and, and_self, and_true, Bool.and_eq_true, decide_eq_true_eq,
      ge_iff_le]
    exact ⟨hplaced.ok.mapped, hle⟩

/-- `GetMetaData` of a block. -/
theorem Block.getMetaData_eval (hs : Laid s) (hb : Block s p m room) :
    combinedGetMetaData p s = some (m, s) := by
  refine eval_of_wp ?_
  cases hb with
  | chunk hc hp ho =>
    rcases chunk_locate (hc.fits hs.regions) hp with ⟨hm, -, -, hmeta⟩
    simp [combinedGetMetaData, hm, hmeta]
  | mapping hh hp =>
    subst hp
    simp only [combinedGetMetaData, hs.user_not_mine hh, Bool.false_eq_true, if_false,
      secondaryGetMetaData, wp_bind, wp_eval (hs.getHeader_eval hh),
      wp_eval (readHeader_eval (hs.find_header hh)), wp_pure, and_self]

/-- `GetActuallyAllocatedSize` of a block. -/
theorem Block.actualSize_eval (hs : Laid s) (hb : Block s p m room) :
    ∃ n : Uptr, n.toNat = room ∧ getActuallyAllocatedSize p s = some (n, s) := by
  cases hb with
  | chunk hc hp ho =>
    rcases chunk_locate (hc.fits hs.regions) hp with ⟨hm, hcls, -, -⟩
    refine ⟨classSize (getSizeClass p), ?_, eval_of_wp ?_⟩
    · rw [classSize_getSizeClass, hcls]
    · simp [getActuallyAllocatedSize, hm]
  | @mapping h hh hp =>
    subst hp
    refine ⟨roundUp h.size kPageSize, rfl, eval_of_wp ?_⟩
    simp only [getActuallyAllocatedSize, hs.user_not_mine hh, Bool.false_eq_true, if_false,
      secondaryGetActuallyAllocatedSize, wp_bind, wp_eval (hs.getHeader_eval hh),
      wp_eval (readHeader_eval (hs.find_header hh)), wp_pure, and_self]

end Caver.Runtime
