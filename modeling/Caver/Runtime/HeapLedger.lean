import Caver.Runtime.HeapAllocator

/-!
# Caver.Runtime.HeapLedger — what the heap's metadata stands for

* `Ledger`: for every address whether a block starts there, and what was last
  requested and registered for it. Each operation has its effect on ledgers,
  which says nothing about chunks, regions or memory.
* `Inv s l`: the records in the memory of `s` say what `l` says. One lemma for
  each operation of the allocator; `Inv.update` is the common part of them.
-/

namespace Caver.Runtime

open Caver.Core Caver.Sanitizer

/-! ## Ledgers -/

/-- What is known of an address. -/
inductive Status where
  | never
  | live (md : Metadata)
  | freed
deriving DecidableEq, Repr

/-- A change that only live blocks undergo. -/
def Status.onLive (f : Metadata → Status) : Status → Status
  | .live md => f md
  | .never => .never
  | .freed => .freed

abbrev Ledger := Uptr → Status

namespace Ledger

/-- A block of `size` bytes is handed out at `p`, if there is one. -/
def alloc (l : Ledger) (p size : Uptr) : Ledger :=
  if p = 0 then l else Function.update l p (.live ⟨size, 0, 0⟩)

/-- Change the block at `p`, if it is live. -/
def onLive (l : Ledger) (p : Uptr) (f : Metadata → Status) : Ledger :=
  Function.update l p ((l p).onLive f)

/-- The block at `p` is given back. -/
def free (l : Ledger) (p : Uptr) : Ledger := l.onLive p fun _ => .freed

/-- The block at `p` has another size. -/
def resize (l : Ledger) (p size : Uptr) : Ledger :=
  l.onLive p fun md => .live { md with requestedSize := size }

/-- The block at `p` is registered. -/
def register (l : Ledger) (p typeTable numElements : Uptr) : Ledger :=
  l.onLive p fun md => .live { md with typeTable := typeTable, numElements := numElements }

/-- A reallocation of `p` to `size` bytes has returned `r`. -/
def realloc (l : Ledger) (p size r : Uptr) : Ledger :=
  if p = 0 then l.alloc r size
  else if size = 0 then l.free p
  else if r = 0 then l
  else if r = p then l.resize p size
  else (l.alloc r size).free p

variable {l : Ledger} {p q : Uptr} {f : Metadata → Status}

theorem onLive_of_ne (hne : q ≠ p) : l.onLive p f q = l q := Function.update_of_ne hne _ _

theorem onLive_self : l.onLive p f p = (l p).onLive f := Function.update_self _ _ _

theorem onLive_of_not_live (h : ∀ md, l p ≠ .live md) : l.onLive p f = l := by
  unfold onLive
  cases hp : l p with
  | live md => exact absurd hp (h md)
  | never => rw [Status.onLive, ← hp, Function.update_eq_self]
  | freed => rw [Status.onLive, ← hp, Function.update_eq_self]

theorem alloc_of_ne {size : Uptr} (hne : q ≠ p) : l.alloc p size q = l q := by
  unfold alloc
  split
  · rfl
  · exact Function.update_of_ne hne _ _

theorem alloc_self {size : Uptr} (h0 : p ≠ 0) : l.alloc p size p = .live ⟨size, 0, 0⟩ := by
  unfold alloc
  rw [if_neg h0, Function.update_self]

end Ledger

/-! ## The invariant -/

/-- The block at `b` is a carved chunk whose record satisfies `P`. -/
def Recorded (s : HeapState) (b : Uptr) (P : Metadata → Prop) : Prop :=
  ∃ c i, Carved s.regions c i ∧ b.toNat = chunkBeg c i ∧ P (recordOf s c i)

/-- The state agrees with the status of a block of the primary allocator. -/
def BlockOk (s : HeapState) (b : Uptr) : Status → Prop
  | .never => True
  | .live md => s.out b = true ∧ Recorded s b (· = md)
  | .freed => Recorded s b (·.typeTable = 0)

/-- The records in memory say what the ledger says. -/
structure Inv (s : HeapState) (l : Ledger) : Prop where
  regions : RegionsOk s.regions
  large : ∀ h ∈ s.large, h.Ok
  blocks : ∀ b, pointerIsMine b = true → BlockOk s b (l b)

variable {s s' : HeapState} {l l' : Ledger} {b p : Uptr}

/-- The state before any operation. -/
def initialHeap (mem : Uptr → Uptr) (mayReturnNull : Bool) : HeapState where
  mem := mem
  regions := fun _ => ⟨0, 0, 0, 0⟩
  out := fun _ => false
  large := []
  mayReturnNull := mayReturnNull

theorem Inv.initial (mem : Uptr → Uptr) (mayReturnNull : Bool) :
    Inv (initialHeap mem mayReturnNull) fun _ => .never where
  regions := fun c _ _ => ⟨⟨0, by simp [initialHeap], by simp [initialHeap]⟩, le_rfl, le_rfl,
    by simp [initialHeap]⟩
  large := fun h hh => absurd hh List.not_mem_nil
  blocks := fun _ _ => trivial

/-- A block keeps its status while its record and its chunk are left alone. -/
theorem BlockOk.frame {st : Status} (h : BlockOk s b st) (hregions : s'.regions = s.regions)
    (hout : s'.out b = s.out b)
    (hrec : ∀ c i, Carved s.regions c i → b.toNat = chunkBeg c i →
      recordOf s' c i = recordOf s c i) : BlockOk s' b st := by
  have hkeep : ∀ P, Recorded s b P → Recorded s' b P := by
    rintro P ⟨c, i, hcarved, hb, hP⟩
    refine ⟨c, i, hregions ▸ hcarved, hb, ?_⟩
    rw [hrec c i hcarved hb]
    exact hP
  cases st with
  | never => trivial
  | live md => exact ⟨hout ▸ h.1, hkeep _ h.2⟩
  | freed => exact hkeep (·.typeTable = 0) h

/-- An operation on the block at `p`: the others keep their records. -/
theorem Inv.update (h : Inv s l) (p : Uptr) (hregions : s'.regions = s.regions)
    (hlarge : ∀ h ∈ s'.large, h.Ok) (hout : ∀ b, b ≠ p → s'.out b = s.out b)
    (hrec : ∀ c i, Carved s.regions c i → chunkBeg c i ≠ p.toNat →
      recordOf s' c i = recordOf s c i)
    (hl : ∀ b, b ≠ p → l' b = l b)
    (hp : pointerIsMine p = true → BlockOk s' p (l' p)) : Inv s' l' where
  regions := hregions ▸ h.regions
  large := hlarge
  blocks := by
    intro b hb
    by_cases hbp : b = p
    · subst hbp
      exact hp hb
    · rw [hl b hbp]
      refine (h.blocks b hb).frame hregions (hout b hbp) ?_
      intro c i hcarved hbeg
      refine hrec c i hcarved fun hne => hbp ?_
      exact UInt64.toNat_inj.mp (hbeg.trans hne)

/-- A live block of the primary allocator is a chunk. -/
theorem Inv.live (h : Inv s l) (hb : pointerIsMine b = true) {md : Metadata}
    (hl : l b = .live md) : s.out b = true ∧ Recorded s b (· = md) := by
  have hok := h.blocks b hb
  rw [hl] at hok
  exact hok

/-- Set the record of the block at `p`, and whether the block is out. -/
def setBlock (s : HeapState) (p m : Uptr) (md : Metadata) (o : Bool) : HeapState :=
  { s with mem := writeMetadata s.mem m md, out := Function.update s.out p o }

/-- The record of the block reads as set. -/
theorem recorded_setBlock {c i : ℕ} {md : Metadata} {o : Bool} (hr : RegionsOk s.regions)
    (hc : Carved s.regions c i) (hp : p.toNat = chunkBeg c i) {P : Metadata → Prop} (hP : P md) :
    Recorded (setBlock s p (UInt64.ofNat (recordBeg c i)) md o) p P := by
  refine ⟨c, i, hc, hp, ?_⟩
  have hrec : recordOf (setBlock s p (UInt64.ofNat (recordBeg c i)) md o) c i = md :=
    (loadMetadata_write (hc.fits hr) (hc.fits hr)).trans (if_pos ⟨rfl, rfl⟩)
  rw [hrec]
  exact hP

/-- The same for a block that is known to have a record. -/
theorem Recorded.setBlock {c i : ℕ} {md : Metadata} {o : Bool} (hr : RegionsOk s.regions)
    {P Q : Metadata → Prop} (h : Recorded s p Q) (hf : Fits c i) (hp : p.toNat = chunkBeg c i)
    (hP : P md) : Recorded (setBlock s p (UInt64.ofNat (recordBeg c i)) md o) p P := by
  rcases h with ⟨d, j, hd, hdj, -⟩
  rcases chunkBeg_inj (hd.fits hr) hf (hdj.symm.trans hp) with ⟨rfl, rfl⟩
  exact recorded_setBlock hr hd hp hP

/-- Setting one block's record leaves the other blocks as they are. -/
theorem Inv.setBlock {c i : ℕ} {md : Metadata} {o : Bool} (h : Inv s l) (hf : Fits c i)
    (hp : p.toNat = chunkBeg c i) (hl : ∀ b, b ≠ p → l' b = l b)
    (hst : BlockOk (setBlock s p (UInt64.ofNat (recordBeg c i)) md o) p (l' p)) :
    Inv (setBlock s p (UInt64.ofNat (recordBeg c i)) md o) l' := by
  refine h.update p rfl h.large (fun b hb => Function.update_of_ne hb _ _) ?_ hl fun _ => hst
  intro d j hd hne
  refine (loadMetadata_write (hd.fits h.regions) hf).trans (if_neg ?_)
  rintro ⟨rfl, rfl⟩
  exact hne hp.symm

/-- What is set outside the primary space concerns none of its blocks. -/
theorem Inv.setOutside {m : Uptr} {md : Metadata} {large : List LargeChunk} (h : Inv s l)
    (hmine : pointerIsMine p = false) (hlarge : ∀ h ∈ large, h.Ok) (hm : m.toNat + 24 ≤ 2 ^ 64)
    (hout : m.toNat + 24 ≤ 0x600000000000 ∨ 0x680000000000 ≤ m.toNat)
    (hl : ∀ b, b ≠ p → l' b = l b) :
    Inv { s with mem := writeMetadata s.mem m md, large := large } l' := by
  refine h.update p rfl hlarge (fun _ _ => rfl) ?_ hl ?_
  · intro d j hd _
    exact loadMetadata_write_outside (hd.fits h.regions) hm hout
  · intro hm'
    simp [hmine] at hm'

/-- Memory that is no mapped metadata can change at will. -/
theorem Inv.of_mem (h : Inv s l) {mem : Uptr → Uptr}
    (hmem : ∀ a, InMeta s.regions a → mem a = s.mem a) : Inv { s with mem := mem } l where
  regions := h.regions
  large := h.large
  blocks := by
    intro b hb
    refine (h.blocks b hb).frame rfl rfl ?_
    intro c i hcarved _
    have hfit := hcarved.fits h.regions
    have hbounds := hfit.recordBeg_bounds
    have hn := hfit.recordBeg_toNat
    refine loadMetadata_congr (by omega) ?_
    intro a hlo hhi
    exact hmem a (record_inMeta h.regions hcarved (by omega) (by omega))

/-- Growth of a region. -/
theorem Inv.populate (h : Inv s l) (c : ℕ) : wlp (populate c) (fun _ s' => Inv s' l) s := by
  refine (populate_spec h.regions c).mono ?_
  rintro _ _ ⟨⟨regions, rfl⟩, hok, hcarved⟩
  -- blocks keep their records
  have hkeep : ∀ b P, Recorded s b P → Recorded { s with regions := regions } b P := by
    rintro b P ⟨d, i, hd, hb, hP⟩
    exact ⟨d, i, hcarved d i hd, hb, hP⟩
  refine ⟨hok, h.large, ?_⟩
  intro b hb
  have hblock := h.blocks b hb
  cases hst : l b with
  | never => trivial
  | live md =>
    rw [hst] at hblock
    exact ⟨hblock.1, hkeep _ _ hblock.2⟩
  | freed =>
    rw [hst] at hblock
    exact hkeep b (·.typeTable = 0) hblock

/-! ## What the allocator's functions do to the ledger -/

/-- The bytes from `p` on are not mapped metadata. -/
def UserMemory (regions : Regions) (p n : Uptr) : Prop :=
  ∀ a : Uptr, p.toNat ≤ a.toNat → a.toNat < p.toNat + n.toNat → ¬ InMeta regions a

theorem userMemory_of_chunk (hr : RegionsOk s.regions) {c i : ℕ} (hc : Carved s.regions c i)
    (hp : p.toNat = chunkBeg c i) {n : Uptr} (hn : n.toNat ≤ chunkSize c) :
    UserMemory s.regions p n :=
  fun _ hlo hhi => chunk_not_inMeta hr hc ⟨by omega, by omega⟩

theorem userMemory_of_large (hr : RegionsOk s.regions) {h : LargeChunk} (hok : h.Ok)
    (hp : p.toNat = h.header.toNat + 4096) {n : Uptr} (hn : n.toNat ≤ h.size.toNat) :
    UserMemory s.regions p n := by
  rintro a hlo hhi ⟨c, h0, hc, hm1, hm2⟩
  have hout := hok.outside
  have hap := (hr c h0 hc).apart
  omega

theorem Inv.memset (h : Inv s l) {n : Uptr} (v : Uptr) (huser : UserMemory s.regions p n) :
    wlp (memset p v n) (fun _ s' => Inv s' l ∧ s'.regions = s.regions) s := by
  rw [Sanitizer.memset, wlp_modify]
  refine ⟨h.of_mem fun a ha => ?_, rfl⟩
  rw [if_neg]
  exact fun hin => huser a hin.1 hin.2 ha

theorem Inv.memcpy (h : Inv s l) {n : Uptr} (src : Uptr) (huser : UserMemory s.regions p n) :
    wlp (memcpy p src n) (fun _ s' => Inv s' l ∧ s'.regions = s.regions) s := by
  rw [Sanitizer.memcpy, wlp_modify]
  refine ⟨h.of_mem fun a ha => ?_, rfl⟩
  rw [if_neg]
  exact fun hin => huser a hin.1 hin.2 ha

/-- The pointer and the record of a chunk that fits. -/
theorem chunk_locate {c i : ℕ} (hf : Fits c i) (hp : p.toNat = chunkBeg c i) :
    pointerIsMine p = true ∧ classOf p = c ∧ chunkOf p = i ∧
      getMetaData p = UInt64.ofNat (recordBeg c i) := by
  rcases (hf.start hp).locate hf with ⟨hm, hc, hi⟩
  refine ⟨hm, hc, hi, ?_⟩
  rw [← UInt64.toNat_inj, hf.recordBeg_toNat, getMetaData_toNat (by rw [hc]; exact hf.1), hc, hi]

/-- Writing the record of a large chunk. -/
theorem header_outside {h : LargeChunk} (hok : h.Ok) :
    (h.header + 32).toNat + 24 ≤ 2 ^ 64 ∧
      ((h.header + 32).toNat + 24 ≤ 0x600000000000 ∨ 0x680000000000 ≤ (h.header + 32).toNat) := by
  have huser := hok.user_space
  have hout := hok.outside
  have h32 : (32 : Uptr).toNat = 32 := rfl
  rw [toNat_add_of_lt (by omega), h32]
  omega

/-- `GetMetaData` outside the primary allocator: the record is in the header
page of a large chunk. -/
theorem secondaryGetMetaData_spec (hl : ∀ h ∈ s.large, h.Ok) :
    wlp (secondaryGetMetaData p) (fun m s' => s' = s ∧ m.toNat + 24 ≤ 2 ^ 64 ∧
      (m.toNat + 24 ≤ 0x600000000000 ∨ 0x680000000000 ≤ m.toNat)) s := by
  simp only [secondaryGetMetaData, getHeader, wlp_bind, wlp_check, wlp_pure, wlp_readHeader,
    true_and]
  intro _ h hfind
  have hh : h.header = p - kPageSize := by
    simpa using List.find?_some hfind
  rw [← hh]
  exact header_outside (hl h (List.mem_of_find?_eq_some hfind))

/-- Nothing is at the null pointer. -/
theorem secondaryGetMetaData_null {Q : Uptr → HeapState → Prop} (hl : ∀ h ∈ s.large, h.Ok) :
    wlp (secondaryGetMetaData 0) Q s := by
  simp only [secondaryGetMetaData, getHeader, wlp_bind, wlp_check, wlp_pure, wlp_readHeader]
  intro _ h hfind
  have hh : h.header = 0 - kPageSize := by
    simpa using List.find?_some hfind
  have huser := (hl h (List.mem_of_find?_eq_some hfind)).user_space
  have hwild : (0 - kPageSize : Uptr).toNat = 2 ^ 64 - 4096 := by decide
  rw [hh, hwild] at huser
  omega

/-- What `cverAllocate` does with a block of the allocator. -/
theorem Inv.setRecord (h : Inv s l) {size : Uptr} (hA : Allocated s size p s') :
    wlp (do
      let m ← combinedGetMetaData p
      storeMetadata m ⟨size, 0, 0⟩) (fun _ s'' => Inv s'' (l.alloc p size) ∧ p ≠ 0 ∧
        UserMemory s''.regions p size ∧ (pointerIsMine p = true → ∀ md, l p ≠ .live md)) s' := by
  have hmine0 : pointerIsMine 0 = false := by decide
  cases hA with
  | null hp =>
    subst hp
    rw [wlp_bind, combinedGetMetaData, if_neg (by simp [hmine0])]
    exact secondaryGetMetaData_null h.large
  | chunk c i hcarved hp hout hsize =>
    rcases chunk_locate (hcarved.fits h.regions) hp with ⟨hmine, -, -, hmeta⟩
    have hp0 : p ≠ 0 := by
      rintro rfl
      simp [hmine0] at hmine
    -- a chunk that is handed out is not live
    have hfresh : ∀ md, l p ≠ .live md := by
      intro md hl
      have hlive := (h.live hmine hl).1
      rw [hout] at hlive
      exact absurd hlive (by decide)
    simp only [combinedGetMetaData, hmine, if_true, wlp_bind, wlp_pure, wlp_storeMetadata, hmeta]
    refine ⟨?_, hp0, userMemory_of_chunk h.regions hcarved hp hsize, fun _ => hfresh⟩
    refine h.setBlock (o := true) (hcarved.fits h.regions) hp (fun b => Ledger.alloc_of_ne) ?_
    rw [Ledger.alloc_self hp0]
    exact ⟨Function.update_self _ _ _, recorded_setBlock h.regions hcarved hp rfl⟩
  | mapping hd hok hp hsize hpage =>
    have huser := hok.user_space
    have hout := hok.outside
    have hpos := hok.size_pos
    -- a mapping is outside the primary space
    have hmine : pointerIsMine p = false := by
      rw [← Bool.not_eq_true, pointerIsMine_iff]
      omega
    have hp0 : p ≠ 0 := by
      rintro rfl
      have hz := UInt64.toNat_zero
      omega
    have hlarge : ∀ h ∈ s.large ++ [hd], h.Ok := by
      intro x hx
      rcases List.mem_append.mp hx with hx | hx
      · exact h.large x hx
      · rwa [List.mem_singleton.mp hx]
    rw [wlp_bind, combinedGetMetaData, if_neg (by simp [hmine])]
    refine (secondaryGetMetaData_spec hlarge).mono ?_
    rintro m _ ⟨rfl, hm, hmout⟩
    rw [wlp_storeMetadata]
    refine ⟨?_, hp0, userMemory_of_large h.regions hok hp hsize, ?_⟩
    · exact h.setOutside hmine hlarge hm hmout fun b => Ledger.alloc_of_ne
    · intro hmine'
      simp [hmine] at hmine'

/-- An allocation: the new block is handed out in the ledger, nothing live was
there before, and its bytes can be written. -/
theorem Inv.cverAllocate (h : Inv s l) (choice : Choice) (size alignment : Uptr)
    (zeroise : Bool) :
    wlp (cverAllocate choice size alignment zeroise) (fun p s' => Inv s' (l.alloc p size) ∧
      (p ≠ 0 → UserMemory s'.regions p size) ∧
      (pointerIsMine p = true → ∀ md, l p ≠ .live md)) s := by
  unfold Runtime.cverAllocate
  rw [wlp_ite]
  split
  · -- more than the allocator serves
    refine wlp_allocatorReturnNull ⟨?_, fun h0 => absurd rfl h0, fun hm => ?_⟩
    · rwa [Ledger.alloc, if_pos rfl]
    · exact absurd hm (by decide)
  · rw [wlp_bind]
    refine (allocate_spec h.regions choice size alignment).mono ?_
    intro p s₁ hA
    have hset := h.setRecord hA
    rw [wlp_bind] at hset ⊢
    refine hset.mono ?_
    intro m s₂ hset
    rw [wlp_bind]
    refine hset.mono ?_
    rintro _ s₃ ⟨hinv, hp0, huser, hfresh⟩
    dsimp only
    rw [wlp_ite]
    split
    · rw [wlp_bind]
      -- the block is cleared, no record is in it
      refine (hinv.memset 0 huser).mono ?_
      rintro _ s₄ ⟨hinv, hregions⟩
      rw [wlp_pure, hregions]
      exact ⟨hinv, fun _ => huser, hfresh⟩
    · rw [wlp_pure]
      exact ⟨hinv, fun _ => huser, hfresh⟩

/-- The pointer is where a mapped chunk or a large block starts. -/
def IsBlockStart (s : HeapState) (p : Uptr) : Prop :=
  (∃ c i, 0 < c ∧ c < 53 ∧ (i + 1) * chunkSize c ≤ (s.regions c).mappedUser ∧
    p.toNat = chunkBeg c i) ∨ ∃ h ∈ s.large, p = h.header + kPageSize

/-- A pointer of the allocator that is its own block starts a chunk. -/
theorem chunk_of_getBlockBegin (hm : pointerIsMine p = true)
    (hp : getBlockBegin s.regions p = p) :
    Served s.regions p ∧ p.toNat = chunkBeg (classOf p) (chunkOf p) := by
  have hs : Served s.regions p := by
    by_contra hns
    have hz := getBlockBegin_toNat s.regions p
    rw [if_neg hns, hp] at hz
    rw [pointerIsMine_iff] at hm
    omega
  refine ⟨hs, ?_⟩
  rw [← getBlockBegin_of_mine hm hs, hp]

theorem combinedGetBlockBegin_spec (hl : ∀ h ∈ s.large, h.Ok) (p : Uptr) :
    wp (combinedGetBlockBegin p) (fun beg s' => s' = s ∧
      (pointerIsMine p = true → beg = getBlockBegin s.regions p) ∧
      (pointerIsMine p = false → beg = 0 ∨ ∃ h ∈ s.large, beg = h.header + kPageSize)) s := by
  unfold combinedGetBlockBegin
  rw [wp_ite]
  split
  · next hm =>
    simp [hm]
  · next hm =>
    refine (secondaryGetBlockBegin_spec hl p).mono ?_
    rintro beg _ ⟨rfl, hbeg⟩
    exact ⟨rfl, fun hm' => absurd hm' hm, fun _ => hbeg⟩

/-- What is no start of a block is not its own block. -/
theorem combinedGetBlockBegin_ne (hl : ∀ h ∈ s.large, h.Ok) (h0 : p ≠ 0)
    (hp : ¬ IsBlockStart s p) :
    wp (combinedGetBlockBegin p) (fun beg s' => s' = s ∧ beg ≠ p) s := by
  refine (combinedGetBlockBegin_spec hl p).mono ?_
  rintro beg _ ⟨rfl, hmine, hlarge⟩
  refine ⟨rfl, ?_⟩
  rintro rfl
  apply hp
  cases hm : pointerIsMine beg with
  | true =>
    rcases chunk_of_getBlockBegin hm (hmine hm).symm with ⟨hs, hbeg⟩
    exact Or.inl ⟨_, _, hs.1, hs.2.1, hs.2.2, hbeg⟩
  | false =>
    rcases hlarge hm with hz | hh
    · exact absurd hz h0
    · exact Or.inr hh

/-- Freeing what is no start of a block changes nothing. -/
theorem cverDeallocate_unchanged (hl : ∀ h ∈ s.large, h.Ok) (h0 : p ≠ 0)
    (hp : ¬ IsBlockStart s p) : Runtime.cverDeallocate p s = some (⟨⟩, s) := by
  refine eval_of_wp ?_
  simp only [cverDeallocate, wp_bind, wp_check]
  refine ⟨by simpa using h0, (combinedGetBlockBegin_ne hl h0 hp).mono ?_⟩
  rintro beg _ ⟨rfl, hne⟩
  rw [wp_ite, if_pos hne, wp_pure]
  simp

/-- What a wlp argument may assume from a total specification. -/
theorem wlp_of_wp {α : Type} {m : HeapM α} {P Q : α → HeapState → Prop} (h : wp m P s)
    (hPQ : ∀ a s', P a s' → Q a s') : wlp m Q s := by
  intro a s' hm
  rw [wp_eval hm] at h
  exact hPQ a s' h

/-- Giving back a block. -/
theorem Inv.cverDeallocate (h : Inv s l) (p : Uptr) :
    wlp (cverDeallocate p) (fun _ s' => Inv s' (l.free p)) s := by
  simp only [Runtime.cverDeallocate, wlp_bind, wlp_check]
  intro _
  refine wlp_of_wp (combinedGetBlockBegin_spec h.large p) ?_
  rintro beg s₁ ⟨rfl, hmine, hlarge⟩
  rw [wlp_ite]
  split
  · next hne =>
    -- the start of a live block would be its own block
    rw [wlp_pure]
    refine h.update p rfl h.large (fun _ _ => rfl) (fun _ _ _ _ => rfl)
      (fun b hb => Ledger.onLive_of_ne hb) fun hm => ?_
    have hdead : ∀ md, l p ≠ .live md := by
      intro md hl
      rcases h.live hm hl with ⟨-, c, i, hcarved, hp, -⟩
      have hin := (hcarved.fits h.regions).start hp
      exact hne ((hmine hm).trans (hcarved.getBlockBegin_eq h.regions hin hp))
    rw [Ledger.free, Ledger.onLive_of_not_live hdead]
    exact h.blocks p hm
  · next heq =>
    rw [ne_eq, not_not] at heq
    subst heq
    cases hm : pointerIsMine beg with
    -- a chunk: its record is cleared
    | true =>
      rcases chunk_of_getBlockBegin hm (hmine hm).symm with ⟨hs, hbeg⟩
      have hfit := hs.fits h.regions
      rcases chunk_locate hfit hbeg with ⟨-, -, -, hmeta⟩
      have h0 : beg ≠ 0 := by
        rintro rfl
        exact absurd hm (by decide)
      simp only [combinedGetMetaData, hm, if_true, wlp_bind, wlp_pure, wlp_storeMetadata, hmeta,
        deallocate, if_neg h0, cacheDeallocate, wlp_check, wlp_modify]
      intro _
      refine h.setBlock (o := false) hfit hbeg (fun b => Ledger.onLive_of_ne) ?_
      have hblock := h.blocks beg hm
      rw [Ledger.free, Ledger.onLive_self]
      cases hl : l beg with
      | never => trivial
      | live md =>
        rw [hl] at hblock
        exact hblock.2.setBlock (P := (·.typeTable = 0)) h.regions hfit hbeg rfl
      | freed =>
        rw [hl] at hblock
        exact Recorded.setBlock (P := (·.typeTable = 0)) (Q := (·.typeTable = 0)) h.regions hblock
          hfit hbeg rfl
    -- a large block has its record outside the primary space
    | false =>
      rw [wlp_bind, combinedGetMetaData, if_neg (by simp [hm])]
      refine (secondaryGetMetaData_spec h.large).mono ?_
      rintro m s₂ ⟨rfl, hmeta, hout⟩
      simp only [wlp_bind, wlp_storeMetadata, deallocate, wlp_ite, hm, Bool.false_eq_true, if_false,
        wlp_pure, secondaryDeallocate, getHeader, wlp_check, wlp_readHeader, wlp_modify]
      split
      · exact h.setOutside hm h.large hmeta hout fun b => Ledger.onLive_of_ne
      · intro _ hd _
        exact h.setOutside hm (fun x hx => h.large x (List.mem_of_mem_erase hx)) hmeta hout
          fun b => Ledger.onLive_of_ne

end Caver.Runtime
