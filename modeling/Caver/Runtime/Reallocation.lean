import Caver.Runtime.BlockMoves

/-!
# Caver.Runtime.Reallocation — reallocation keeps what is in the block

* `LiveRun s live`: a run of a program that gives back only what it has been
  given leads to `s`, and `live` has the sizes last requested for its blocks.
* `LiveInv`: every live block is handed out, is large enough, and has its size
  in its record.
* `Reallocated s p size n r s'`: the block at `p` has become one of `n` bytes at
  `r`, and no other block has changed.
* `cverReallocate_live`: how a reallocation ends, in every run.
-/

namespace Caver.Runtime

open Caver.Core Caver.Sanitizer

variable {s s' s₁ : HeapState} {p q m m' r size oldSize n alignment : Uptr} {room room' : ℕ}
  {choice : Choice} {zeroise : Bool}

/-! ## Reallocation of a block -/

/-- There is a block of `n` bytes at `p`, and its record says so. -/
def LiveBlock (s : HeapState) (p n : Uptr) : Prop :=
  ∃ m room, Block s p m room ∧ n.toNat ≤ room ∧ s.mem m = n

/-- No block of `s` but the one at `p` has changed in `s'`, in its bytes or in
its record. -/
def OthersKept (s : HeapState) (p : Uptr) (s' : HeapState) : Prop :=
  ∀ q m room, q ≠ p → Block s q m room →
    Block s' q m room ∧ ∀ a, OwnedBy q m room a → s'.mem a = s.mem a

/-- The block of `size` bytes at `p` has become one of `n` bytes at `r`. -/
structure Reallocated (s : HeapState) (p size n r : Uptr) (s' : HeapState) : Prop where
  laid : Laid s'
  live : LiveBlock s' r n
  contents : ∀ k : ℕ, k < min size.toNat n.toNat →
    s'.mem (r + UInt64.ofNat k) = s.mem (p + UInt64.ofNat k)
  freed : r ≠ p ↔ ∀ m room, ¬ Block s' p m room
  fresh : ∀ m room, Block s r m room → r = p
  others : OthersKept s p s'

/-- The bytes of a block by their number. -/
theorem Block.byte_toNat (hs : Laid s) (hb : Block s p m room) {k : ℕ} (hk : k < room) :
    (p + UInt64.ofNat k).toNat = p.toNat + k := by
  have huser := (hb.user_space hs).1
  have hn : (UInt64.ofNat k).toNat = k := by
    rw [UInt64.toNat_ofNat', Nat.mod_eq_of_lt]
    omega
  rw [toNat_add_of_lt, hn]
  omega

/-- In place: the size is written, and nothing else. -/
theorem cverReallocate_inPlace (hs : Laid s) (hb : Block s p m room) (h0 : n ≠ 0)
    (hle : n.toNat ≤ room) :
    cverReallocate choice p n alignment zeroise s =
      some (p, { s with mem := Function.update s.mem m n }) := by
  rcases hb.actualSize_eval hs with ⟨actual, hactual, heval⟩
  have hfits : n ≤ actual := by
    rw [UInt64.le_iff_toNat_le, hactual]
    exact hle
  refine eval_of_wp ?_
  rw [cverReallocate, if_neg (hb.ne_zero hs), if_neg h0, wp_bind,
    wp_eval (hb.getBlockBegin_eval hs), if_neg (fun h => h rfl), wp_bind,
    wp_eval (hb.getMetaData_eval hs)]
  simp only [loadWord, wp_bind, wp_get, wp_pure]
  rw [wp_eval heval, if_pos hfits, wp_bind, storeWord, wp_modify, wp_pure]
  exact ⟨rfl, rfl⟩

theorem reallocated_inPlace (hs : Laid s) (hb : Block s p m room) (hle : n.toNat ≤ room) :
    Reallocated s p size n p { s with mem := Function.update s.mem m n } := by
  have huser := (hb.user_space hs).2
  have hm : InBytes m 24 m := ⟨Nat.le_refl _, by omega⟩
  have hb' : Block { s with mem := Function.update s.mem m n } p m room := hb.of_mem rfl rfl rfl
  refine ⟨hs.of_mem rfl rfl, ?_, ?_, ?_, fun _ _ _ => rfl, ?_⟩
  · exact ⟨m, room, hb', hle, Function.update_self _ _ _⟩
  · intro k hk
    -- the bytes are not in the record
    refine Function.update_of_ne ?_ _ _
    intro heq
    have hkroom : k < room := by omega
    have hbyte := hb.byte_toNat hs hkroom
    refine hb.bytes_not_record hs (a := m) ?_ hm
    rw [← heq]
    exact ⟨by omega, by omega⟩
  · constructor
    · exact fun h => absurd rfl h
    · exact fun h => absurd hb' (h m room)
  · intro q m' room' hne hq
    refine ⟨hq.of_mem rfl rfl rfl, ?_⟩
    intro a ha
    refine Function.update_of_ne ?_ _ _
    rintro rfl
    exact hq.apart hs hb hne ha (.inr hm)

/-- A moving reallocation after its allocation. -/
def finishMove (oldP newP memcpySize : Uptr) : HeapM Uptr := do
  if newP ≠ 0 then do
    memcpy newP oldP memcpySize
    cverDeallocate oldP
    return newP
  else return newP

theorem cverReallocate_move (hs : Laid s) (hb : Block s p m room) (h0 : n ≠ 0)
    (hgt : room < n.toNat) :
    cverReallocate choice p n alignment zeroise s =
      (do
        let newP ← cverAllocate choice n alignment zeroise
        finishMove p newP (if n < s.mem m then n else s.mem m)) s := by
  rcases hb.actualSize_eval hs with ⟨actual, hactual, heval⟩
  have hfits : ¬ n ≤ actual := by
    rw [UInt64.le_iff_toNat_le, hactual]
    omega
  rw [cverReallocate, if_neg (hb.ne_zero hs), if_neg h0]
  show (combinedGetBlockBegin p s).bind _ = _
  rw [hb.getBlockBegin_eval hs]
  show (if p ≠ p then _ else _ : HeapM Uptr) s = _
  rw [if_neg (fun h => h rfl)]
  show (combinedGetMetaData p s).bind _ = _
  rw [hb.getMetaData_eval hs]
  show (getActuallyAllocatedSize p s).bind _ = _
  rw [heval]
  show (if n ≤ actual then _ else _ : HeapM Uptr) s = _
  rw [if_neg hfits]
  rfl

/-- `memcpy` writes the bytes of the target, and nothing else. -/
theorem memcpy_eval (hs : Laid s) (dst src k : Uptr) :
    ∃ s', memcpy dst src k s = some (⟨⟩, s') ∧ Laid s' ∧
      (∀ q m room, Block s q m room → Block s' q m room) ∧
      (∀ a, InBytes dst k.toNat a → s'.mem a = s.mem (src + (a - dst))) ∧
      ∀ a, ¬ InBytes dst k.toNat a → s'.mem a = s.mem a :=
  ⟨_, rfl, hs.of_mem rfl rfl, fun _ _ _ hq => hq.of_mem rfl rfl rfl, fun _ ha => if_pos ha,
    fun _ ha => if_neg ha⟩

/-- The blocks from before an allocation are left alone. -/
theorem HandedOut.kept (hout : HandedOut s n r m' room' s') {mq : Uptr} {roomq : ℕ}
    (hq : Block s q mq roomq) :
    Block s' q mq roomq ∧ ∀ a, OwnedBy q mq roomq a → s'.mem a = s.mem a := by
  rcases hout.keeps q mq roomq hq with ⟨hne, hq'⟩
  exact ⟨hq', fun a ha => hout.mem a (hq'.apart hout.laid hout.block hne ha)⟩

/-- A deallocation leaves all blocks but one alone. -/
theorem GivenBack.others (hs : Laid s) (hb : Block s p m room) (hback : GivenBack s p m s') :
    OthersKept s p s' := by
  intro q mq roomq hne hq
  exact ⟨hback.keeps q mq roomq hne hq, fun a ha => hback.mem a fun hin =>
    hq.apart hs hb hne ha (.inr hin)⟩

/-- The new block has the old bytes, and the old one is given back. -/
theorem finishMove_eval (hs : Laid s) (hb : Block s p m room)
    (hout : HandedOut s n r m' room' s₁) {k : Uptr} (hk : k.toNat = min size.toNat n.toNat)
    (hroom : size.toNat ≤ room) :
    ∃ s', finishMove p r k s₁ = some (r, s') ∧ Reallocated s p size n r s' := by
  rcases hout.keeps p m room hb with ⟨hne, hb₁⟩
  have hr0 : r ≠ 0 := hout.block.ne_zero hout.laid
  have hkr : k.toNat ≤ room' := by
    have hfits := hout.fits
    omega
  -- after the copy
  rcases memcpy_eval hout.laid r p k with ⟨s₂, hcopy, hlaid₂, hkeep₂, hbytes₂, hmem₂⟩
  -- after the deallocation
  rcases cverDeallocate_eval hlaid₂ (hkeep₂ p m room hb₁) with ⟨s', hfree, hback⟩
  have hothers := hback.others hlaid₂ (hkeep₂ p m room hb₁)
  rcases hothers r m' room' hne.symm (hkeep₂ r m' room' hout.block) with ⟨hr, hown⟩
  refine ⟨s', eval_of_wp ?_, hback.laid, ⟨m', room', hr, hout.fits, ?_⟩, ?_, ?_, ?_, ?_⟩
  · rw [finishMove, if_pos hr0, wp_bind, wp_eval hcopy, wp_bind, wp_eval hfree, wp_pure]
    exact ⟨rfl, rfl⟩
  · -- the record is neither copied over nor cleared
    have hm' : InBytes m' 24 m' := ⟨Nat.le_refl _, by omega⟩
    have hrecord : (loadMetadata s₁.mem m').requestedSize = n := by rw [hout.record]
    rw [hown m' (.inr hm'), hmem₂]
    · exact hrecord
    · intro hin
      exact hout.block.bytes_not_record hout.laid ⟨hin.1, by have := hin.2; omega⟩ hm'
  · intro i hi
    have hir : i < room' := by
      have hfits := hout.fits
      omega
    have hdst := hout.block.byte_toNat hout.laid hir
    have hsrc := hb.byte_toNat hs (show i < room by omega)
    have hin : InBytes r k.toNat (r + UInt64.ofNat i) := ⟨by omega, by omega⟩
    have hbytes : InBytes r room' (r + UInt64.ofNat i) := ⟨by omega, by omega⟩
    have hold : InBytes p room (p + UInt64.ofNat i) := ⟨by omega, by omega⟩
    rw [hown _ (.inl hbytes), hbytes₂ _ hin, UInt64.add_comm r, UInt64.add_sub_cancel]
    exact (hout.kept hb).2 _ (.inl hold)
  · constructor
    · intro _
      exact hback.gone
    · intro _
      exact hne.symm
  · intro mq roomq hq
    exact absurd rfl (hout.keeps r mq roomq hq).1
  · intro q mq roomq hqp hq
    rcases hout.kept hq with ⟨hq₁, hsame₁⟩
    rcases hothers q mq roomq hqp (hkeep₂ q mq roomq hq₁) with ⟨hq', hsame'⟩
    refine ⟨hq', ?_⟩
    intro a ha
    rw [hsame' a ha, hmem₂, hsame₁ a ha]
    -- the copy stays in the new block
    intro hin
    exact hq₁.apart hout.laid hout.block (hout.keeps q mq roomq hq).1 ha
      (.inl ⟨hin.1, by have := hin.2; omega⟩)

/-- `Min(new_size, old_size)`. -/
theorem memcpySize_toNat (x y : Uptr) :
    (if x < y then x else y).toNat = min y.toNat x.toNat := by
  split
  · next hlt =>
    rw [UInt64.lt_iff_toNat_lt] at hlt
    omega
  · next hge =>
    rw [UInt64.lt_iff_toNat_lt] at hge
    omega

/-- How a reallocation of a live block to a positive size ends: nothing has
happened, or the block is another one. -/
theorem cverReallocate_cases (hs : Laid s) (hp : LiveBlock s p size) (h0 : n ≠ 0) :
    wlp (cverReallocate choice p n alignment zeroise)
      (fun r s' => (r = 0 ∧ s' = s) ∨ Reallocated s p size n r s') s := by
  rcases hp with ⟨m, room, hb, hroom, hsize⟩
  intro r s' hrun
  by_cases hle : n.toNat ≤ room
  · rw [cverReallocate_inPlace hs hb h0 hle] at hrun
    cases hrun
    exact .inr (reallocated_inPlace hs hb hle)
  · rw [cverReallocate_move hs hb h0 (by omega)] at hrun
    rcases Option.bind_eq_some_iff.mp hrun with ⟨⟨newP, s₁⟩, hall, hrest⟩
    rcases (cverAllocate_cases hs).elim hall with ⟨hnull, hs₁, -⟩ | ⟨m', room', hout⟩
    · -- there is no new block
      have hfin : finishMove p newP (if n < s.mem m then n else s.mem m) s₁ = some (0, s) := by
        rw [hnull, hs₁]
        rfl
      cases hfin.symm.trans hrest
      exact .inl ⟨rfl, rfl⟩
    · have hk := memcpySize_toNat n (s.mem m)
      rw [hsize] at hk hrest
      rcases finishMove_eval hs hb hout hk hroom with ⟨s₂, heval, hre⟩
      cases heval.symm.trans hrest
      exact .inr hre

/-- An allocation stops the process: over the limit where the flag does not ask
for null, within it where the allocator below stops. -/
def AllocationStops (s : HeapState) (choice : Choice) (n alignment : Uptr) : Prop :=
  if n > kMaxAllowedMallocSize then s.mayReturnNull = false
  else allocate choice n alignment s = none

/-- The block at `p` has no room for `n` bytes. -/
def MustMove (s : HeapState) (p n : Uptr) : Prop :=
  ∃ m room, Block s p m room ∧ room < n.toNat

/-- An allocation that stops returns nothing. -/
theorem AllocationStops.eval (h : AllocationStops s choice n alignment) :
    cverAllocate choice n alignment zeroise s = none := by
  unfold AllocationStops at h
  rw [cverAllocate]
  split at h
  · next hbig =>
    rw [if_pos hbig]
    show (check s.mayReturnNull s).bind _ = none
    rw [h]
    rfl
  · next hsmall =>
    rw [if_neg hsmall]
    show (allocate choice n alignment s).bind _ = none
    rw [h]
    rfl

/-- A reallocation of a live block stops exactly where the block has to move and an
allocation of the new size stops. -/
theorem cverReallocate_none_iff (hs : Laid s) (hp : LiveBlock s p size) (h0 : n ≠ 0)
    (hal : alignment.toNat ≤ 2 ^ 62) :
    cverReallocate choice p n alignment zeroise s = none ↔
      MustMove s p n ∧ AllocationStops s choice n alignment := by
  rcases hp with ⟨m, room, hb, hroom, hsize⟩
  constructor
  · intro hrun
    by_cases hle : n.toNat ≤ room
    · rw [cverReallocate_inPlace hs hb h0 hle] at hrun
      exact absurd hrun (by simp)
    refine ⟨⟨m, room, hb, by omega⟩, ?_⟩
    -- an allocation that ends leads to a reallocation that ends
    have hmove : ∀ newP s₁ r s', cverAllocate choice n alignment zeroise s = some (newP, s₁) →
        finishMove p newP (if n < s.mem m then n else s.mem m) s₁ ≠ some (r, s') := by
      intro newP s₁ r s' hall hfin
      rw [cverReallocate_move hs hb h0 (by omega)] at hrun
      have hsome : (cverAllocate choice n alignment zeroise s).bind _ = none := hrun
      rw [hall] at hsome
      exact absurd (hfin.symm.trans hsome) (by simp)
    unfold AllocationStops
    split
    · next hbig =>
      by_contra hnull
      rw [Bool.not_eq_false] at hnull
      have hall : cverAllocate choice n alignment zeroise s = some (0, s) := by
        refine eval_of_wp ?_
        simp [cverAllocate, hbig, allocatorReturnNull, hnull]
      exact hmove 0 s 0 s hall rfl
    · next hsmall =>
      by_contra hsome
      rcases Option.ne_none_iff_exists'.mp hsome with ⟨⟨newP, s₁⟩, hall⟩
      have hlimit : n.toNat ≤ 2 ^ 33 := by
        rw [gt_iff_lt, UInt64.lt_iff_toNat_lt, kMaxAllowedMallocSize_toNat] at hsmall
        omega
      have hnew := (allocate_ne_zero hs.regions choice hlimit hal).elim hall
      rcases cverAllocate_eval hs hsmall hall hnew zeroise with ⟨s₂, m', room', heval, hout⟩
      have hcopied := memcpySize_toNat n (s.mem m)
      rw [hsize] at hcopied
      rcases finishMove_eval hs hb hout hcopied hroom with ⟨s₃, hfin, -⟩
      rw [← hsize] at hfin
      exact hmove newP s₂ newP s₃ heval hfin
  · rintro ⟨⟨m', room', hb', hgt⟩, hstop⟩
    rw [cverReallocate_move hs hb' h0 hgt]
    show (cverAllocate choice n alignment zeroise s).bind _ = none
    rw [hstop.eval]
    rfl

/-! ## Runs -/

/-- The sizes of the live blocks, by address. -/
abbrev Live := Uptr → Option Uptr

namespace Live

/-- The block at `p` is given back. -/
def free (live : Live) (p : Uptr) : Live := Function.update live p none

/-- A block of `n` bytes is handed out at `r`, if there is one. -/
def alloc (live : Live) (r n : Uptr) : Live :=
  if r = 0 then live else Function.update live r (some n)

/-- A reallocation of `p` to `n` bytes has returned `r`. -/
def realloc (live : Live) (p n r : Uptr) : Live :=
  if p = 0 then live.alloc r n
  else if n = 0 then live.free p
  else if r = 0 then live
  else (live.free p).alloc r n

variable {live : Live}

theorem free_eq_some : live.free p q = some n ↔ q ≠ p ∧ live q = some n := by
  unfold free
  by_cases h : q = p
  · simp [h]
  · simp [h]

theorem alloc_eq_some (hr : r ≠ 0) :
    live.alloc r n q = some size ↔ (q = r ∧ n = size) ∨ (q ≠ r ∧ live q = some size) := by
  unfold alloc
  rw [if_neg hr]
  by_cases h : q = r
  · simp [h]
  · simp [h]

end Live

/-- Programs give back what they have been given. A pointer at which no block
starts has no effect. -/
def MayGive (s : HeapState) (live : Live) (p : Uptr) : Prop :=
  p = 0 ∨ (∃ n, live p = some n) ∨ ¬ IsBlockStart s p

/-- The addresses of records: the mapped metadata of the regions and the header
pages of large chunks. -/
def IsMetadata (s : HeapState) (a : Uptr) : Prop :=
  InMeta s.regions a ∨ ∃ h ∈ s.large, InBytes h.header 4096 a

/-- A run of a program, with the sizes of its live blocks. The interceptors
allocate and free with nothing but `CverReallocate` and `CverDeallocate`. -/
inductive LiveRun : HeapState → Live → Prop
  | init (mem : Uptr → Uptr) (mayReturnNull : Bool) :
      LiveRun (initialHeap mem mayReturnNull) fun _ => none
  | reallocate {s s' : HeapState} {live : Live} {choice : Choice} {oldP newSize alignment r : Uptr}
      {zeroise : Bool} : LiveRun s live → MayGive s live oldP →
      cverReallocate choice oldP newSize alignment zeroise s = some (r, s') →
      LiveRun s' (live.realloc oldP newSize r)
  | deallocate {s s' : HeapState} {live : Live} {p : Uptr} : LiveRun s live → MayGive s live p →
      cverDeallocate p s = some (⟨⟩, s') → LiveRun s' (live.free p)
  | register {s s' : HeapState} {live : Live} {p typeTable numElements : Uptr} {b : Bool} :
      LiveRun s live → setCverTypeTableAndNumElements p typeTable numElements s = some (b, s') →
      LiveRun s' live
  | grow {s s' : HeapState} {live : Live} {c : ℕ} :
      LiveRun s live → populate c s = some (⟨⟩, s') → LiveRun s' live
  | write {s : HeapState} {live : Live} (mem : Uptr → Uptr) : LiveRun s live →
      (∀ a, IsMetadata s a → mem a = s.mem a) → LiveRun { s with mem := mem } live

/-- Every live block is there. -/
structure LiveInv (s : HeapState) (live : Live) : Prop where
  laid : Laid s
  live : ∀ p n, live p = some n → LiveBlock s p n

variable {live live' : Live}

/-- A block that is left alone stays live. -/
theorem LiveBlock.kept (h : LiveBlock s q n) (hkeep : ∀ m room, Block s q m room →
    Block s' q m room ∧ ∀ a, OwnedBy q m room a → s'.mem a = s.mem a) : LiveBlock s' q n := by
  rcases h with ⟨m, room, hb, hle, hmem⟩
  rcases hkeep m room hb with ⟨hb', hsame⟩
  refine ⟨m, room, hb', hle, ?_⟩
  rw [hsame m (.inr ⟨Nat.le_refl _, by omega⟩)]
  exact hmem

/-- A new block, and those that there were. -/
theorem HandedOut.liveInv (h : LiveInv s live) (hout : HandedOut s n r m room s') :
    LiveInv s' (live.alloc r n) := by
  have h0 : r ≠ 0 := hout.block.ne_zero hout.laid
  refine ⟨hout.laid, ?_⟩
  intro q k hq
  rcases (Live.alloc_eq_some h0).mp hq with ⟨rfl, rfl⟩ | ⟨-, hq⟩
  · have hrecord : (loadMetadata s'.mem m).requestedSize = n := by rw [hout.record]
    exact ⟨m, room, hout.block, hout.fits, hrecord⟩
  · exact (h.live q k hq).kept fun _ _ hb => hout.kept hb

/-- One block less. -/
theorem GivenBack.liveInv (h : LiveInv s live) (hb : Block s p m room)
    (hback : GivenBack s p m s') : LiveInv s' (live.free p) := by
  refine ⟨hback.laid, ?_⟩
  intro q k hq
  rcases Live.free_eq_some.mp hq with ⟨hqp, hq⟩
  exact (h.live q k hq).kept fun mq roomq => hback.others h.laid hb q mq roomq hqp

/-- Another block in the place of one. -/
theorem Reallocated.liveInv (h : LiveInv s live) (hre : Reallocated s p size n r s') (hr : r ≠ 0) :
    LiveInv s' ((live.free p).alloc r n) := by
  refine ⟨hre.laid, ?_⟩
  intro q k hq
  rcases (Live.alloc_eq_some hr).mp hq with ⟨rfl, rfl⟩ | ⟨-, hq⟩
  · exact hre.live
  · rcases Live.free_eq_some.mp hq with ⟨hqp, hq⟩
    exact (h.live q k hq).kept fun mq roomq => hre.others q mq roomq hqp

theorem LiveInv.allocate (h : LiveInv s live) :
    wlp (cverAllocate choice n alignment zeroise) (fun r s' => LiveInv s' (live.alloc r n)) s := by
  refine (cverAllocate_cases h.laid).mono ?_
  rintro r s' (⟨rfl, rfl, -⟩ | ⟨m, room, hout⟩)
  · rwa [Live.alloc, if_pos rfl]
  · exact hout.liveInv h

theorem LiveInv.free_of_not_live (h : LiveInv s live) : LiveInv s (live.free p) := by
  constructor
  · exact h.laid
  · intro q k hq
    exact h.live q k (Live.free_eq_some.mp hq).2

theorem LiveInv.deallocate (h : LiveInv s live) (hmay : MayGive s live p) :
    wlp (cverDeallocate p) (fun _ s' => LiveInv s' (live.free p)) s := by
  intro _ s' hrun
  by_cases h0 : p = 0
  · -- a check stops the process
    have hwlp : wlp (cverDeallocate p) (fun _ _ => False) s := by
      simp [cverDeallocate, h0]
    exact (hwlp.elim hrun).elim
  rcases hmay with hz | ⟨n, hp⟩ | hp
  · exact absurd hz h0
  · rcases h.live p n hp with ⟨m, room, hb, -, -⟩
    rcases cverDeallocate_eval h.laid hb with ⟨s₁, heval, hback⟩
    rw [heval] at hrun
    cases hrun
    exact hback.liveInv h hb
  · rw [cverDeallocate_unchanged h.laid.blocks.large h0 hp] at hrun
    cases hrun
    exact h.free_of_not_live

theorem LiveInv.reallocate (h : LiveInv s live) (hmay : MayGive s live p) :
    wlp (cverReallocate choice p n alignment zeroise)
      (fun r s' => LiveInv s' (live.realloc p n r)) s := by
  by_cases h0 : p = 0
  · subst h0
    rw [cverReallocate_null]
    simp only [Live.realloc, if_true]
    exact h.allocate
  by_cases hn : n = 0
  · subst hn
    simp only [Live.realloc, if_neg h0, if_true]
    rw [cverReallocate, if_neg h0, if_pos rfl, wlp_bind]
    refine (h.deallocate hmay).mono ?_
    intro _ s₁ hinv
    rwa [wlp_pure]
  simp only [Live.realloc, if_neg h0, if_neg hn]
  rcases hmay with hz | ⟨size, hp⟩ | hp
  · exact absurd hz h0
  · refine (cverReallocate_cases h.laid (h.live p size hp) hn).mono ?_
    rintro r s₁ (⟨rfl, rfl⟩ | hre)
    · rwa [if_pos rfl]
    · have hr : r ≠ 0 := by
        rcases hre.live with ⟨m, room, hb, -⟩
        exact hb.ne_zero hre.laid
      rw [if_neg hr]
      exact hre.liveInv h hr
  · -- no block starts there
    rw [cverReallocate, if_neg h0, if_neg hn, wlp_bind]
    refine wlp_of_wp (combinedGetBlockBegin_ne h.laid.blocks.large h0 hp) ?_
    rintro beg _ ⟨rfl, hne⟩
    rw [if_pos hne, wlp_pure, if_pos rfl]
    exact h

/-- Registration writes the second and third word of the record of a chunk. -/
theorem setCverTypeTable_mem (typeTable numElements : Uptr) :
    wlp (setCverTypeTableAndNumElements p typeTable numElements) (fun _ s' => s' = s ∨
      Served s.regions p ∧ s' = { s with
        mem := Function.update (Function.update s.mem (getMetaData p + 8) typeTable)
          (getMetaData p + 16) numElements }) s := by
  simp only [setCverTypeTableAndNumElements, getCverMetaData, wlp_bind, wlp_get, wlp_ite, wlp_pure,
    storeWord, wlp_modify, if_true]
  split
  · exact .inl trivial
  split
  · exact .inl trivial
  next hbeg =>
  have hs := (getBlockBegin_ne_zero_iff s.regions p).mp hbeg
  have hmeta := ((getBlockBeginAndMetaData_agrees s.regions p 0).2.1 hbeg).2
  rw [hmeta]
  split
  · exact .inl trivial
  · exact .inr ⟨hs, rfl⟩

/-- The size in the record of a block is not among them. -/
theorem Block.size_ne_type (hs : Laid s) (hb : Block s q m room) (hserved : Served s.regions p) :
    m ≠ getMetaData p + 8 ∧ m ≠ getMetaData p + 16 := by
  have hfit := hserved.fits hs.regions
  have hbounds := hfit.recordBeg_bounds
  have hmeta := getMetaData_toNat hserved.1
  have huser := (hb.user_space hs).2
  have hfields := toNat_field (m := getMetaData p) (by omega)
  -- it is the first word of a record
  have hapart : m.toNat = recordBeg (classOf p) (chunkOf p) ∨
      m.toNat + 24 ≤ recordBeg (classOf p) (chunkOf p) ∨
      recordBeg (classOf p) (chunkOf p) + 24 ≤ m.toNat := by
    cases hb with
    | @chunk c i hc hp ho =>
      have hfit' := hc.fits hs.regions
      rw [hfit'.recordBeg_toNat]
      by_cases hsame : c = classOf p ∧ i = chunkOf p
      · rw [hsame.1, hsame.2]
        exact .inl rfl
      · exact .inr (record_apart hfit' hfit hsame)
    | mapping hh hp =>
      have hr := (hs.large _ hh).record_toNat
      have hout := (hs.large _ hh).outside
      have hb := (hs.large _ hh).bounds
      omega
  constructor
  · intro heq
    rw [heq, hfields.1] at hapart
    omega
  · intro heq
    rw [heq, hfields.2] at hapart
    omega

theorem LiveInv.register (h : LiveInv s live) (typeTable numElements : Uptr) :
    wlp (setCverTypeTableAndNumElements p typeTable numElements)
      (fun _ s' => LiveInv s' live) s := by
  refine (setCverTypeTable_mem typeTable numElements).mono ?_
  rintro _ s' (rfl | ⟨hserved, rfl⟩)
  · exact h
  · refine ⟨h.laid.of_mem rfl rfl, ?_⟩
    intro q k hq
    rcases h.live q k hq with ⟨m, room, hb, hle, hsize⟩
    rcases hb.size_ne_type h.laid hserved with ⟨h8, h16⟩
    refine ⟨m, room, hb.of_mem rfl rfl rfl, hle, ?_⟩
    dsimp only
    rw [Function.update_of_ne h16, Function.update_of_ne h8]
    exact hsize

theorem LiveInv.populate (h : LiveInv s live) (c : ℕ) :
    wlp (populate c) (fun _ s' => LiveInv s' live) s := by
  refine (populate_spec h.laid.regions c).mono ?_
  rintro _ _ ⟨⟨regions, rfl⟩, hok, hcarved⟩
  refine ⟨⟨hok, h.laid.large, h.laid.apart⟩, ?_⟩
  intro q k hq
  rcases h.live q k hq with ⟨m, room, hb, hle, hsize⟩
  refine ⟨m, room, ?_, hle, hsize⟩
  cases hb with
  | @chunk d i hd hp ho => exact .chunk (hcarved d i hd) hp ho
  | mapping hh hp => exact .mapping hh hp

/-- The record of a block is metadata. -/
theorem Block.isMetadata (hs : Laid s) (hb : Block s p m room) : IsMetadata s m := by
  cases hb with
  | @chunk c i hc hp ho =>
    have hn := (hc.fits hs.regions).recordBeg_toNat
    exact .inl (record_inMeta hs.regions hc (by omega) (by omega))
  | mapping hh hp =>
    have hr := (hs.large _ hh).record_toNat
    exact .inr ⟨_, hh, by omega, by omega⟩

theorem LiveRun.inv (h : LiveRun s live) : LiveInv s live := by
  induction h with
  | init mem mayReturnNull =>
    have hinv := Inv.initial mem mayReturnNull
    exact ⟨⟨hinv.regions, fun h hh => absurd hh List.not_mem_nil, .nil⟩,
      fun p n hp => absurd hp (by simp)⟩
  | reallocate _ hmay hrun ih => exact (ih.reallocate hmay).elim hrun
  | deallocate _ hmay hrun ih => exact (ih.deallocate hmay).elim hrun
  | register _ hrun ih => exact (ih.register _ _).elim hrun
  | grow _ hrun ih => exact (ih.populate _).elim hrun
  | write mem _ hmem ih =>
    refine ⟨ih.laid.of_mem rfl rfl, ?_⟩
    intro p n hp
    rcases ih.live p n hp with ⟨m, room, hb, hle, hsize⟩
    exact ⟨m, room, hb.of_mem rfl rfl rfl, hle, (hmem m (hb.isMetadata ih.laid)).trans hsize⟩

/-! ## The result -/

/-- A reallocation of a live block, in every run. To a positive size, it changes
nothing and returns null, or the block is another one, or the process stops: that
is where the block has to move and the allocation stops. To no size, the block is
given back. -/
theorem cverReallocate_live (hrun : LiveRun s live) (hp : live p = some size) (choice : Choice)
    (n : Uptr) :
    LiveBlock s p size ∧
    (n ≠ 0 →
      (∀ r s', cverReallocate choice p n 8 false s = some (r, s') →
        (r = 0 ∧ s' = s) ∨ Reallocated s p size n r s') ∧
      (cverReallocate choice p n 8 false s = none ↔
        MustMove s p n ∧ AllocationStops s choice n 8)) ∧
    (n = 0 → ∃ s', cverReallocate choice p n 8 false s = some (0, s') ∧
      (∀ m room, ¬ Block s' p m room) ∧ OthersKept s p s') := by
  have hinv := hrun.inv
  have hlive := hinv.live p size hp
  refine ⟨hlive, ?_, ?_⟩
  · intro h0
    refine ⟨fun r s' h => (cverReallocate_cases hinv.laid hlive h0).elim h, ?_⟩
    exact cverReallocate_none_iff hinv.laid hlive h0 (by decide)
  · rintro rfl
    rcases hlive with ⟨m, room, hb, -, -⟩
    rcases cverDeallocate_eval hinv.laid hb with ⟨s', heval, hback⟩
    refine ⟨s', eval_of_wp ?_, hback.gone, hback.others hinv.laid hb⟩
    rw [cverReallocate, if_neg (hb.ne_zero hinv.laid), if_pos rfl, wp_bind, wp_eval heval,
      wp_pure]
    exact ⟨rfl, rfl⟩

/-- The small heap, with its block of 16 bytes. -/
theorem smallHeap_liveRun : LiveRun (smallHeap ⟨16, 0, 0⟩)
    (Live.realloc (fun _ => none) 0 16 0x602000000000) := by
  have hinit : LiveRun (initialHeap (fun _ => 0) false) fun _ => none := .init _ _
  have hgrow : populate 1 (initialHeap (fun _ => 0) false) = some (⟨⟩, grownHeap) :=
    eval_of_wp (by simp [populate, initialHeap, populateFreeList_small, grownHeap])
  have hmalloc : cverReallocate ⟨0, 0⟩ 0 16 8 false grownHeap =
      some (0x602000000000, smallHeap ⟨16, 0, 0⟩) :=
    malloc_grownHeap (by decide) (by decide) (by decide)
  exact (hinit.grow hgrow).reallocate (.inl rfl) hmalloc

/-- It is reallocated to 12 bytes, in place. -/
theorem cverReallocate_live_small :
    ∃ s', cverReallocate ⟨0, 0⟩ 0x602000000000 12 8 false (smallHeap ⟨16, 0, 0⟩) =
        some (0x602000000000, s') ∧
      Reallocated (smallHeap ⟨16, 0, 0⟩) 0x602000000000 16 12 0x602000000000 s' := by
  have hrun : ∃ s', cverReallocate ⟨0, 0⟩ 0x602000000000 12 8 false (smallHeap ⟨16, 0, 0⟩) =
      some (0x602000000000, s') := ⟨_, rfl⟩
  rcases hrun with ⟨s', hrun⟩
  have hlive : Live.realloc (fun _ => none) 0 16 0x602000000000 0x602000000000 = some 16 := by
    decide
  have hspec := (cverReallocate_live smallHeap_liveRun hlive ⟨0, 0⟩ 12).2.1 (by decide)
  refine ⟨s', hrun, (hspec.1 _ _ hrun).resolve_left ?_⟩
  rintro ⟨hnull, -⟩
  exact absurd hnull (by decide)

/-- Over the limit the process stops where null is not asked for: nothing is
returned, neither null nor a block. -/
theorem cverReallocate_over_limit :
    (∃ live, LiveRun (smallHeap ⟨16, 0, 0⟩) live ∧ live 0x602000000000 = some 16) ∧
      ∀ choice, cverReallocate choice 0x602000000000 0x200000001 8 false (smallHeap ⟨16, 0, 0⟩) =
        none :=
  ⟨⟨_, smallHeap_liveRun, by decide⟩, fun _ => rfl⟩

end Caver.Runtime
