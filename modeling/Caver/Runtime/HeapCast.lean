import Caver.Runtime.HandleCast
import Caver.Runtime.HeapTracking

/-!
# Caver.Runtime.HeapCast — what a cast knows of a heap block

* `Inv.locate`: a pointer into a live block is judged with the block's record.
* `adjustUserAllocBeg_eq`: the base against which it is judged.
* `registerAll`: registrations inside one block. They share its record, so every
  address of the block is judged with the last of them (`sharedBlock_last`).
-/

namespace Caver.Runtime

open Caver.Core Caver.Sanitizer

variable {s s' : HeapState} {l : Ledger} {b p : Uptr} {flags : Flags} {md : Metadata} {o : Objects}

/-! ## Locating heap objects -/

/-- The address is in the chunk of the block at `b`. -/
def InBlock (b p : Uptr) : Prop :=
  b.toNat ≤ p.toNat ∧ p.toNat < b.toNat + (classSize (getSizeClass b)).toNat

instance (b p : Uptr) : Decidable (InBlock b p) := inferInstanceAs (Decidable (_ ∧ _))

/-- The address is not in the current thread's stack. -/
def NotOnStack (o : Objects) (p : Uptr) : Prop :=
  ∀ t, o.thread = some t → t.addrIsInStack p = false

theorem NotOnStack.filter (h : NotOnStack o p) :
    o.thread.filter (·.addrIsInStack p) = none := by
  cases ho : o.thread with
  | none => rfl
  | some t => simp [Option.filter, h t ho]

/-- Pointers into the primary space are looked up in the heap. -/
theorem locate_mine (hstack : NotOnStack o p) (hm : pointerIsMine p = true) :
    locate flags o p = some (locateHeap o.heap p) := by
  unfold locate
  rw [hstack.filter]
  exact if_pos hm

/-- Other pointers are not. -/
theorem locate_foreign (hm : pointerIsMine p = false) (heap : HeapState) :
    locate flags { o with heap := heap } p = locate flags o p := by
  unfold locate
  simp only [hm, Bool.false_eq_true, if_false]

/-- A pointer that is in no stack, heap or global object leads to nothing. -/
theorem locate_none (hstack : NotOnStack o p) (hm : pointerIsMine p = false)
    (hglobal : lookupObject o.globals p = some none) : locate flags o p = some none := by
  unfold locate
  simp only [hstack.filter, hm, Bool.false_eq_true, if_false, hglobal, ite_self]

/-- What a record says of its block. -/
def Metadata.located (md : Metadata) (b : Uptr) : Option Located :=
  if md.typeTable = 0 then none
  else some ⟨md.typeTable, md.numElements, md.requestedSize, b⟩

theorem locateHeap_carved {c i : ℕ} (hr : RegionsOk s.regions) (hc : Carved s.regions c i)
    (hb : b.toNat = chunkBeg c i) (hp : InBlock b p) :
    pointerIsMine p = true ∧ locateHeap s p = (recordOf s c i).located b := by
  have hfit := hc.fits hr
  rcases carved_pointer hr hc hb hp.1 hp.2 with ⟨hbeg, hmeta, hs⟩
  rcases chunk_locate hfit hb with ⟨hm, hcls, -, -⟩
  have hb0 : b ≠ 0 := by
    rintro rfl
    exact absurd hm (by decide)
  have hm0 : UInt64.ofNat (recordBeg c i) ≠ 0 := by
    rw [← hmeta]
    exact getMetaData_ne_zero hs.1
  have hmine : pointerIsMine p = true := by
    rcases hp with ⟨hlo, hhi⟩
    rw [classSize_getSizeClass, hcls] at hhi
    exact (InChunk.locate (p := p) hfit ⟨by omega, by omega⟩).1
  refine ⟨hmine, ?_⟩
  have hlookup : getBlockBeginAndMetaData s.regions p 0 = (b, UInt64.ofNat (recordBeg c i)) := by
    rw [getBlockBeginAndMetaData_eq, if_pos hs, hbeg, hmeta]
  unfold locateHeap Metadata.located
  rw [hlookup]
  exact if_pos ⟨hb0, hm0⟩

/-- Every pointer into a live block is judged with the block's record. -/
theorem Inv.locate (h : Inv s l) (hm : pointerIsMine b = true) (hl : l b = .live md)
    (ho : o.heap = s) (hp : InBlock b p) (hstack : NotOnStack o p) :
    Runtime.locate flags o p = some (md.located b) := by
  rcases h.live hm hl with ⟨-, c, i, hc, hb, hrec⟩
  rcases locateHeap_carved h.regions hc hb hp with ⟨hmine, hloc⟩
  rw [locate_mine hstack hmine, ho, hloc, hrec]

/-! ## The base of an object -/

/-- The base is the block's start, or that of the element that the pointer is
in, where elements of equal size fill the block. -/
theorem adjustUserAllocBeg_eq (hp : b.toNat ≤ p.toNat) (t n size : Uptr) :
    adjustUserAllocBeg ⟨t, n, size, b⟩ p =
      if n = 0 then some b
      else if size % n = 0 ∧ size / n ≠ 0 then some (p - (p - b) % (size / n))
      else none := by
  have hle : ¬ p < b := UInt64.not_lt.mpr (UInt64.le_iff_toNat_le.mpr hp)
  have hpos : n > 0 ↔ n ≠ 0 := by
    rw [gt_iff_lt, UInt64.lt_iff_toNat_lt, ← UInt64.toNat_inj.ne]
    exact Nat.pos_iff_ne_zero
  unfold adjustUserAllocBeg
  simp only [hpos, if_neg hle]
  split_ifs <;> simp_all

/-- The same in natural numbers. -/
theorem adjustUserAllocBeg_toNat (hp : b.toNat ≤ p.toNat) {t n size : Uptr} (hn : n ≠ 0) (x : ℕ) :
    (adjustUserAllocBeg ⟨t, n, size, b⟩ p).map (·.toNat) = some x ↔
      size.toNat % n.toNat = 0 ∧ size.toNat / n.toNat ≠ 0 ∧
        p.toNat - (p.toNat - b.toNat) % (size.toNat / n.toNat) = x := by
  have hmod : size % n = 0 ↔ size.toNat % n.toNat = 0 := by
    rw [← UInt64.toNat_inj, UInt64.toNat_mod]
    rfl
  have hdiv : size / n = 0 ↔ size.toNat / n.toNat = 0 := by
    rw [← UInt64.toNat_inj, UInt64.toNat_div]
    rfl
  have hbeg : (p - (p - b) % (size / n)).toNat =
      p.toNat - (p.toNat - b.toNat) % (size.toNat / n.toNat) := by
    have hoff : (p - b).toNat = p.toNat - b.toNat :=
      UInt64.toNat_sub_of_le _ _ (UInt64.le_iff_toNat_le.mpr hp)
    have hle := Nat.mod_le (p.toNat - b.toNat) (size.toNat / n.toNat)
    rw [UInt64.toNat_sub_of_le, UInt64.toNat_mod, UInt64.toNat_div, hoff]
    rw [UInt64.le_iff_toNat_le, UInt64.toNat_mod, UInt64.toNat_div, hoff]
    omega
  rw [adjustUserAllocBeg_eq hp, if_neg hn]
  simp only [ne_eq, hmod, hdiv]
  split
  · next h => simp [h, hbeg]
  · next h =>
    constructor
    · intro hnone
      exact absurd hnone (by simp)
    · rintro ⟨h1, h2, -⟩
      exact absurd ⟨h1, h2⟩ h

/-! ## Several objects in one block -/

/-- A call of `__cver_handle_new`. -/
structure Registration where
  typeTable : Uptr
  pointer : Uptr
  numElements : Uptr
deriving DecidableEq, Repr

/-- Register objects one after the other. -/
def registerAll (flags : Flags) : List Registration → HeapM PUnit
  | [] => return ()
  | r :: rs => do
    handleNew flags r.typeTable r.pointer r.numElements
    registerAll flags rs

/-- The record after a registration. -/
def Metadata.registered (md : Metadata) (r : Registration) : Metadata :=
  { md with typeTable := r.typeTable, numElements := r.numElements }

theorem registered_foldl (md : Metadata) (rs : List Registration) (r : Registration) :
    (rs ++ [r]).foldl Metadata.registered md =
      ⟨md.requestedSize, r.typeTable, r.numElements⟩ := by
  have hsize : ∀ md : Metadata,
      (rs.foldl Metadata.registered md).requestedSize = md.requestedSize := by
    induction rs with
    | nil => exact fun _ => rfl
    | cons r' rs ih => exact fun md => ih (md.registered r')
  rw [List.foldl_append, ← hsize md]
  rfl

/-- All the registrations of objects in a live block go to its record. -/
theorem Inv.registerAll (hcheck : flags.noCheck = false) (hnew : flags.noHandleNew = false)
    (hm : pointerIsMine b = true) (rs : List Registration) (hrs : ∀ r ∈ rs, InBlock b r.pointer)
    (h : Inv s l) (hl : l b = .live md) :
    wp (registerAll flags rs) (fun _ s' => ∃ l', Inv s' l' ∧
      l' b = .live (rs.foldl Metadata.registered md)) s := by
  induction rs generalizing s l md with
  | nil =>
    rw [Runtime.registerAll, wp_pure]
    exact ⟨l, h, hl⟩
  | cons r rs ih =>
    rcases hrs r List.mem_cons_self with ⟨hlo, hhi⟩
    simp only [Runtime.registerAll, Runtime.handleNew, hcheck, hnew, Bool.or_self,
      Bool.false_eq_true, if_false, wp_bind, wp_pure]
    refine (h.handleNew hm hl hlo hhi r.typeTable r.numElements).mono ?_
    rintro _ s₁ ⟨h₁, -⟩
    refine ih (fun r' hr' => hrs r' (List.mem_cons_of_mem _ hr')) h₁ ?_
    rw [Ledger.register, Ledger.onLive_self, hl]
    rfl

/-- Objects registered in one block share its record: whichever of them an
address is in, it is judged with the type table of the last registration, against
the block's start or the start of an element of equal size. Registrations in any
other block are not looked at. -/
theorem sharedBlock_last (h : Reachable flags s l) (hcheck : flags.noCheck = false)
    (hnew : flags.noHandleNew = false) :
    (∀ b md, pointerIsMine b = true → l b = .live md →
      ∀ rs r, (∀ r' ∈ rs ++ [r], InBlock b r'.pointer) →
      ∃ s', registerAll flags (rs ++ [r]) s = some (⟨⟩, s') ∧
        ∀ o, o.heap = s' → ∀ p, InBlock b p → NotOnStack o p →
        locate flags o p = some (if r.typeTable = 0 then none
          else some ⟨r.typeTable, r.numElements, md.requestedSize, b⟩) ∧
        adjustUserAllocBeg ⟨r.typeTable, r.numElements, md.requestedSize, b⟩ p =
          if r.numElements = 0 then some b
          else if md.requestedSize % r.numElements = 0 ∧ md.requestedSize / r.numElements ≠ 0 then
            some (p - (p - b) % (md.requestedSize / r.numElements))
          else none) ∧
    ∀ p, pointerIsMine p = false → ∀ o heap,
      locate flags { o with heap := heap } p = locate flags o p := by
  constructor
  · intro b md hm hl rs r hrs
    rcases h.inv.registerAll hcheck hnew hm (rs ++ [r]) hrs hl with ⟨⟨⟩, s', hrun, l', hinv, hlive⟩
    refine ⟨s', hrun, ?_⟩
    intro o ho p hp hstack
    rw [registered_foldl] at hlive
    exact ⟨hinv.locate hm hlive ho hp hstack, adjustUserAllocBeg_eq hp.1 _ _ _⟩
  · intro p hm o heap
    exact locate_foreign hm heap

/-- Two objects of 8 bytes in a block of 16: both addresses lead to the second
object's type table and to the block's start. -/
theorem sharedBlock_last_pool :
    ∃ s', registerAll {} [⟨0x500100, 0x602000000000, 0⟩, ⟨0x500200, 0x602000000008, 0⟩]
        (smallHeap ⟨16, 0, 0⟩) = some (⟨⟩, s') ∧
      locate {} ⟨none, s', rbtreeCreate .empty⟩ 0x602000000008 =
        some (some ⟨0x500200, 0, 16, 0x602000000000⟩) := by
  have hreach : Reachable {} (smallHeap ⟨16, 0, 0⟩) (smallLedger ⟨16, 0, 0⟩) :=
    smallHeap_malloc (by decide) (by decide) (by decide)
  obtain ⟨s', hrun, hlocate⟩ := (sharedBlock_last hreach rfl rfl).1 0x602000000000 ⟨16, 0, 0⟩
    (by decide) (by decide) [⟨0x500100, 0x602000000000, 0⟩] ⟨0x500200, 0x602000000008, 0⟩
    (by decide)
  refine ⟨s', hrun, ?_⟩
  exact (hlocate ⟨none, s', rbtreeCreate .empty⟩ rfl 0x602000000008 (by decide) nofun).1

/-- So the first object is judged with the type of the second one, and the second
one with the base of the first. -/
theorem sharedBlock_pool :
    Reachable {} (smallHeap ⟨16, 0, 0⟩) (smallLedger ⟨16, 0, 0⟩) ∧
    ∃ s', registerAll {} [⟨0x500100, 0x602000000000, 0⟩, ⟨0x500200, 0x602000000008, 0⟩]
        (smallHeap ⟨16, 0, 0⟩) = some (⟨⟩, s') ∧
      locate {} ⟨none, s', rbtreeCreate .empty⟩ 0x602000000000 =
        some (some ⟨0x500200, 0, 16, 0x602000000000⟩) ∧
      locate {} ⟨none, s', rbtreeCreate .empty⟩ 0x602000000008 =
        some (some ⟨0x500200, 0, 16, 0x602000000000⟩) ∧
      adjustUserAllocBeg ⟨0x500200, 0, 16, 0x602000000000⟩ 0x602000000008 =
        some 0x602000000000 :=
  ⟨smallHeap_malloc (by decide) (by decide) (by decide), _, rfl, rfl, rfl, rfl⟩

end Caver.Runtime
