import Caver.Runtime.HeapCast

/-!
# Caver.CodeGen.NewExpr — arrays created by `new T[n]`

`EmitCXXNewExpr` asks for the elements and the array cookie in one block, and
registers the block before it skips the cookie. The runtime divides the size of
the whole block by the number of elements.

* `emitCXXNewAllocSize`: the size with its overflow checks.
* `emitCXXNewExpr`: what the emitted code does, on the heap.
* `newArray_elements`: elements are found exactly where there is no cookie, and
  the block is one of the primary allocator.
-/

namespace Caver.CodeGen

open Caver.Core Caver.Sanitizer Caver.Runtime

/-! ## The expression -/

/-- `new T[count]` for a class `T` with a type table, without placement
arguments. The inner bounds of `T[count][n]...` are in `arraySizeMultiplier`. -/
structure ArrayNew where
  /-- The value of the array size expression, of any integer type. -/
  count : ℤ
  /-- The number of initializers in braces. -/
  minElements : ℕ
  arraySizeMultiplier : Uptr
  typeSize : Uptr
  typeAlign : Uptr
  typeTable : Uptr
  usualArrayDeleteWantsSize : Bool
  isDestructedType : Bool
  size_pos : 0 < typeSize.toNat
  multiplier_pos : 0 < arraySizeMultiplier.toNat
  /-- The allocated type has a size. -/
  size_fits : typeSize.toNat * arraySizeMultiplier.toNat < 2 ^ 64
  table_ne : typeTable ≠ 0

namespace ArrayNew

/-- `CGCXXABI::requiresArrayCookie`. -/
def requiresArrayCookie (e : ArrayNew) : Bool := e.usualArrayDeleteWantsSize || e.isDestructedType

/-- `getArrayCookieSizeImpl`: a `size_t`, padded to the element's alignment. -/
def getArrayCookieSizeImpl (e : ArrayNew) : Uptr := if 8 < e.typeAlign then e.typeAlign else 8

theorem le_getArrayCookieSizeImpl (e : ArrayNew) : 8 ≤ e.getArrayCookieSizeImpl.toNat := by
  unfold getArrayCookieSizeImpl
  split
  · next hlt => exact (UInt64.lt_iff_toNat_lt.mp hlt).le
  · exact le_rfl

/-- `CalculateCookiePadding`. -/
def calculateCookiePadding (e : ArrayNew) : Uptr :=
  if e.requiresArrayCookie then e.getArrayCookieSizeImpl else 0

/-- The number of objects. -/
def elements (e : ArrayNew) : ℕ := e.count.toNat * e.arraySizeMultiplier.toNat

end ArrayNew

/-! ## The emitted code -/

/-- `APInt::umul_ov`. -/
def umulOv (a b : Uptr) : Uptr × Bool := (a * b, 2 ^ 64 ≤ a.toNat * b.toNat)

/-- `APInt::uadd_ov`. -/
def uaddOv (a b : Uptr) : Uptr × Bool := (a + b, 2 ^ 64 ≤ a.toNat + b.toNat)

/-- `EmitCXXNewAllocSize`: the size to ask for, and the number of elements. On
any overflow the size is all ones. -/
def emitCXXNewAllocSize (e : ArrayNew) : Uptr × Uptr :=
  let cookieSize := e.calculateCookiePadding
  let hasAnyOverflow := decide (e.count < 0) || decide (2 ^ 64 ≤ e.count)
  let adjustedCount := UInt64.ofInt e.count
  let hasAnyOverflow := hasAnyOverflow || decide (adjustedCount.toNat < e.minElements)
  let numElements := adjustedCount * e.arraySizeMultiplier
  let (allocationSize, overflow) := umulOv adjustedCount (e.typeSize * e.arraySizeMultiplier)
  let hasAnyOverflow := hasAnyOverflow || overflow
  let (allocationSize, hasAnyOverflow) :=
    if cookieSize ≠ 0 then
      let (allocationSize, overflow) := uaddOv allocationSize cookieSize
      (allocationSize, hasAnyOverflow || overflow)
    else (allocationSize, hasAnyOverflow)
  (if hasAnyOverflow then 0 - 1 else allocationSize, numElements)

/-- `InitializeArrayCookie`: the number of elements at the end of the cookie,
and the address behind it. -/
def initializeArrayCookie (e : ArrayNew) (newPtr numElements : Uptr) : HeapM Uptr := do
  let cookieSize := e.getArrayCookieSizeImpl
  storeWord (newPtr + (cookieSize - 8)) numElements
  return newPtr + cookieSize

/-- What the code of `EmitCXXNewExpr` does before the initializers: the
allocation, and the address of the first element. -/
def emitCXXNewExpr (flags : Flags) (choice : Choice) (e : ArrayNew) : HeapM (Uptr × Uptr) := do
  let (allocSize, numElements) := emitCXXNewAllocSize e
  let rv ← operatorNew choice allocSize
  handleNew flags e.typeTable rv numElements
  if e.calculateCookiePadding ≠ 0 then do
    let result ← initializeArrayCookie e rv numElements
    return (rv, result)
  else return (rv, rv)

/-! ## Sizes -/

/-- The bytes of the elements. -/
def ArrayNew.bytes (e : ArrayNew) : ℕ := e.elements * e.typeSize.toNat

/-- A size that can be allocated is not the result of an overflow. -/
theorem not_overflow {o : Bool} {size : Uptr}
    (h : (if o then 0 - 1 else size) ≤ kMaxAllowedMallocSize) :
    o = false ∧ (if o then 0 - 1 else size) = size := by
  cases o with
  | false => exact ⟨rfl, rfl⟩
  | true =>
    have hmax : ¬ (0 - 1 : Uptr) ≤ kMaxAllowedMallocSize := by decide
    exact absurd h hmax

/-- Where the allocation succeeds, nothing has overflowed. -/
theorem emitCXXNewAllocSize_eq {e : ArrayNew}
    (h : (emitCXXNewAllocSize e).1 ≤ kMaxAllowedMallocSize) :
    (emitCXXNewAllocSize e).1.toNat = e.bytes + e.calculateCookiePadding.toNat ∧
      (emitCXXNewAllocSize e).2.toNat = e.elements := by
  have hsize := e.size_fits
  have htype : (e.typeSize * e.arraySizeMultiplier).toNat =
      e.typeSize.toNat * e.arraySizeMultiplier.toNat := toNat_mul_of_lt hsize
  have hbytes : e.bytes =
      e.count.toNat * (e.typeSize.toNat * e.arraySizeMultiplier.toNat) := by
    unfold ArrayNew.bytes ArrayNew.elements
    ring
  -- without an overflow, the count and both products are exact
  have hexact : (decide (e.count < 0) || decide (2 ^ 64 ≤ e.count) ||
      decide ((UInt64.ofInt e.count).toNat < e.minElements) ||
      decide (2 ^ 64 ≤ (UInt64.ofInt e.count).toNat *
        (e.typeSize * e.arraySizeMultiplier).toNat)) = false →
      (UInt64.ofInt e.count * (e.typeSize * e.arraySizeMultiplier)).toNat = e.bytes ∧
        (UInt64.ofInt e.count * e.arraySizeMultiplier).toNat = e.elements := by
    intro hov
    simp only [Bool.or_eq_false_iff, decide_eq_false_iff_not, not_lt, not_le] at hov
    rcases hov with ⟨⟨⟨h0, hlt⟩, -⟩, hmul⟩
    have hcount : (UInt64.ofInt e.count).toNat = e.count.toNat := by
      unfold UInt64.ofInt
      rw [UInt64.toNat_ofNat', Int.emod_eq_of_lt h0 hlt, Nat.mod_eq_of_lt (by omega)]
    rw [hcount, htype] at hmul
    refine ⟨?_, ?_⟩
    · rw [toNat_mul_of_lt (by rwa [hcount, htype]), hcount, htype, hbytes]
    · have hle := Nat.mul_le_mul_left e.count.toNat
        (Nat.le_mul_of_pos_left e.arraySizeMultiplier.toNat e.size_pos)
      rw [toNat_mul_of_lt (by rw [hcount]; omega), hcount, ArrayNew.elements]
  unfold emitCXXNewAllocSize umulOv uaddOv at h ⊢
  dsimp only at h ⊢
  by_cases hcookie : e.calculateCookiePadding = 0
  · rw [if_neg (not_not.mpr hcookie)] at h ⊢
    rcases not_overflow h with ⟨hov, heq⟩
    rcases hexact hov with ⟨hprod, hnum⟩
    refine ⟨?_, hnum⟩
    rw [heq, hcookie]
    exact hprod
  · rw [if_pos hcookie] at h ⊢
    rcases not_overflow h with ⟨hov, heq⟩
    dsimp only at hov
    rw [Bool.or_eq_false_iff, decide_eq_false_iff_not, not_le] at hov
    rcases hexact hov.1 with ⟨hprod, hnum⟩
    refine ⟨?_, hnum⟩
    rw [heq, toNat_add_of_lt hov.2, hprod]

/-- The elements of an array divide its block evenly, and each one's offset is
that of an element, exactly if there is nothing before them. -/
theorem offsets_iff {n s c : ℕ} (hn : 0 < n) (hs : 0 < s) :
    (∀ i < n, ∀ off, c + i * s ≤ off → off < c + (i + 1) * s →
      (n * s + c) % n = 0 ∧ (n * s + c) / n ≠ 0 ∧
        off - off % ((n * s + c) / n) = c + i * s) ↔ c = 0 := by
  constructor
  · intro h
    obtain ⟨hmod, -, hfirst⟩ := h 0 hn c (by omega) (by omega)
    have hdvd : n ∣ c := by
      rw [Nat.mul_add_mod] at hmod
      exact Nat.dvd_of_mod_eq_zero hmod
    rcases hdvd with ⟨k, rfl⟩
    have hdiv : (n * s + n * k) / n = s + k := by
      rw [← Nat.mul_add, Nat.mul_div_cancel_left _ hn]
    rw [hdiv] at hfirst
    by_contra hk
    have hk0 : 0 < k := Nat.pos_of_ne_zero fun hz => hk (by rw [hz, Nat.mul_zero])
    by_cases h1 : n = 1
    · -- a single element is smaller than what is taken for its size
      subst h1
      rw [Nat.mod_eq_of_lt (by omega)] at hfirst
      omega
    · -- the second element starts where no element would
      obtain ⟨-, -, hsecond⟩ := h 1 (by omega) (n * k + s) (by omega) (by omega)
      rw [hdiv] at hsecond
      have hle := Nat.mod_le (n * k) (s + k)
      have hle' := Nat.mod_le (n * k + s) (s + k)
      have hz : (n * k) % (s + k) = 0 := by omega
      have hz' : (n * k + s) % (s + k) = 0 := by omega
      rw [Nat.add_mod, hz, Nat.zero_add, Nat.mod_mod, Nat.mod_eq_of_lt (by omega)] at hz'
      omega
  · rintro rfl i hi off hlo hhi
    have hdiv : (n * s + 0) / n = s := by
      rw [Nat.add_zero, Nat.mul_div_cancel_left _ hn]
    rw [hdiv]
    refine ⟨by simp, by omega, ?_⟩
    have hoff : off = i * s + (off - i * s) := by omega
    have hlt : off - i * s < s := by
      rw [Nat.succ_mul] at hhi
      omega
    have hmod : off % s = off - i * s := by
      rw [hoff, Nat.mul_add_mod', Nat.mod_eq_of_lt (by omega)]
      omega
    omega

/-! ## The allocation -/

variable {s s' : HeapState} {l : Ledger} {flags : Flags} {e : ArrayNew} {o : Objects}

/-- Where the block of a `new` is. -/
theorem operatorNew_space (hr : RegionsOk s.regions) (choice : Choice) (size : Uptr) :
    wlp (operatorNew choice size)
      (fun p _ => p ≠ 0 → size ≤ kMaxAllowedMallocSize ∧ BlockSpace p size) s := by
  unfold operatorNew cverReallocate cverAllocate
  rw [if_pos rfl, wlp_ite]
  split
  · exact wlp_allocatorReturnNull fun h0 => absurd rfl h0
  · next hsize =>
    rw [wlp_bind]
    refine (allocate_space hr choice size).mono ?_
    intro p s₁ hp
    simp only [wlp_bind, wlp_pure, if_neg Bool.false_ne_true]
    intro _ _ _ _ _ _ h0
    exact ⟨UInt64.not_lt.mp hsize, hp h0⟩

/-- The array's block and its record. The record of a block that the primary
allocator does not own is not known. -/
structure Emitted (e : ArrayNew) (rv result : Uptr) (s : HeapState) : Prop where
  size : (emitCXXNewAllocSize e).1.toNat = e.bytes + e.calculateCookiePadding.toNat
  elements : (emitCXXNewAllocSize e).2.toNat = e.elements
  result : result.toNat = rv.toNat + e.calculateCookiePadding.toNat
  primary : (emitCXXNewAllocSize e).1.toNat ≤ 2 ^ 17 → (pointerIsMine rv = true ∧
    (emitCXXNewAllocSize e).1.toNat ≤ (classSize (getSizeClass rv)).toNat) ∧
    ∃ l, Inv s l ∧
      l rv = .live ⟨(emitCXXNewAllocSize e).1, e.typeTable, (emitCXXNewAllocSize e).2⟩
  large : 2 ^ 17 < (emitCXXNewAllocSize e).1.toNat → ∀ q : Uptr, rv.toNat ≤ q.toNat →
    q.toNat < rv.toNat + (emitCXXNewAllocSize e).1.toNat → pointerIsMine q = false

/-- Registering a new block of the primary allocator. -/
theorem handleNew_fresh {rv size t n : Uptr} (h : Inv s (l.alloc rv size)) (h0 : rv ≠ 0)
    (hm : pointerIsMine rv = true) (hcheck : flags.noCheck = false)
    (hnew : flags.noHandleNew = false) :
    wlp (handleNew flags t rv n) (fun _ s' => (∃ l', Inv s' l' ∧ l' rv = .live ⟨size, t, n⟩) ∧
      s'.regions = s.regions) s := by
  have hlive : l.alloc rv size rv = .live ⟨size, 0, 0⟩ := Ledger.alloc_self h0
  rcases h.live hm hlive with ⟨-, c, i, hc, hrv, -⟩
  have hpos := carved_classSize_pos h.regions hc hrv
  simp only [handleNew, hcheck, hnew, Bool.or_self, Bool.false_eq_true, if_false, wlp_bind,
    wlp_pure]
  refine wlp_of_wp (h.handleNew hm hlive le_rfl (by omega) t n) ?_
  intro _ s' hinv
  refine ⟨⟨_, hinv.1, ?_⟩, hinv.2⟩
  rw [Ledger.register, Ledger.onLive_self, hlive]
  rfl

section Cookie

variable {rv size : Uptr} (hend : rv.toNat + size.toNat ≤ 2 ^ 47)
  (hsize : e.getArrayCookieSizeImpl.toNat ≤ size.toNat)

include hend hsize

/-- The elements are behind the cookie. -/
theorem initializeArrayCookie_result (n : Uptr) :
    wlp (initializeArrayCookie e rv n) (fun r _ =>
      r.toNat = rv.toNat + e.getArrayCookieSizeImpl.toNat) s := by
  simp only [initializeArrayCookie, storeWord, wlp_bind, wlp_modify, wlp_pure]
  exact toNat_add_of_lt (by omega)

/-- The cookie is written to the block's own memory. -/
theorem initializeArrayCookie_keeps (h : Inv s l) (huser : UserMemory s.regions rv size)
    (n : Uptr) : wlp (initializeArrayCookie e rv n) (fun _ s' => Inv s' l) s := by
  have h8 : (8 : Uptr).toNat = 8 := rfl
  have hle := e.le_getArrayCookieSizeImpl
  have hsub : (e.getArrayCookieSizeImpl - 8).toNat = e.getArrayCookieSizeImpl.toNat - 8 :=
    UInt64.toNat_sub_of_le _ _ (UInt64.le_iff_toNat_le.mpr hle)
  simp only [initializeArrayCookie, storeWord, wlp_bind, wlp_modify, wlp_pure]
  refine h.of_mem fun a ha => Function.update_of_ne ?_ _ _
  rintro rfl
  have hn := toNat_add_of_lt (show rv.toNat + (e.getArrayCookieSizeImpl - 8).toNat < 2 ^ 64 by
    omega)
  exact huser _ (by omega) (by omega) ha

end Cookie

/-- What the emitted code leaves behind. -/
theorem emitCXXNewExpr_spec (h : Inv s l) (hcheck : flags.noCheck = false)
    (hnew : flags.noHandleNew = false) (choice : Choice) (e : ArrayNew) :
    wlp (emitCXXNewExpr flags choice e)
      (fun r s' => r.1 ≠ 0 → Emitted e r.1 r.2 s') s := by
  have halloc : wlp (operatorNew choice (emitCXXNewAllocSize e).1) (fun p s' =>
      Inv s' (l.alloc p (emitCXXNewAllocSize e).1) ∧
      (p ≠ 0 → UserMemory s'.regions p (emitCXXNewAllocSize e).1) ∧
      (pointerIsMine p = true → ∀ md, l p ≠ .live md)) s :=
    h.cverAllocate choice _ 8 false
  unfold emitCXXNewExpr
  rw [wlp_bind]
  refine (halloc.and (operatorNew_space h.regions choice _)).mono ?_
  rintro rv s₁ ⟨⟨hinv, huser, -⟩, hspace⟩
  by_cases h0 : rv = 0
  · -- no block
    simp only [wlp_bind, wlp_ite, wlp_pure, h0]
    intro _ s₂ _
    split
    · exact fun _ _ _ h0 => absurd rfl h0
    · exact fun h0 => absurd rfl h0
  rcases hspace h0 with ⟨hmax, ⟨hend, hmine, hforeign⟩⟩
  rcases emitCXXNewAllocSize_eq hmax with ⟨hsize, hnum⟩
  -- the record is known after `handleNew` and does not change with the cookie
  have hrecord : wlp (handleNew flags e.typeTable rv (emitCXXNewAllocSize e).2) (fun _ s₂ =>
      (emitCXXNewAllocSize e).1.toNat ≤ 2 ^ 17 →
        (∃ l', Inv s₂ l' ∧ l' rv = .live
          ⟨(emitCXXNewAllocSize e).1, e.typeTable, (emitCXXNewAllocSize e).2⟩) ∧
        UserMemory s₂.regions rv (emitCXXNewAllocSize e).1) s₁ := by
    intro u s₂ hrun hle
    rcases (handleNew_fresh hinv h0 (hmine hle).1 hcheck hnew).elim hrun with ⟨hinv₂, hregions⟩
    exact ⟨hinv₂, hregions ▸ huser h0⟩
  rw [wlp_bind]
  refine hrecord.mono ?_
  intro _ s₂ hs₂
  rw [wlp_ite]
  split
  · next hcookie =>
    have hpad : e.calculateCookiePadding = e.getArrayCookieSizeImpl := by
      unfold ArrayNew.calculateCookiePadding at hcookie ⊢
      split at hcookie
      · next hreq => rw [if_pos hreq]
      · exact absurd rfl hcookie
    have hle : e.getArrayCookieSizeImpl.toNat ≤ (emitCXXNewAllocSize e).1.toNat := by
      rw [hsize, hpad]
      exact Nat.le_add_left _ _
    rw [wlp_bind]
    intro result s₃ hrun
    have hresult := (initializeArrayCookie_result hend hle _).elim hrun
    rw [wlp_pure]
    refine fun _ => ⟨hsize, hnum, hpad ▸ hresult, fun hsmall => ⟨hmine hsmall, ?_⟩, hforeign⟩
    rcases hs₂ hsmall with ⟨⟨l', hinv', hlive⟩, huser'⟩
    exact ⟨l', (initializeArrayCookie_keeps hend hle hinv' huser' _).elim hrun, hlive⟩
  · next hcookie =>
    rw [ne_eq, not_not] at hcookie
    rw [wlp_pure]
    refine fun _ => ⟨hsize, hnum, ?_, fun hle => ⟨hmine hle, (hs₂ hle).1⟩, hforeign⟩
    rw [hcookie]
    rfl

/-! ## The elements -/

/-- Neither the stack of the current thread nor a global overlaps the block. -/
def HeapOnly (o : Objects) (p size : Uptr) : Prop :=
  ∀ q : Uptr, p.toNat ≤ q.toNat → q.toNat < p.toNat + size.toNat →
    NotOnStack o q ∧ lookupObject o.globals q = some none

/-- Every pointer into an element is judged with the array's type table against
the element's address. No check fails on the way. -/
def ElementsFound (flags : Flags) (o : Objects) (e : ArrayNew) (a : Uptr) : Prop :=
  ∀ i < e.elements, ∀ q : Uptr, a.toNat + i * e.typeSize.toNat ≤ q.toNat →
    q.toNat < a.toNat + (i + 1) * e.typeSize.toNat →
    ∃ l, locate flags o q = some (some l) ∧ l.containVec = e.typeTable ∧
      (adjustUserAllocBeg l q).map (·.toNat) = some (a.toNat + i * e.typeSize.toNat)

/-- Elements are in the block. -/
theorem element_inBlock {i : ℕ} (hi : i < e.elements) :
    (i + 1) * e.typeSize.toNat ≤ e.bytes := Nat.mul_le_mul_right _ hi

section Found

variable {rv a : Uptr} (hemit : Emitted e rv a s')
  (hapart : HeapOnly o rv (emitCXXNewAllocSize e).1)

include hemit hapart

/-- Elements in a mapping are not found: no record is looked at. -/
theorem Emitted.not_found (hn : 0 < e.elements)
    (hbig : 2 ^ 17 < (emitCXXNewAllocSize e).1.toNat) : ¬ ElementsFound flags o e a := by
  intro hfound
  have hs := e.size_pos
  have hresult := hemit.result
  have hsize := hemit.size
  have hfirst := element_inBlock hn
  rw [Nat.zero_add, Nat.one_mul] at hfirst
  obtain ⟨hstack, hglobal⟩ := hapart a (by omega) (by omega)
  have hm := hemit.large hbig a (by omega) (by omega)
  obtain ⟨l, hl, -⟩ := hfound 0 hn a (by omega) (by omega)
  rw [locate_none hstack hm hglobal] at hl
  exact absurd hl (by simp)

/-- What is found for an address of an element: the arithmetic is that of the
whole block. -/
theorem Emitted.found_iff (ho : o.heap = s')
    (hsmall : (emitCXXNewAllocSize e).1.toNat ≤ 2 ^ 17) {i : ℕ} (hi : i < e.elements)
    {q : Uptr} (hlo : a.toNat + i * e.typeSize.toNat ≤ q.toNat)
    (hhi : q.toNat < a.toNat + (i + 1) * e.typeSize.toNat) (x : ℕ) :
    (∃ l, locate flags o q = some (some l) ∧ l.containVec = e.typeTable ∧
      (adjustUserAllocBeg l q).map (·.toNat) = some x) ↔
    (e.bytes + e.calculateCookiePadding.toNat) % e.elements = 0 ∧
      (e.bytes + e.calculateCookiePadding.toNat) / e.elements ≠ 0 ∧
      q.toNat - (q.toNat - rv.toNat) %
        ((e.bytes + e.calculateCookiePadding.toNat) / e.elements) = x := by
  rcases hemit.primary hsmall with ⟨⟨hm, hle⟩, l', hinv, hlive⟩
  have hresult := hemit.result
  have hsize := hemit.size
  have hnum : (emitCXXNewAllocSize e).2 ≠ 0 := by
    intro hz
    have helements := hemit.elements
    rw [hz, show (0 : Uptr).toNat = 0 from rfl] at helements
    omega
  have hend := element_inBlock hi
  have hin : InBlock rv q := ⟨by omega, by omega⟩
  have hstack := (hapart q (by omega) (by omega)).1
  have hloc : locate flags o q = _ := hinv.locate hm hlive ho hin hstack
  rw [hloc, Metadata.located, if_neg e.table_ne, ← hsize, ← hemit.elements]
  rw [← adjustUserAllocBeg_toNat hin.1 hnum x]
  constructor
  · rintro ⟨l, hl, -, hadjust⟩
    cases hl
    exact hadjust
  · intro hadjust
    exact ⟨_, rfl, rfl, hadjust⟩

end Found

/-- The elements of an array are found exactly if it has no cookie, and its
block is one of the primary allocator. -/
theorem newArray_elements (h : Reachable flags s l) (hcheck : flags.noCheck = false)
    (hnew : flags.noHandleNew = false) {choice : Choice} {rv a : Uptr} (hcount : 0 < e.count)
    (hrun : emitCXXNewExpr flags choice e s = some ((rv, a), s')) (hrv : rv ≠ 0)
    (ho : o.heap = s') (hapart : HeapOnly o rv (emitCXXNewAllocSize e).1) :
    ElementsFound flags o e a ↔ e.calculateCookiePadding = 0 ∧ e.bytes ≤ 2 ^ 17 := by
  have hemit : Emitted e rv a s' := (emitCXXNewExpr_spec h.inv hcheck hnew choice e).elim hrun hrv
  have hn : 0 < e.elements := Nat.mul_pos (by omega) e.multiplier_pos
  have hresult := hemit.result
  have hsize := hemit.size
  have hcookie : e.calculateCookiePadding = 0 ↔ e.calculateCookiePadding.toNat = 0 := by
    rw [← UInt64.toNat_inj]
    rfl
  by_cases hbig : 2 ^ 17 < (emitCXXNewAllocSize e).1.toNat
  · refine iff_of_false (hemit.not_found hapart hn hbig) ?_
    rintro ⟨hz, hle⟩
    have hzero := hcookie.mp hz
    omega
  have hsmall := not_lt.mp hbig
  have hspace := (pointerIsMine_iff rv).mp (hemit.primary hsmall).1.1
  have hclass := (hemit.primary hsmall).1.2
  have hfit : e.bytes ≤ 2 ^ 17 := by omega
  rw [hcookie, and_iff_left hfit, ← offsets_iff hn e.size_pos]
  -- addresses of the block are offsets from its start
  have hshift : ∀ off k x, rv.toNat + off - off % k = rv.toNat + x ↔ off - off % k = x := by
    intro off k x
    have hmod := Nat.mod_le off k
    omega
  have hbase : ∀ i, a.toNat + i * e.typeSize.toNat =
      rv.toNat + (e.calculateCookiePadding.toNat + i * e.typeSize.toNat) := by
    intro i
    rw [hresult, Nat.add_assoc]
  constructor
  · intro h i hi off hlo hhi
    have hend := element_inBlock hi
    have hbounds := hbase i
    have hbounds' := hbase (i + 1)
    have hlt : rv.toNat + off < 2 ^ 64 := by omega
    have hq : (UInt64.ofNat (rv.toNat + off)).toNat = rv.toNat + off :=
      UInt64.toNat_ofNat_of_lt' hlt
    have hfind := (hemit.found_iff hapart ho hsmall hi
      (q := UInt64.ofNat (rv.toNat + off)) (by omega) (by omega) _).mp
      (h i hi _ (by omega) (by omega))
    rw [hq, Nat.add_sub_cancel_left, hbase, hshift] at hfind
    exact hfind
  · intro h i hi q hlo hhi
    have hbounds := hbase i
    have hbounds' := hbase (i + 1)
    have hoff : q.toNat = rv.toNat + (q.toNat - rv.toNat) := by omega
    refine (hemit.found_iff hapart ho hsmall hi hlo hhi _).mpr ?_
    rw [hbase, hoff, Nat.add_sub_cancel_left, hshift]
    exact h i hi _ (by omega) (by omega)

/-! ## Small arrays -/

/-- `new T[count]` for a `T` of a few bytes, whose table is at `0x500000`. -/
def smallArray (count : ℤ) (typeSize : Uptr) (h : 0 < typeSize.toNat) (isDestructedType : Bool) :
    ArrayNew where
  count := count
  minElements := 0
  arraySizeMultiplier := 1
  typeSize := typeSize
  typeAlign := 2
  typeTable := 0x500000
  usualArrayDeleteWantsSize := false
  isDestructedType := isDestructedType
  size_pos := h
  multiplier_pos := by decide
  size_fits := (Nat.mul_one _).trans_lt typeSize.toNat_lt
  table_ne := by decide

/-- The allocation and the registration, where the array is the only block. -/
theorem emitCXXNewExpr_small {size n : Uptr} (hsize : emitCXXNewAllocSize e = (size, n))
    (h0 : size ≠ 0) (hclass : classId size = 1) (hmax : size ≤ kMaxSize)
    {Q : Uptr × Uptr → HeapState → Prop} :
    wp (emitCXXNewExpr {} ⟨0, 0⟩ e) Q grownHeap ↔
      wp (if e.calculateCookiePadding ≠ 0 then do
          let result ← initializeArrayCookie e 0x602000000000 n
          return (0x602000000000, result)
        else return (0x602000000000, 0x602000000000)) Q (smallHeap ⟨size, e.typeTable, n⟩) := by
  have hnew : operatorNew ⟨0, 0⟩ size grownHeap = some (0x602000000000, smallHeap ⟨size, 0, 0⟩) :=
    malloc_grownHeap h0 hclass hmax
  unfold emitCXXNewExpr
  rw [hsize, wp_bind, wp_eval hnew, wp_bind, wp_eval (handleNew_smallHeap _ _ _)]

/-- Two elements of 8 bytes, without a cookie. -/
theorem newArray_elements_two :
    ElementsFound {} ⟨none, smallHeap ⟨16, 0x500000, 2⟩, rbtreeCreate .empty⟩
      (smallArray 2 8 (by decide) false) 0x602000000000 := by
  have hreach : Reachable {} grownHeap fun _ => .never := grownHeap_reachable
  have hrun : emitCXXNewExpr {} ⟨0, 0⟩ (smallArray 2 8 (by decide) false) grownHeap =
      some ((0x602000000000, 0x602000000000), smallHeap ⟨16, 0x500000, 2⟩) := by
    have hsize : emitCXXNewAllocSize (smallArray 2 8 (by decide) false) = (16, 2) := by decide
    refine eval_of_wp ((emitCXXNewExpr_small hsize (by decide) (by decide) (by decide)).mpr ?_)
    exact ⟨_, _, rfl, rfl, rfl⟩
  have hapart : HeapOnly ⟨none, smallHeap ⟨16, 0x500000, 2⟩, rbtreeCreate .empty⟩
      0x602000000000 16 := fun q _ _ => ⟨nofun, rfl⟩
  exact (newArray_elements hreach rfl rfl (by decide) hrun (by decide) rfl hapart).mpr
    ⟨by decide, by decide⟩

/-- Three elements of 2 bytes with a destructor: the block has 14 bytes, and a
cast of the first element fails the check that 3 divides 14. -/
theorem newArray_cookie :
    Reachable {} grownHeap (fun _ => .never) ∧
    ∃ s', emitCXXNewExpr {} ⟨0, 0⟩ (smallArray 3 2 (by decide) true) grownHeap =
        some ((0x602000000000, 0x602000000008), s') ∧
      locate {} ⟨none, s', rbtreeCreate .empty⟩ 0x602000000008 =
        some (some ⟨0x500000, 3, 14, 0x602000000000⟩) ∧
      adjustUserAllocBeg ⟨0x500000, 3, 14, 0x602000000000⟩ 0x602000000008 = none := by
  have hreach : Reachable {} grownHeap fun _ => .never := grownHeap_reachable
  have hrun : wp (emitCXXNewExpr {} ⟨0, 0⟩ (smallArray 3 2 (by decide) true))
      (fun r s' => r = (0x602000000000, 0x602000000008) ∧
        locate {} ⟨none, s', rbtreeCreate .empty⟩ 0x602000000008 =
          some (some ⟨0x500000, 3, 14, 0x602000000000⟩)) grownHeap := by
    have hsize : emitCXXNewAllocSize (smallArray 3 2 (by decide) true) = (14, 3) := by decide
    refine (emitCXXNewExpr_small hsize (by decide) (by decide) (by decide)).mpr ?_
    exact ⟨_, _, rfl, rfl, rfl⟩
  rcases hrun with ⟨⟨rv, a⟩, s', hrun, hr, hloc⟩
  exact ⟨hreach, s', hr ▸ hrun, hloc, by decide⟩

end Caver.CodeGen
