import Caver.CodeGen.RecordLayout

/-!
# Caver.CodeGen.LayoutWindows — where the bases of a record go

The builder places the bases that are not empty in windows of their own, one
behind the other.

* `Stacked`: a list of bases in such windows.
* `BasesAdded`: what happens while bases are added.
* `BasesPlaced`: the builder after `layoutNonVirtualBases`.
-/

namespace Caver.CodeGen

namespace Records

variable {R : Records} {E : Decisions} {c : ℕ}

/-! ## The recursive definitions -/

theorem any_congr_mem {α : Type} {p q : α → Bool} {xs : List α} (h : ∀ x ∈ xs, p x = q x) :
    xs.any p = xs.any q := by
  induction xs with
  | nil => rfl
  | cons x xs ih =>
    rw [List.any_cons, List.any_cons, h x List.mem_cons_self,
      ih fun y hy => h y (List.mem_cons_of_mem x hy)]

theorem all_congr_mem {α : Type} {p q : α → Bool} {xs : List α} (h : ∀ x ∈ xs, p x = q x) :
    xs.all p = xs.all q := by
  induction xs with
  | nil => rfl
  | cons x xs ih =>
    rw [List.all_cons, List.all_cons, h x List.mem_cons_self,
      ih fun y hy => h y (List.mem_cons_of_mem x hy)]

theorem hasVBases_eq (R : Records) (c : ℕ) :
    R.hasVBases c = (R.record c).bases.any fun b => b.isVirtual || R.hasVBases b.cls := by
  refine recBelow_eq (fun c f g h => ?_) c
  refine any_congr_mem ?_
  intro b hb
  rw [h b.cls (R.bases_lt c b hb)]

theorem isPolymorphic_eq (R : Records) (c : ℕ) :
    R.isPolymorphic c = ((R.record c).hasVirtualFunctions ||
      (R.record c).bases.any fun b => R.isPolymorphic b.cls) := by
  refine recBelow_eq (fun c f g h => ?_) c
  refine congrArg _ (any_congr_mem fun b hb => ?_)
  rw [h b.cls (R.bases_lt c b hb)]

theorem isEmpty_eq (R : Records) (c : ℕ) :
    R.isEmpty c = (!(R.record c).hasVirtualFunctions &&
      (R.record c).fields.all (·.bitWidth == some 0) &&
      (R.record c).bases.all fun b => !b.isVirtual && R.isEmpty b.cls) := by
  refine recBelow_eq (fun c f g h => ?_) c
  refine congrArg _ (all_congr_mem fun b hb => ?_)
  rw [h b.cls (R.bases_lt c b hb)]

theorem vbases_eq (R : Records) (c : ℕ) :
    R.vbases c = (R.record c).bases.flatMap fun b =>
      (if b.isVirtual then [b.cls] else []) ++ R.vbases b.cls := by
  refine recBelow_eq (fun c f g h => ?_) c
  refine List.flatMap_congr ?_
  intro b hb
  rw [h b.cls (R.bases_lt c b hb)]

theorem nearlyEmptyVBases_eq (R : Records) (L : ℕ → RecordLayout) (c : ℕ) :
    R.nearlyEmptyVBases L c = (R.record c).bases.flatMap fun b =>
      (if b.isVirtual && R.isNearlyEmpty L b.cls then [b.cls] else []) ++
        R.nearlyEmptyVBases L b.cls := by
  refine recBelow_eq (fun c f g h => ?_) c
  refine List.flatMap_congr ?_
  intro b hb
  rw [h b.cls (R.bases_lt c b hb)]

/-- The layouts of the bases of a class. -/
def below (R : Records) (E : Decisions) (c d : ℕ) : RecordLayout :=
  if d < c then R.layout E d else default

theorem layout_eq (R : Records) (E : Decisions) (c : ℕ) :
    R.layout E c = R.layoutRecord E (R.below E c) c := by
  refine recBelow_eq (fun c f g h => ?_) c
  congr 1
  funext d
  split
  · next hd => exact h d hd
  · rfl

theorem below_of_lt {d : ℕ} (hd : d < c) : R.below E c d = R.layout E d := if_pos hd

/-- A class with a vtable pointer is not empty. -/
theorem isEmpty_of_dynamic (h : R.isDynamicClass c = true) : R.isEmpty c = false := by
  induction c using Nat.strongRecOn with
  | ind c ih =>
    rw [← Bool.not_eq_true]
    intro hempty
    rw [isEmpty_eq, Bool.and_eq_true, Bool.and_eq_true, Bool.not_eq_true'] at hempty
    rcases hempty with ⟨⟨hfun, -⟩, hbases⟩
    rw [List.all_eq_true] at hbases
    have hbase : ∀ b ∈ (R.record c).bases, b.isVirtual = false ∧ R.isEmpty b.cls = true := by
      intro b hb
      have hb' := hbases b hb
      rwa [Bool.and_eq_true, Bool.not_eq_true'] at hb'
    -- the reason is a base, which is empty too
    have hno : ∀ b ∈ (R.record c).bases, R.isDynamicClass b.cls ≠ true := by
      intro b hb hdyn
      have hb' := ih b.cls (R.bases_lt c b hb) hdyn
      rw [(hbase b hb).2] at hb'
      exact absurd hb' (by decide)
    rw [isDynamicClass, isPolymorphic_eq, hfun, hasVBases_eq] at h
    simp only [Bool.false_or, Bool.or_eq_true, List.any_eq_true] at h
    rcases h with ⟨b, hb, hpoly⟩ | ⟨b, hb, hvirt | hv⟩
    · exact hno b hb (by rw [isDynamicClass, hpoly, Bool.true_or])
    · rw [(hbase b hb).1] at hvirt
      exact absurd hvirt (by decide)
    · exact hno b hb (by rw [isDynamicClass, hv, Bool.or_true])

theorem mem_nearlyEmptyVBases {L : ℕ → RecordLayout} {v : ℕ} (h : v ∈ R.nearlyEmptyVBases L c) :
    R.isNearlyEmpty L v = true ∧ v < c := by
  induction c using Nat.strongRecOn with
  | ind c ih =>
    rw [nearlyEmptyVBases_eq, List.mem_flatMap] at h
    rcases h with ⟨b, hb, h⟩
    have hlt := R.bases_lt c b hb
    rw [List.mem_append] at h
    rcases h with h | h
    · split at h
      · next hv =>
        rw [Bool.and_eq_true] at hv
        rw [List.mem_singleton.mp h]
        exact ⟨hv.2, hlt⟩
      · exact absurd h List.not_mem_nil
    · rcases ih b.cls hlt h with ⟨hv, hvlt⟩
      exact ⟨hv, hvlt.trans hlt⟩

/-- A non-virtual primary base is a base with a vtable pointer. -/
theorem determinePrimaryBase_nonVirtual {L : ℕ → RecordLayout} {p : ℕ}
    (h : R.determinePrimaryBase L c = some (p, false)) :
    R.isDynamicClass p = true ∧ ∃ b ∈ (R.record c).bases, b.cls = p := by
  unfold determinePrimaryBase at h
  split at h
  · split at h
    · next b hfind =>
      have hb := List.find?_some hfind
      have hmem := List.mem_of_find?_eq_some hfind
      rw [Bool.and_eq_true] at hb
      obtain rfl : b.cls = p := by simpa using h
      exact ⟨hb.2, b, hmem, rfl⟩
    · simp at h
  · cases h

/-- A virtual primary base is nearly empty. -/
theorem determinePrimaryBase_virtual {L : ℕ → RecordLayout} {v : ℕ}
    (h : R.determinePrimaryBase L c = some (v, true)) :
    R.isNearlyEmpty L v = true ∧ v < c := by
  unfold determinePrimaryBase at h
  split at h
  · split at h
    · simp at h
    · next hfind =>
      rw [Option.map_eq_some_iff] at h
      rcases h with ⟨w, hw, heq⟩
      obtain rfl : w = v := by simpa using heq
      rw [Option.or_eq_some_iff] at hw
      rcases hw with hw | ⟨-, hw⟩
      · exact mem_nearlyEmptyVBases (List.mem_of_find?_eq_some hw)
      · exact mem_nearlyEmptyVBases (List.mem_of_head? hw)
  · cases h

theorem determinePrimaryBase_dynamic {L : ℕ → RecordLayout} {p : ℕ × Bool}
    (h : R.determinePrimaryBase L c = some p) : R.isDynamicClass c = true := by
  unfold determinePrimaryBase at h
  split at h
  · assumption
  · cases h

/-! ## Windows -/

/-- The bases of a list that are not empty are in windows one behind the other,
between `lo` and `hi`. -/
structure Stacked (empty : ℕ → Bool) (size : ℕ → ℕ) (lo : ℕ) (xs : List (ℕ × ℕ)) (hi : ℕ) :
    Prop where
  le : lo ≤ hi
  within : ∀ x ∈ xs, empty x.1 = false → lo ≤ x.2 ∧ x.2 + size x.1 ≤ hi
  apart : xs.Pairwise fun x y => empty x.1 = false → empty y.1 = false → x.2 + size x.1 ≤ y.2

variable {empty : ℕ → Bool} {size : ℕ → ℕ} {lo hi hi' : ℕ} {xs : List (ℕ × ℕ)} {x : ℕ × ℕ}

theorem Stacked.nil (h : lo ≤ hi) : Stacked empty size lo [] hi :=
  ⟨h, fun _ hx => absurd hx List.not_mem_nil, .nil⟩

theorem Stacked.widen (h : Stacked empty size lo xs hi) (hle : hi ≤ hi') :
    Stacked empty size lo xs hi' :=
  ⟨h.le.trans hle, fun x hx hne => ⟨(h.within x hx hne).1, (h.within x hx hne).2.trans hle⟩,
    h.apart⟩

/-- One more base, behind the others. -/
theorem Stacked.snoc (h : Stacked empty size lo xs hi) (hle : hi ≤ hi')
    (hx : empty x.1 = false → hi ≤ x.2 ∧ x.2 + size x.1 ≤ hi') :
    Stacked empty size lo (xs ++ [x]) hi' := by
  refine ⟨h.le.trans hle, ?_, ?_⟩
  · intro y hy hne
    rcases List.mem_append.mp hy with hy | hy
    · exact (h.widen hle).within y hy hne
    · rw [List.mem_singleton.mp hy] at hne ⊢
      have hx' := hx hne
      exact ⟨h.le.trans hx'.1, hx'.2⟩
  · rw [List.pairwise_append]
    refine ⟨h.apart, List.pairwise_singleton _ _, ?_⟩
    intro y hy z hz hney hnez
    rw [List.mem_singleton.mp hz] at hnez ⊢
    exact (h.within y hy hney).2.trans (hx hnez).1

theorem le_roundUpToAlignment {n a : ℕ} (ha : 0 < a) : n ≤ roundUpToAlignment n a := by
  have hdiv := Nat.div_add_mod (n + a - 1) a
  have hmod := Nat.mod_lt (n + a - 1) ha
  unfold roundUpToAlignment
  rw [Nat.mul_comm]
  omega

theorem roundUpToAlignment_zero {a : ℕ} (ha : 0 < a) : roundUpToAlignment 0 a = 0 := by
  have hdiv : (0 + a - 1) / a = 0 := Nat.div_eq_of_lt (by omega)
  rw [roundUpToAlignment, hdiv, Nat.zero_mul]

theorem capAlignment_pos {m a : ℕ} (ha : 0 < a) : 0 < capAlignment m a := by
  unfold capAlignment
  split <;> omega

/-- Layouts that can be those of bases. -/
def Aligned (L : ℕ → RecordLayout) : Prop := ∀ d, 0 < (L d).nonVirtualAlignment

variable {L : ℕ → RecordLayout} {st st' : Builder}

/-- What `layoutBase` does for the base `b`. -/
structure BasePlaced (R : Records) (L : ℕ → RecordLayout) (b : ℕ) (st : Builder)
    (r : ℕ × Builder) : Prop where
  fieldOffsets : r.2.fieldOffsets = st.fieldOffsets
  unfilled : r.2.unfilledBitsInLastUnit = st.unfilledBitsInLastUnit
  bases : r.2.bases = st.bases
  vbases : r.2.vbases = st.vbases
  dataSize_le : st.dataSize ≤ r.2.dataSize
  size_le : st.dataSize ≤ st.size → r.2.dataSize ≤ r.2.size
  alignment_le : st.alignment ≤ r.2.alignment
  window : R.isEmpty b = false →
    st.dataSize ≤ r.1 ∧ r.1 + (L b).nonVirtualSize = r.2.dataSize

theorem baseAlign_pos (hL : Aligned L) (p : Bool) (m d : ℕ) :
    0 < capAlignment m (if p then 1 else (L d).nonVirtualAlignment) := by
  refine capAlignment_pos ?_
  split
  · exact Nat.one_pos
  · exact hL d

theorem layoutBase_placed (hL : Aligned L) (st : Builder) (b : BaseSpecifier) :
    BasePlaced R L b.cls st (R.layoutBase E L c st b) := by
  have hround := le_roundUpToAlignment (n := st.dataSize)
    (baseAlign_pos hL (R.record c).packed (R.record c).maxFieldAlignment b.cls)
  unfold layoutBase
  dsimp only
  split
  · next hempty =>
    -- an empty base at the start
    rw [Bool.and_eq_true] at hempty
    refine ⟨rfl, rfl, rfl, rfl, le_rfl, ?_, ?_, ?_⟩
    · intro hle
      exact hle.trans (le_max_left _ _)
    · exact le_max_left _ _
    · intro hne
      rw [hempty.1] at hne
      exact absurd hne (by decide)
  · split
    · next hempty =>
      refine ⟨rfl, rfl, rfl, rfl, le_rfl, ?_, ?_, ?_⟩
      · intro hle
        exact hle.trans (le_max_left _ _)
      · exact le_max_left _ _
      · intro hne
        rw [hempty] at hne
        exact absurd hne (by decide)
    · refine ⟨rfl, rfl, rfl, rfl, ?_, ?_, ?_, ?_⟩
      · dsimp only
        omega
      · intro _
        exact le_max_right _ _
      · exact le_max_left _ _
      · intro _
        refine ⟨?_, rfl⟩
        dsimp only
        omega

/-- The first base is at the start. -/
theorem layoutBase_first (hL : Aligned L) {b : BaseSpecifier} (hb : R.isEmpty b.cls = false)
    (hdata : st.dataSize = 0) (hbases : st.bases = []) (hvbases : st.vbases = [])
    (hfields : st.fieldOffsets = []) : (R.layoutBase E L c st b).1 = 0 := by
  have hzero := roundUpToAlignment_zero
    (baseAlign_pos hL (R.record c).packed (R.record c).maxFieldAlignment b.cls)
  unfold layoutBase
  simp [hb, hdata, hbases, hvbases, hfields, hzero]

/-- What happens to the builder while the bases `bs` are added to one of its two
lists of bases. -/
structure BasesAdded (R : Records) (L : ℕ → RecordLayout) (list other : Builder → List (ℕ × ℕ))
    (bs : List ℕ) (st st' : Builder) : Prop where
  fieldOffsets : st'.fieldOffsets = st.fieldOffsets
  unfilled : st'.unfilledBitsInLastUnit = st.unfilledBitsInLastUnit
  other_eq : other st' = other st
  dataSize_le : st.dataSize ≤ st'.dataSize
  size_le : st.dataSize ≤ st.size → st'.dataSize ≤ st'.size
  alignment_le : st.alignment ≤ st'.alignment
  stacked : ∀ lo, Stacked R.isEmpty (fun d => (L d).nonVirtualSize) lo (list st) st.dataSize →
    Stacked R.isEmpty (fun d => (L d).nonVirtualSize) lo (list st') st'.dataSize
  added : ∀ x ∈ list st', x ∈ list st ∨
    x.1 ∈ bs ∧ (R.isEmpty x.1 = false → st.dataSize ≤ x.2)

variable {list other : Builder → List (ℕ × ℕ)} {bs bs' : List ℕ}

theorem BasesAdded.refl (bs : List ℕ) (st : Builder) : BasesAdded R L list other bs st st where
  fieldOffsets := rfl
  unfilled := rfl
  other_eq := rfl
  dataSize_le := le_rfl
  size_le := id
  alignment_le := le_rfl
  stacked := fun _ h => h
  added := fun _ hx => Or.inl hx

theorem BasesAdded.trans {st₁ st₂ : Builder} (h : BasesAdded R L list other bs st st₁)
    (h' : BasesAdded R L list other bs' st₁ st₂) :
    BasesAdded R L list other (bs ++ bs') st st₂ where
  fieldOffsets := h'.fieldOffsets.trans h.fieldOffsets
  unfilled := h'.unfilled.trans h.unfilled
  other_eq := h'.other_eq.trans h.other_eq
  dataSize_le := h.dataSize_le.trans h'.dataSize_le
  size_le := fun hle => h'.size_le (h.size_le hle)
  alignment_le := h.alignment_le.trans h'.alignment_le
  stacked := fun lo hs => h'.stacked lo (h.stacked lo hs)
  added := by
    intro x hx
    rcases h'.added x hx with hx | ⟨hmem, hle⟩
    · rcases h.added x hx with hx | ⟨hmem, hle⟩
      · exact Or.inl hx
      · exact Or.inr ⟨List.mem_append_left _ hmem, hle⟩
    · exact Or.inr ⟨List.mem_append_right _ hmem, fun hne => h.dataSize_le.trans (hle hne)⟩

/-- One base more. -/
theorem BasePlaced.added {b : ℕ} {r : ℕ × Builder} (h : BasePlaced R L b st r)
    (hlist : list st' = list st ++ [(b, r.1)]) (hother : other st' = other st)
    (hst : st' = { r.2 with bases := st'.bases, vbases := st'.vbases }) :
    BasesAdded R L list other [b] st st' := by
  have hdata : st'.dataSize = r.2.dataSize := by rw [hst]
  refine ⟨?_, ?_, hother, ?_, ?_, ?_, ?_, ?_⟩
  · rw [hst]
    exact h.fieldOffsets
  · rw [hst]
    exact h.unfilled
  · rw [hst]
    exact h.dataSize_le
  · rw [hst]
    exact h.size_le
  · rw [hst]
    exact h.alignment_le
  · intro lo hs
    rw [hlist, hdata]
    refine hs.snoc h.dataSize_le ?_
    intro hne
    exact ⟨(h.window hne).1, (h.window hne).2.le⟩
  · intro x hx
    rw [hlist] at hx
    rcases List.mem_append.mp hx with hx | hx
    · exact Or.inl hx
    · rw [List.mem_singleton.mp hx]
      exact Or.inr ⟨List.mem_singleton_self b, fun hne => (h.window hne).1⟩

theorem layoutNonVirtualBase_bases (hL : Aligned L) (st : Builder) (b : ℕ) :
    (R.layoutNonVirtualBase E L c st b).bases =
      st.bases ++ [(b, (R.layoutBase E L c st ⟨b, false⟩).1)] := by
  rw [← (layoutBase_placed (R := R) (E := E) (c := c) hL st ⟨b, false⟩).bases]
  rfl

theorem layoutVirtualBase_vbases (hL : Aligned L) (st : Builder) (b : ℕ) :
    (R.layoutVirtualBase E L c st b).vbases =
      st.vbases ++ [(b, (R.layoutBase E L c st ⟨b, true⟩).1)] := by
  rw [← (layoutBase_placed (R := R) (E := E) (c := c) hL st ⟨b, true⟩).vbases]
  rfl

theorem layoutNonVirtualBase_added (hL : Aligned L) (st : Builder) (b : ℕ) :
    BasesAdded R L Builder.bases Builder.vbases [b] st (R.layoutNonVirtualBase E L c st b) := by
  have h := layoutBase_placed (R := R) (E := E) (c := c) hL st ⟨b, false⟩
  exact h.added (layoutNonVirtualBase_bases hL st b) h.vbases rfl

theorem layoutVirtualBase_added (hL : Aligned L) (st : Builder) (b : ℕ) :
    BasesAdded R L Builder.vbases Builder.bases [b] st (R.layoutVirtualBase E L c st b) := by
  have h := layoutBase_placed (R := R) (E := E) (c := c) hL st ⟨b, true⟩
  exact h.added (layoutVirtualBase_vbases hL st b) h.bases rfl

/-! ## The non-virtual part -/

theorem foldl_layoutNonVirtualBase (hL : Aligned L) (others : List BaseSpecifier) (st : Builder) :
    BasesAdded R L Builder.bases Builder.vbases (others.map (·.cls)) st
      (others.foldl (fun st b => R.layoutNonVirtualBase E L c st b.cls) st) := by
  induction others generalizing st with
  | nil => exact .refl _ st
  | cons b others ih => exact (layoutNonVirtualBase_added hL st b.cls).trans (ih _)

/-- The builder when the primary base or the vtable pointer is in place. -/
structure Started (R : Records) (L : ℕ → RecordLayout) (c : ℕ) (st : Builder) : Prop where
  fieldOffsets : st.fieldOffsets = []
  unfilled : st.unfilledBitsInLastUnit = 0
  size_le : st.dataSize ≤ st.size
  alignment_pos : 0 < st.alignment
  stacked : Stacked R.isEmpty (fun d => (L d).nonVirtualSize) 0 st.bases st.dataSize
  stacked_virtual : Stacked R.isEmpty (fun d => (L d).nonVirtualSize) 0 st.vbases st.dataSize
  bases : ∀ x ∈ st.bases, x.2 = 0 ∧ R.isDynamicClass x.1 = true ∧
    ∃ b ∈ (R.record c).bases, b.cls = x.1
  vbases : ∀ x ∈ st.vbases, x.2 = 0 ∧ R.determinePrimaryBase L c = some (x.1, true)
  vptr : R.isDynamicClass c = true → 8 ≤ st.dataSize

theorem initializeLayout_pos (R : Records) (c : ℕ) : 0 < (R.initializeLayout c).alignment :=
  Nat.lt_of_lt_of_le Nat.one_pos (le_max_left _ _)

/-- The primary base is the first one, and at the start. -/
theorem started_primary {list other : Builder → List (ℕ × ℕ)} {p : ℕ} {v : Bool} {st : Builder}
    (hL : Aligned L) (hp : R.isEmpty p = false)
    (hadded : BasesAdded R L list other [p] (R.initializeLayout c) st)
    (hst : list st = [(p, (R.layoutBase E L c (R.initializeLayout c) ⟨p, v⟩).1)])
    (hdata : st.dataSize = (R.layoutBase E L c (R.initializeLayout c) ⟨p, v⟩).2.dataSize) :
    list st = [(p, 0)] ∧ st.dataSize = (L p).nonVirtualSize ∧ st.fieldOffsets = [] ∧
      st.unfilledBitsInLastUnit = 0 ∧ st.dataSize ≤ st.size ∧ 0 < st.alignment ∧
      Stacked R.isEmpty (fun d => (L d).nonVirtualSize) 0 [(p, 0)] st.dataSize := by
  have hplaced := layoutBase_placed (R := R) (E := E) (c := c) hL (R.initializeLayout c) ⟨p, v⟩
  have hfirst : (R.layoutBase E L c (R.initializeLayout c) ⟨p, v⟩).1 = 0 :=
    layoutBase_first hL hp rfl rfl rfl rfl
  have hwindow := (hplaced.window hp).2
  rw [hfirst, Nat.zero_add] at hwindow
  rw [hfirst] at hst
  have hsize : st.dataSize = (L p).nonVirtualSize := hdata.trans hwindow.symm
  refine ⟨hst, hsize, hadded.fieldOffsets, hadded.unfilled, hadded.size_le le_rfl, ?_, ?_⟩
  · exact (initializeLayout_pos R c).trans_le hadded.alignment_le
  · refine ⟨Nat.zero_le _, ?_, List.pairwise_singleton _ _⟩
    intro x hx _
    rw [List.mem_singleton.mp hx, hsize]
    exact ⟨le_rfl, (Nat.zero_add _).le⟩

/-- What the first part of `layoutNonVirtualBases` leaves. -/
def startLayout (R : Records) (E : Decisions) (L : ℕ → RecordLayout) (c : ℕ) (st : Builder) :
    Builder :=
  match R.determinePrimaryBase L c with
  | some (base, true) => R.layoutVirtualBase E L c st base
  | some (base, false) => R.layoutNonVirtualBase E L c st base
  | none => if R.isDynamicClass c then R.layoutVTablePointer c st else st

/-- In layouts of bases, there is room for the vtable pointer. -/
def RoomForVPtr (R : Records) (L : ℕ → RecordLayout) (c : ℕ) : Prop :=
  ∀ d < c, R.isDynamicClass d = true → 8 ≤ (L d).nonVirtualSize

/-- A virtual primary base is nearly empty, and so as large as the vtable pointer. -/
theorem started_virtual (hL : Aligned L) {v : ℕ}
    (hprimary : R.determinePrimaryBase L c = some (v, true)) :
    Started R L c (R.layoutVirtualBase E L c (R.initializeLayout c) v) := by
  have hv := determinePrimaryBase_virtual hprimary
  rw [isNearlyEmpty, Bool.and_eq_true, beq_iff_eq] at hv
  have hadded := layoutVirtualBase_added (R := R) (E := E) (c := c) hL (R.initializeLayout c) v
  rcases started_primary hL (isEmpty_of_dynamic hv.1.1) hadded
      (layoutVirtualBase_vbases hL _ v) rfl with
      ⟨hlist, hdata, hfields, hunfilled, hsize, halign, hstacked⟩
  refine ⟨hfields, hunfilled, hsize, halign, ?_, ?_, ?_, ?_, ?_⟩
  · rw [hadded.other_eq]
    exact .nil (Nat.zero_le _)
  · rw [hlist]
    exact hstacked
  · rw [hadded.other_eq]
    intro x hx
    exact absurd hx List.not_mem_nil
  · rw [hlist]
    intro x hx
    rw [List.mem_singleton.mp hx]
    exact ⟨rfl, hprimary⟩
  · intro _
    rw [hdata, hv.1.2]
    exact le_rfl

/-- A non-virtual primary base has a vtable pointer. -/
theorem started_nonVirtual (hL : Aligned L) (hroom : RoomForVPtr R L c) {p : ℕ}
    (hprimary : R.determinePrimaryBase L c = some (p, false)) :
    Started R L c (R.layoutNonVirtualBase E L c (R.initializeLayout c) p) := by
  rcases determinePrimaryBase_nonVirtual hprimary with ⟨hp, b, hb, rfl⟩
  have hadded :=
    layoutNonVirtualBase_added (R := R) (E := E) (c := c) hL (R.initializeLayout c) b.cls
  rcases started_primary hL (isEmpty_of_dynamic hp) hadded
      (layoutNonVirtualBase_bases hL _ b.cls) rfl with
      ⟨hlist, hdata, hfields, hunfilled, hsize, halign, hstacked⟩
  refine ⟨hfields, hunfilled, hsize, halign, ?_, ?_, ?_, ?_, ?_⟩
  · rw [hlist]
    exact hstacked
  · rw [hadded.other_eq]
    exact .nil (Nat.zero_le _)
  · rw [hlist]
    intro x hx
    rw [List.mem_singleton.mp hx]
    exact ⟨rfl, hp, b, hb, rfl⟩
  · rw [hadded.other_eq]
    intro x hx
    exact absurd hx List.not_mem_nil
  · intro _
    rw [hdata]
    exact hroom b.cls (R.bases_lt c b hb) hp

/-- A vtable pointer of its own. -/
theorem started_vtablePointer : Started R L c (R.layoutVTablePointer c (R.initializeLayout c)) where
  fieldOffsets := rfl
  unfilled := rfl
  size_le := le_rfl
  alignment_pos := (initializeLayout_pos R c).trans_le (le_max_left _ _)
  stacked := .nil (Nat.zero_le _)
  stacked_virtual := .nil (Nat.zero_le _)
  bases := fun _ hx => absurd hx List.not_mem_nil
  vbases := fun _ hx => absurd hx List.not_mem_nil
  vptr := fun _ => Nat.le_add_left _ _

/-- Neither. -/
theorem started_nothing (hdyn : R.isDynamicClass c ≠ true) :
    Started R L c (R.initializeLayout c) where
  fieldOffsets := rfl
  unfilled := rfl
  size_le := le_rfl
  alignment_pos := initializeLayout_pos R c
  stacked := .nil le_rfl
  stacked_virtual := .nil le_rfl
  bases := fun _ hx => absurd hx List.not_mem_nil
  vbases := fun _ hx => absurd hx List.not_mem_nil
  vptr := fun h => absurd h hdyn

theorem startLayout_started (hL : Aligned L) (hroom : RoomForVPtr R L c) :
    Started R L c (startLayout R E L c (R.initializeLayout c)) := by
  unfold startLayout
  split
  · next v hprimary => exact started_virtual hL hprimary
  · next p hprimary => exact started_nonVirtual hL hroom hprimary
  · split
    · exact started_vtablePointer
    · next hdyn => exact started_nothing hdyn

/-- The builder when the non-virtual bases are in place. -/
structure BasesPlaced (R : Records) (L : ℕ → RecordLayout) (c : ℕ) (st : Builder) : Prop where
  fieldOffsets : st.fieldOffsets = []
  unfilled : st.unfilledBitsInLastUnit = 0
  size_le : st.dataSize ≤ st.size
  alignment_pos : 0 < st.alignment
  stacked : Stacked R.isEmpty (fun d => (L d).nonVirtualSize) 0 st.bases st.dataSize
  stacked_virtual : Stacked R.isEmpty (fun d => (L d).nonVirtualSize) 0 st.vbases st.dataSize
  bases : ∀ x ∈ st.bases, ∃ b ∈ (R.record c).bases, b.cls = x.1
  vbases : ∀ x ∈ st.vbases, x.2 = 0 ∧ R.determinePrimaryBase L c = some (x.1, true)
  vptr : R.isDynamicClass c = true → 8 ≤ st.dataSize
  behind_vptr : R.isDynamicClass c = true → ∀ x ∈ st.bases, R.isEmpty x.1 = false →
    8 ≤ x.2 ∨ x.2 = 0 ∧ R.isDynamicClass x.1 = true

theorem layoutNonVirtualBases_placed (hL : Aligned L) (hroom : RoomForVPtr R L c) :
    BasesPlaced R L c (R.layoutNonVirtualBases E L c (R.initializeLayout c)) := by
  have hstart := startLayout_started (E := E) hL hroom
  have hadded := foldl_layoutNonVirtualBase (R := R) (E := E) (c := c) hL
    ((R.record c).bases.filter fun b =>
      !b.isVirtual && R.determinePrimaryBase L c != some (b.cls, false))
    (startLayout R E L c (R.initializeLayout c))
  change BasesPlaced R L c (List.foldl _ (startLayout R E L c (R.initializeLayout c)) _)
  constructor
  · exact hadded.fieldOffsets.trans hstart.fieldOffsets
  · exact hadded.unfilled.trans hstart.unfilled
  · exact hadded.size_le hstart.size_le
  · exact hstart.alignment_pos.trans_le hadded.alignment_le
  · exact hadded.stacked 0 hstart.stacked
  · rw [hadded.other_eq]
    exact hstart.stacked_virtual.widen hadded.dataSize_le
  · intro x hx
    rcases hadded.added x hx with hx | ⟨hx, -⟩
    · exact (hstart.bases x hx).2.2
    · rcases List.mem_map.mp hx with ⟨b, hb, heq⟩
      exact ⟨b, List.mem_of_mem_filter hb, heq⟩
  · rw [hadded.other_eq]
    exact hstart.vbases
  · exact fun hdyn => (hstart.vptr hdyn).trans hadded.dataSize_le
  · intro hdyn x hx hne
    rcases hadded.added x hx with hx | ⟨-, hle⟩
    · have hx' := hstart.bases x hx
      exact Or.inr ⟨hx'.1, hx'.2.1⟩
    · exact Or.inl ((hstart.vptr hdyn).trans (hle hne))

/-- The bases of the fold. -/
theorem mem_foldl_layoutNonVirtualBase (hL : Aligned L) (others : List BaseSpecifier)
    (st : Builder) {b : ℕ} (hb : (∃ o, (b, o) ∈ st.bases) ∨ ∃ s ∈ others, s.cls = b) :
    ∃ o, (b, o) ∈ (others.foldl (fun st b => R.layoutNonVirtualBase E L c st b.cls) st).bases := by
  induction others generalizing st with
  | nil =>
    rcases hb with hb | ⟨s, hs, -⟩
    · exact hb
    · exact absurd hs List.not_mem_nil
  | cons a others ih =>
    refine ih _ ?_
    rw [layoutNonVirtualBase_bases hL]
    rcases hb with ⟨o, ho⟩ | ⟨s, hs, rfl⟩
    · exact Or.inl ⟨o, List.mem_append_left _ ho⟩
    · rcases List.mem_cons.mp hs with rfl | hs
      · exact Or.inl ⟨_, List.mem_append_right _ (List.mem_singleton_self _)⟩
      · exact Or.inr ⟨s, hs, rfl⟩

/-- Every non-virtual base is laid out. -/
theorem mem_layoutNonVirtualBases (hL : Aligned L) {b : BaseSpecifier}
    (hb : b ∈ (R.record c).bases) (hvirtual : b.isVirtual = false) (st : Builder) :
    ∃ o, (b.cls, o) ∈ (R.layoutNonVirtualBases E L c st).bases := by
  refine mem_foldl_layoutNonVirtualBase hL _ (startLayout R E L c st) ?_
  by_cases hprimary : R.determinePrimaryBase L c = some (b.cls, false)
  · left
    rw [startLayout, hprimary]
    dsimp only
    rw [layoutNonVirtualBase_bases hL]
    exact ⟨_, List.mem_append_right _ (List.mem_singleton_self _)⟩
  · refine Or.inr ⟨b, List.mem_filter.mpr ⟨hb, ?_⟩, rfl⟩
    rw [hvirtual, Bool.not_false, Bool.true_and, bne_iff_ne]
    exact hprimary

end Records

end Caver.CodeGen
