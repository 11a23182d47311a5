import Caver.CodeGen.LayoutWindows
import Mathlib.Data.List.Forall2

/-!
# Caver.CodeGen.LaidOut — the finished layout of a class

The fields come behind the non-virtual bases, and the virtual bases behind the
fields.

* `FieldsLaid`: what `layoutFields` does.
* `layout_eq_stages`: the layout, by the stages of the builder.
* `LaidOut`: what holds of the layout of every class (`laidOut`).
-/

namespace Caver.CodeGen

namespace Records

variable {R : Records} {E : Decisions} {c : ℕ} {L : ℕ → RecordLayout} {st st' : Builder}

/-! ## Fields -/

/-- The bits before this one are used up. -/
def Builder.bitEnd (st : Builder) : ℕ := st.dataSize * 8 - st.unfilledBitsInLastUnit

theorem bitEnd_le (st : Builder) : st.bitEnd ≤ st.dataSize * 8 := Nat.sub_le _ _

/-- What happens to the builder while the fields `fs` are laid out. -/
structure FieldsLaid (fs : List RecordField) (st st' : Builder) : Prop where
  bases : st'.bases = st.bases
  vbases : st'.vbases = st.vbases
  size_le : st.dataSize ≤ st.size → st'.dataSize ≤ st'.size
  alignment_le : st.alignment ≤ st'.alignment
  bitEnd_le : st.bitEnd ≤ st'.bitEnd
  placed : ∃ os, st'.fieldOffsets = st.fieldOffsets ++ os ∧
    List.Forall₂ (fun o f => st.bitEnd ≤ o ∧ o + RecordField.bits f ≤ st'.bitEnd) os fs

theorem FieldsLaid.refl (st : Builder) : FieldsLaid [] st st :=
  ⟨rfl, rfl, id, le_rfl, le_rfl, [], (List.append_nil _).symm, .nil⟩

theorem FieldsLaid.trans {fs fs' : List RecordField} {st₁ st₂ : Builder}
    (h : FieldsLaid fs st st₁) (h' : FieldsLaid fs' st₁ st₂) : FieldsLaid (fs ++ fs') st st₂ where
  bases := h'.bases.trans h.bases
  vbases := h'.vbases.trans h.vbases
  size_le := fun hle => h'.size_le (h.size_le hle)
  alignment_le := h.alignment_le.trans h'.alignment_le
  bitEnd_le := h.bitEnd_le.trans h'.bitEnd_le
  placed := by
    rcases h.placed with ⟨os, hos, hplaced⟩
    rcases h'.placed with ⟨os', hos', hplaced'⟩
    refine ⟨os ++ os', ?_, ?_⟩
    · rw [hos', hos, List.append_assoc]
    · refine List.rel_append (hplaced.imp ?_) (hplaced'.imp ?_)
      · intro o f hof
        exact ⟨hof.1, hof.2.trans h'.bitEnd_le⟩
      · intro o f hof
        exact ⟨h.bitEnd_le.trans hof.1, hof.2⟩

theorem le_roundUp_bytes (n : ℕ) : n ≤ roundUpToAlignment n 8 / 8 * 8 := by
  have hround := le_roundUpToAlignment (n := n) (a := 8) (by decide)
  unfold roundUpToAlignment at hround ⊢
  omega

theorem le_ite_roundUp {p : Prop} [Decidable p] {n a : ℕ} (ha : 0 < a) :
    n ≤ if p then roundUpToAlignment n a else n := by
  split
  · exact le_roundUpToAlignment ha
  · exact le_rfl

/-- A field whose bits are placed behind those in use. -/
theorem placeBits_laid {f : RecordField} {o align : ℕ} (st : Builder) (ho : st.bitEnd ≤ o) :
    FieldsLaid [f] st (placeBits st o f.bits align) := by
  have hbytes := le_roundUp_bytes (o + f.bits)
  have hend : (placeBits st o f.bits align).bitEnd = o + f.bits := by
    unfold Builder.bitEnd placeBits
    dsimp only
    omega
  refine ⟨rfl, rfl, fun _ => le_max_right _ _, le_max_left _ _, ?_, [o], rfl, ?_⟩
  · rw [hend]
    omega
  · refine .cons ⟨ho, ?_⟩ .nil
    rw [hend]

theorem layoutWideBitField_laid {f : RecordField} (st : Builder) :
    FieldsLaid [f] st (layoutWideBitField st f.bits) := by
  refine placeBits_laid st ((bitEnd_le st).trans (le_roundUpToAlignment ?_))
  -- some integral type, or char
  cases htype : (integralPODSizes.takeWhile (· ≤ f.bits)).getLast? with
  | none => decide
  | some typeSize =>
    have hmem := (List.takeWhile_prefix _).mem (List.mem_of_getLast? htype)
    have hpos : ∀ n ∈ integralPODSizes, 0 < n := by decide
    exact hpos typeSize hmem

theorem layoutBitField_laid {f : RecordField} {width : ℕ} (hf : 0 < f.typeAlign)
    (hwidth : f.bitWidth = some width) (st : Builder) :
    FieldsLaid [f] st (R.layoutBitField c st f width) := by
  obtain rfl : f.bits = width := by rw [RecordField.bits, hwidth, Option.getD_some]
  unfold layoutBitField
  dsimp only
  split
  · exact layoutWideBitField_laid st
  · have hpos : 0 < max
        (if (((R.record c).packed || f.packed) && f.bits != 0) = true then 1 else f.typeAlign * 8)
        (f.maxAlignment * 8) := by
      refine Nat.lt_of_lt_of_le ?_ (le_max_left _ _)
      split <;> omega
    refine placeBits_laid st (le_ite_roundUp ?_)
    split
    · exact hpos
    · exact capAlignment_pos hpos

theorem layoutField_laid {x : RecordField × ℕ} (hx : 0 < x.1.typeAlign) (st : Builder) :
    FieldsLaid [x.1] st (R.layoutField E c st x) := by
  rcases x with ⟨f, index⟩
  unfold layoutField
  dsimp only
  split
  · next width hwidth => exact layoutBitField_laid hx hwidth st
  · next hwidth =>
    have hbits : f.bits = f.typeSize * 8 := by rw [RecordField.bits, hwidth, Option.getD_none]
    have hend := bitEnd_le st
    have hpos : 0 < capAlignment (R.record c).maxFieldAlignment
        (max (if ((R.record c).packed || f.packed) = true then 1 else f.typeAlign)
          f.maxAlignment) := by
      refine capAlignment_pos (Nat.lt_of_lt_of_le ?_ (le_max_left _ _))
      split
      · exact Nat.one_pos
      · exact hx
    have hround := le_roundUpToAlignment (n := st.dataSize) hpos
    refine ⟨rfl, rfl, fun _ => le_max_right _ _, le_max_left _ _, ?_, [_], rfl,
      .cons ⟨?_, ?_⟩ .nil⟩
    · unfold Builder.bitEnd at hend ⊢
      dsimp only
      omega
    · omega
    · rw [hbits]
      unfold Builder.bitEnd
      dsimp only
      omega

theorem layoutFields_laid (st : Builder) :
    FieldsLaid (R.record c).fields st (R.layoutFields E c st) := by
  have hall : ∀ (fs : List RecordField) (k : ℕ) (st : Builder), (∀ f ∈ fs, 0 < f.typeAlign) →
      FieldsLaid fs st ((fs.zipIdx k).foldl (R.layoutField E c) st) := by
    intro fs
    induction fs with
    | nil =>
      intro k st _
      exact .refl st
    | cons f fs ih =>
      intro k st hpos
      have hone := layoutField_laid (R := R) (E := E) (c := c) (x := (f, k))
        (hpos f List.mem_cons_self) st
      exact hone.trans (ih (k + 1) _ fun g hg => hpos g (List.mem_cons_of_mem f hg))
  exact hall _ 0 st (R.align_pos c)

/-! ## The virtual bases -/

theorem layoutVirtualBases_added (hL : Aligned L) (st : Builder) :
    BasesAdded R L Builder.vbases Builder.bases (R.virtualBaseOrder L c) st
      (R.layoutVirtualBases E L c st) := by
  have hall : ∀ (order : List ℕ) (st : Builder),
      BasesAdded R L Builder.vbases Builder.bases order st
        (order.foldl (fun st v =>
          if (R.getIndirectPrimaryBases L c).contains v || st.vbases.any (·.1 == v) then st
          else R.layoutVirtualBase E L c st v) st) := by
    intro order
    induction order with
    | nil => exact fun st => .refl _ st
    | cons v order ih =>
      intro st
      rw [List.foldl_cons]
      split
      · exact (BasesAdded.refl [v] st).trans (ih _)
      · exact (layoutVirtualBase_added hL st v).trans (ih _)
  exact hall _ st

/-! ## The finished layout -/

/-- The layout of a class: the non-virtual bases and the vtable pointer before
`lo`, the fields from `lo` to `hi`, and then the virtual bases. -/
structure LaidOut (R : Records) (E : Decisions) (c lo hi : ℕ) : Prop where
  alignment_pos : 0 < (R.layout E c).nonVirtualAlignment
  lo_le : lo ≤ hi
  hi_le : hi ≤ (R.layout E c).nonVirtualSize
  vptr : R.isDynamicClass c = true → 8 ≤ lo
  bases : ∀ x ∈ (R.layout E c).bases, ∃ b ∈ (R.record c).bases, b.cls = x.1
  stacked : Stacked R.isEmpty (fun d => (R.below E c d).nonVirtualSize) 0 (R.layout E c).bases lo
  behind_vptr : R.isDynamicClass c = true → ∀ x ∈ (R.layout E c).bases,
    R.isEmpty x.1 = false → 8 ≤ x.2 ∨ x.2 = 0 ∧ R.isDynamicClass x.1 = true
  fields : List.Forall₂ (fun o f => lo * 8 ≤ o ∧ o + RecordField.bits f ≤ hi * 8)
    (R.layout E c).fieldOffsets (R.record c).fields
  stacked_virtual : ∃ top,
    Stacked R.isEmpty (fun d => (R.below E c d).nonVirtualSize) 0 (R.layout E c).vbases top
  virtual : ∀ x ∈ (R.layout E c).vbases,
    ((R.layout E c).primaryBase = some (x.1, true) ∧ x.2 = 0) ∨
      (R.isEmpty x.1 = false → hi ≤ x.2)
  primary : ∀ v, (R.layout E c).primaryBase = some (v, true) →
    R.isDynamicClass v = true ∧ (R.layout E v).nonVirtualSize = 8
  primary_dynamic : ∀ p, (R.layout E c).primaryBase = some p → R.isDynamicClass c = true

theorem le_finishLayout {st : Builder} (h : 0 < st.alignment) : st.size ≤ R.finishLayout c st := by
  unfold finishLayout
  refine le_trans ?_ (le_roundUpToAlignment h)
  split
  · next hsize =>
    rw [Bool.and_eq_true, decide_eq_true_iff] at hsize
    omega
  · exact le_rfl

/-- The layouts that `layoutVirtualBases` sees. -/
def withPrimary (R : Records) (L : ℕ → RecordLayout) (c : ℕ) : ℕ → RecordLayout :=
  Function.update L c { L c with primaryBase := R.determinePrimaryBase L c }

@[simp] theorem withPrimary_nonVirtualSize (d : ℕ) :
    (withPrimary R L c d).nonVirtualSize = (L d).nonVirtualSize := by
  unfold withPrimary
  by_cases h : d = c
  · rw [h, Function.update_self]
  · rw [Function.update_of_ne h]

@[simp] theorem withPrimary_nonVirtualAlignment (d : ℕ) :
    (withPrimary R L c d).nonVirtualAlignment = (L d).nonVirtualAlignment := by
  unfold withPrimary
  by_cases h : d = c
  · rw [h, Function.update_self]
  · rw [Function.update_of_ne h]

theorem aligned_below (h : ∀ d < c, 0 < (R.layout E d).nonVirtualAlignment) :
    Aligned (R.below E c) := by
  intro d
  unfold below
  split
  · next hd => exact h d hd
  · decide

theorem withPrimary_aligned (hL : Aligned L) : Aligned (withPrimary R L c) := by
  intro d
  rw [withPrimary_nonVirtualAlignment]
  exact hL d

theorem layoutVirtualBases_withPrimary (hL : Aligned L) (st : Builder) :
    BasesAdded R L Builder.vbases Builder.bases (R.virtualBaseOrder (withPrimary R L c) c) st
      (R.layoutVirtualBases E (withPrimary R L c) c st) := by
  have h := layoutVirtualBases_added (R := R) (E := E) (c := c)
    (withPrimary_aligned (R := R) (c := c) hL) st
  refine ⟨h.fieldOffsets, h.unfilled, h.other_eq, h.dataSize_le, h.size_le, h.alignment_le, ?_,
    h.added⟩
  simpa only [withPrimary_nonVirtualSize] using h.stacked

/-- The builder of a class with its non-virtual bases. -/
def basesStage (R : Records) (E : Decisions) (c : ℕ) : Builder :=
  R.layoutNonVirtualBases E (R.below E c) c (R.initializeLayout c)

/-- And with its fields. -/
def fieldsStage (R : Records) (E : Decisions) (c : ℕ) : Builder :=
  R.layoutFields E c (basesStage R E c)

/-- And with its virtual bases. -/
def virtualStage (R : Records) (E : Decisions) (c : ℕ) : Builder :=
  R.layoutVirtualBases E (withPrimary R (R.below E c) c) c (fieldsStage R E c)

theorem layout_eq_stages (R : Records) (E : Decisions) (c : ℕ) : R.layout E c =
    { size := R.finishLayout c (virtualStage R E c)
      nonVirtualSize :=
        if (R.record c).skipTailPadding then R.finishLayout c (virtualStage R E c)
        else (fieldsStage R E c).size
      nonVirtualAlignment := (fieldsStage R E c).alignment
      primaryBase := R.determinePrimaryBase (R.below E c) c
      fieldOffsets := (fieldsStage R E c).fieldOffsets
      bases := (fieldsStage R E c).bases
      vbases := (virtualStage R E c).vbases } :=
  layout_eq R E c

/-- The layout of a class, if those of smaller classes are as they should be. -/
theorem laidOut_of_below (hL : Aligned (R.below E c)) (hroom : RoomForVPtr R (R.below E c) c) :
    ∃ lo hi, LaidOut R E c lo hi := by
  have hlayout := layout_eq_stages R E c
  have hbases : BasesPlaced R (R.below E c) c (basesStage R E c) :=
    layoutNonVirtualBases_placed hL hroom
  have hfields : FieldsLaid (R.record c).fields (basesStage R E c) (fieldsStage R E c) :=
    layoutFields_laid _
  have hvirtual := layoutVirtualBases_withPrimary (R := R) (E := E) (c := c) hL (fieldsStage R E c)
  change BasesAdded _ _ _ _ _ _ (virtualStage R E c) at hvirtual
  generalize basesStage R E c = st₁ at *
  generalize fieldsStage R E c = st₂ at *
  generalize virtualStage R E c = st₃ at *
  -- the parts before the fields, the fields, and the whole
  have hstart : st₁.bitEnd = st₁.dataSize * 8 := by
    rw [Builder.bitEnd, hbases.unfilled, Nat.sub_zero]
  have hfieldsEnd := bitEnd_le st₂
  have hle : st₁.dataSize ≤ st₂.dataSize := by
    have hmono := hfields.bitEnd_le
    omega
  have hsize₂ : st₂.dataSize ≤ st₂.size := hfields.size_le hbases.size_le
  have hsize₃ : st₃.dataSize ≤ st₃.size := hvirtual.size_le hsize₂
  have halign₂ : 0 < st₂.alignment := hbases.alignment_pos.trans_le hfields.alignment_le
  have halign₃ : 0 < st₃.alignment := halign₂.trans_le hvirtual.alignment_le
  have hfinish := le_finishLayout (R := R) (c := c) halign₃
  refine ⟨st₁.dataSize, st₂.dataSize, ?_⟩
  constructor
  · rw [hlayout]
    exact halign₂
  · exact hle
  · rw [hlayout]
    dsimp only
    split
    · exact (hvirtual.dataSize_le.trans hsize₃).trans hfinish
    · exact hsize₂
  · exact hbases.vptr
  · rw [hlayout]
    dsimp only
    rw [hfields.bases]
    exact hbases.bases
  · rw [hlayout]
    dsimp only
    rw [hfields.bases]
    exact hbases.stacked
  · rw [hlayout]
    dsimp only
    rw [hfields.bases]
    exact hbases.behind_vptr
  · rcases hfields.placed with ⟨os, hos, hplaced⟩
    rw [hbases.fieldOffsets, List.nil_append] at hos
    rw [hlayout]
    dsimp only
    rw [hos]
    refine hplaced.imp ?_
    intro o f hof
    omega
  · refine ⟨st₃.dataSize, ?_⟩
    rw [hlayout]
    refine hvirtual.stacked 0 ?_
    rw [hfields.vbases]
    exact hbases.stacked_virtual.widen hle
  · rw [hlayout]
    intro x hx
    rcases hvirtual.added x hx with hx | ⟨-, hx⟩
    · rw [hfields.vbases] at hx
      exact Or.inl ⟨(hbases.vbases x hx).2, (hbases.vbases x hx).1⟩
    · exact Or.inr hx
  · rw [hlayout]
    intro v hv
    rcases determinePrimaryBase_virtual hv with ⟨hnear, hlt⟩
    rw [isNearlyEmpty, Bool.and_eq_true, beq_iff_eq, below_of_lt hlt] at hnear
    exact hnear
  · rw [hlayout]
    exact fun p hp => determinePrimaryBase_dynamic hp

/-- How a class is laid out. -/
theorem laidOut (R : Records) (E : Decisions) (c : ℕ) : ∃ lo hi, LaidOut R E c lo hi := by
  induction c using Nat.strongRecOn with
  | ind c ih =>
    refine laidOut_of_below ?_ ?_
    · refine aligned_below ?_
      intro d hd
      rcases ih d hd with ⟨lo, hi, h⟩
      exact h.alignment_pos
    · intro d hd hdyn
      rcases ih d hd with ⟨lo, hi, h⟩
      rw [below_of_lt hd]
      exact (h.vptr hdyn).trans (h.lo_le.trans h.hi_le)

/-- Every non-virtual base has an offset. -/
theorem mem_layout_bases (E : Decisions) {b : BaseSpecifier} (hb : b ∈ (R.record c).bases)
    (hvirtual : b.isVirtual = false) : ∃ o, (b.cls, o) ∈ (R.layout E c).bases := by
  have hL : Aligned (R.below E c) := by
    refine aligned_below ?_
    intro d _
    rcases laidOut R E d with ⟨lo, hi, h⟩
    exact h.alignment_pos
  rw [layout_eq_stages]
  dsimp only
  rw [fieldsStage, (layoutFields_laid _).bases]
  exact mem_layoutNonVirtualBases hL hb hvirtual _

end Records

end Caver.CodeGen
