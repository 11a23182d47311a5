import Caver.CodeGen.Inheritance

/-!
# Caver.CodeGen.RecordLayout — how a class is laid out

`RecordLayoutBuilder` for the Itanium C++ ABI on a 64-bit target, for records
that are no unions.

* `Records`: the definitions of the classes. Sizes and alignments of field types
  are given; they are in chars, and bit-fields have widths in bits.
* `Decisions`: what `EmptySubobjectMap` refuses, and which base has claimed a
  virtual base as its primary one. No layout rule depends on more than that.
* `Records.layout`: the layout of a class, from those of its bases. The builder
  keeps its sizes in bits but only ever stores whole chars, so they are in chars
  here, with the unfilled bits of the last one.
-/

namespace Caver.CodeGen

/-! ## Definitions of classes -/

/-- A field. A bit-field has a width, and `typeSize` is that of its type. -/
structure RecordField where
  typeSize : ℕ
  typeAlign : ℕ
  packed : Bool := false
  /-- From `aligned` attributes, or 0. -/
  maxAlignment : ℕ := 0
  bitWidth : Option ℕ := none
  named : Bool := true
deriving DecidableEq, Repr

/-- The bits that a field occupies. -/
def RecordField.bits (f : RecordField) : ℕ := f.bitWidth.getD (f.typeSize * 8)

structure Record where
  bases : List BaseSpecifier
  fields : List RecordField
  hasVirtualFunctions : Bool := false
  packed : Bool := false
  /-- From `#pragma pack`, or 0. -/
  maxFieldAlignment : ℕ := 0
  /-- From `aligned` attributes, or 0. -/
  maxAlignment : ℕ := 0
  /-- `mustSkipTailPadding`: the class is a POD. -/
  skipTailPadding : Bool := false

/-- The classes of a program, numbered so that bases come first. -/
structure Records where
  record : ℕ → Record
  bases_lt : ∀ c, ∀ b ∈ (record c).bases, b.cls < c
  align_pos : ∀ c, ∀ f ∈ (record c).fields, 0 < f.typeAlign
  mangledName : ℕ → String
  mangledName_inj : ∀ c d, mangledName c = mangledName d → c = d

/-- What the layout of a class takes from `EmptySubobjectMap` and from the
`BaseSubobjectInfo` graph. -/
structure Decisions where
  /-- An empty base can be placed at offset 0. -/
  emptyAtZero : ℕ → BaseSpecifier → Bool
  /-- The offsets that `CanPlaceBaseAtOffset` refuses for a base. -/
  baseSteps : ℕ → BaseSpecifier → ℕ
  /-- The offsets that `CanPlaceFieldAtOffset` refuses for a field. -/
  fieldSteps : ℕ → ℕ → ℕ
  /-- `AddPrimaryVirtualBaseOffsets`: the offset of a virtual base that is the
  primary base of another base. -/
  primaryOffset : ℕ → ℕ → ℕ

/-- `ASTRecordLayout`. `vbases` has the virtual bases that were laid out. -/
structure RecordLayout where
  size : ℕ
  nonVirtualSize : ℕ
  nonVirtualAlignment : ℕ
  /-- The primary base, and whether it is virtual. -/
  primaryBase : Option (ℕ × Bool)
  fieldOffsets : List ℕ
  bases : List (ℕ × ℕ)
  vbases : List (ℕ × ℕ)
deriving DecidableEq, Repr

instance : Inhabited RecordLayout := ⟨⟨0, 0, 1, none, [], [], []⟩⟩

namespace Records

variable (R : Records) (E : Decisions)

/-! ## Properties of classes -/

/-- `getNumVBases() != 0`. -/
def hasVBases : ℕ → Bool :=
  recBelow (fun c rec => (R.record c).bases.any fun b => b.isVirtual || rec b.cls) false

def isPolymorphic : ℕ → Bool :=
  recBelow (fun c rec =>
    (R.record c).hasVirtualFunctions || (R.record c).bases.any fun b => rec b.cls) false

def isDynamicClass (c : ℕ) : Bool := R.isPolymorphic c || R.hasVBases c

/-- `isEmpty`: no fields but zero-width bit-fields, no virtual functions or
virtual bases, and empty bases. -/
def isEmpty : ℕ → Bool :=
  recBelow (fun c rec =>
    !(R.record c).hasVirtualFunctions && (R.record c).fields.all (·.bitWidth == some 0) &&
      (R.record c).bases.all fun b => !b.isVirtual && rec b.cls) true

/-- The virtual bases, direct or indirect. -/
def vbases : ℕ → List ℕ :=
  recBelow (fun c rec =>
    (R.record c).bases.flatMap fun b => (if b.isVirtual then [b.cls] else []) ++ rec b.cls) []

/-! ## Primary bases -/

/-- The vtable pointer is 8 chars wide and aligned to 8. -/
def pointerWidth : ℕ := 8

/-- `ItaniumCXXABI::isNearlyEmpty`. -/
def isNearlyEmpty (L : ℕ → RecordLayout) (c : ℕ) : Bool :=
  R.isDynamicClass c && (L c).nonVirtualSize == pointerWidth

/-- `AddIndirectPrimaryBases`. -/
def addIndirectPrimaryBases (L : ℕ → RecordLayout) : ℕ → List ℕ :=
  recBelow (fun c rec =>
    (match (L c).primaryBase with
      | some (v, true) => [v]
      | _ => []) ++
    (R.record c).bases.flatMap fun b => if R.hasVBases b.cls then rec b.cls else []) []

/-- `getIndirectPrimaryBases`. -/
def getIndirectPrimaryBases (L : ℕ → RecordLayout) (c : ℕ) : List ℕ :=
  (R.record c).bases.flatMap fun b =>
    if R.hasVBases b.cls then R.addIndirectPrimaryBases L b.cls else []

/-- The nearly empty virtual bases, in the order in which `SelectPrimaryVBase`
meets them. -/
def nearlyEmptyVBases (L : ℕ → RecordLayout) : ℕ → List ℕ :=
  recBelow (fun c rec =>
    (R.record c).bases.flatMap fun b =>
      (if b.isVirtual && R.isNearlyEmpty L b.cls then [b.cls] else []) ++ rec b.cls) []

/-- `DeterminePrimaryBase`. -/
def determinePrimaryBase (L : ℕ → RecordLayout) (c : ℕ) : Option (ℕ × Bool) :=
  if R.isDynamicClass c then
    match (R.record c).bases.find? fun b => !b.isVirtual && R.isDynamicClass b.cls with
    | some b => some (b.cls, false)
    | none =>
      -- the first one that is no indirect primary base, or else the first one
      let candidates := R.nearlyEmptyVBases L c
      let indirect := R.getIndirectPrimaryBases L c
      ((candidates.find? (! indirect.contains ·)).or candidates.head?).map (·, true)
  else none

/-! ## The builder -/

/-- `RecordLayoutBuilder`. -/
structure Builder where
  size : ℕ
  dataSize : ℕ
  unfilledBitsInLastUnit : ℕ
  alignment : ℕ
  fieldOffsets : List ℕ
  bases : List (ℕ × ℕ)
  vbases : List (ℕ × ℕ)

/-- `llvm::RoundUpToAlignment`. -/
def roundUpToAlignment (value align : ℕ) : ℕ := (value + align - 1) / align * align

/-- "The maximum field alignment overrides". -/
def capAlignment (maxFieldAlignment align : ℕ) : ℕ :=
  if maxFieldAlignment = 0 then align else min align maxFieldAlignment

/-- `LayoutBase`: the offset of the base, and what becomes of the builder. -/
def layoutBase (L : ℕ → RecordLayout) (c : ℕ) (st : Builder) (b : BaseSpecifier) : ℕ × Builder :=
  let layout := L b.cls
  let baseAlign := if (R.record c).packed then 1 else layout.nonVirtualAlignment
  if R.isEmpty b.cls && E.emptyAtZero c b then
    (0, { st with size := max st.size layout.size, alignment := max st.alignment baseAlign })
  else
    let baseAlign := capAlignment (R.record c).maxFieldAlignment baseAlign
    -- nothing is refused before anything has been placed
    let steps :=
      if st.bases.isEmpty && st.vbases.isEmpty && st.fieldOffsets.isEmpty then 0
      else E.baseSteps c b
    let offset := roundUpToAlignment st.dataSize baseAlign + steps * baseAlign
    let alignment := max st.alignment baseAlign
    if R.isEmpty b.cls then
      (offset, { st with size := max st.size (offset + layout.size), alignment := alignment })
    else
      let dataSize := offset + layout.nonVirtualSize
      (offset, { st with
        dataSize := dataSize, size := max st.size dataSize, alignment := alignment })

/-- `LayoutNonVirtualBase`. -/
def layoutNonVirtualBase (L : ℕ → RecordLayout) (c : ℕ) (st : Builder) (base : ℕ) : Builder :=
  let (offset, st) := R.layoutBase E L c st ⟨base, false⟩
  { st with bases := st.bases ++ [(base, offset)] }

/-- `LayoutVirtualBase`. -/
def layoutVirtualBase (L : ℕ → RecordLayout) (c : ℕ) (st : Builder) (base : ℕ) : Builder :=
  let (offset, st) := R.layoutBase E L c st ⟨base, true⟩
  { st with vbases := st.vbases ++ [(base, offset)] }

/-- `EnsureVTablePointerAlignment`, and the pointer itself. -/
def layoutVTablePointer (c : ℕ) (st : Builder) : Builder :=
  let baseAlign := if (R.record c).packed then 1 else pointerWidth
  let baseAlign := capAlignment (R.record c).maxFieldAlignment baseAlign
  let size := roundUpToAlignment st.size baseAlign + pointerWidth
  { st with size := size, dataSize := size, alignment := max st.alignment baseAlign }

/-- `LayoutNonVirtualBases`. -/
def layoutNonVirtualBases (L : ℕ → RecordLayout) (c : ℕ) (st : Builder) : Builder :=
  let primaryBase := R.determinePrimaryBase L c
  let st := match primaryBase with
    | some (base, true) => R.layoutVirtualBase E L c st base
    | some (base, false) => R.layoutNonVirtualBase E L c st base
    | none => if R.isDynamicClass c then R.layoutVTablePointer c st else st
  let others := (R.record c).bases.filter fun b =>
    !b.isVirtual && primaryBase != some (b.cls, false)
  others.foldl (fun st b => R.layoutNonVirtualBase E L c st b.cls) st

/-! ## Fields -/

/-- The sizes of the integral POD types in `LayoutWideBitField`, in bits. -/
def integralPODSizes : List ℕ := [8, 16, 32, 64, 64]

/-- Reserve the bits of a bit-field. -/
def placeBits (st : Builder) (fieldOffset width align : ℕ) : Builder :=
  let newSizeInBits := fieldOffset + width
  let dataSize := roundUpToAlignment newSizeInBits 8 / 8
  { st with
    fieldOffsets := st.fieldOffsets ++ [fieldOffset]
    dataSize := dataSize
    unfilledBitsInLastUnit := dataSize * 8 - newSizeInBits
    size := max st.size dataSize
    alignment := max st.alignment align }

/-- `LayoutWideBitField`. -/
def layoutWideBitField (st : Builder) (width : ℕ) : Builder :=
  let typeSize := ((integralPODSizes.takeWhile (· ≤ width)).getLast?).getD 8
  placeBits st (roundUpToAlignment (st.dataSize * 8) typeSize) width (typeSize / 8)

/-- `LayoutBitField`. -/
def layoutBitField (c : ℕ) (st : Builder) (f : RecordField) (width : ℕ) : Builder :=
  let maxFieldAlignment := (R.record c).maxFieldAlignment
  let typeSize := f.typeSize * 8
  if width > typeSize then layoutWideBitField st width
  else
    let fieldOffset := st.dataSize * 8 - st.unfilledBitsInLastUnit
    let fieldAlign :=
      if ((R.record c).packed || f.packed) && width != 0 then 1 else f.typeAlign * 8
    let fieldAlign := max fieldAlign (f.maxAlignment * 8)
    let fieldAlign :=
      if width = 0 then fieldAlign else capAlignment (maxFieldAlignment * 8) fieldAlign
    let allowPadding := maxFieldAlignment == 0
    let fieldOffset :=
      if width = 0 || (allowPadding && (fieldOffset &&& (fieldAlign - 1)) + width > typeSize) then
        roundUpToAlignment fieldOffset fieldAlign
      else fieldOffset
    -- anonymous members do not count for the alignment of the record
    placeBits st fieldOffset width (if f.named then fieldAlign / 8 else 0)

/-- `LayoutField`. -/
def layoutField (c : ℕ) (st : Builder) (x : RecordField × ℕ) : Builder :=
  let (f, index) := x
  match f.bitWidth with
  | some width => R.layoutBitField c st f width
  | none =>
    let fieldAlign := if (R.record c).packed || f.packed then 1 else f.typeAlign
    let fieldAlign := max fieldAlign f.maxAlignment
    let fieldAlign := capAlignment (R.record c).maxFieldAlignment fieldAlign
    let fieldOffset :=
      roundUpToAlignment st.dataSize fieldAlign + E.fieldSteps c index * fieldAlign
    let dataSize := fieldOffset + f.typeSize
    { st with
      fieldOffsets := st.fieldOffsets ++ [fieldOffset * 8]
      dataSize := dataSize
      unfilledBitsInLastUnit := 0
      size := max st.size dataSize
      alignment := max st.alignment fieldAlign }

/-- `LayoutFields`. -/
def layoutFields (c : ℕ) (st : Builder) : Builder :=
  (R.record c).fields.zipIdx.foldl (R.layoutField E c) st

/-! ## Virtual bases -/

/-- The virtual bases that `LayoutVirtualBases` considers, in its order: not the
primary base of the class in whose base clause they are. -/
def virtualBaseOrder (L : ℕ → RecordLayout) : ℕ → List ℕ :=
  recBelow (fun c rec =>
    (R.record c).bases.flatMap fun b =>
      (if b.isVirtual && (L c).primaryBase != some (b.cls, true) then [b.cls] else []) ++
        (if R.hasVBases b.cls then rec b.cls else [])) []

/-- `LayoutVirtualBases`: each of them once, unless it is the primary base of
another base. -/
def layoutVirtualBases (L : ℕ → RecordLayout) (c : ℕ) (st : Builder) : Builder :=
  let indirect := R.getIndirectPrimaryBases L c
  let isVisited := fun (st : Builder) (v : ℕ) => st.vbases.any (·.1 == v)
  (R.virtualBaseOrder L c).foldl (fun st v =>
    if indirect.contains v || isVisited st v then st else R.layoutVirtualBase E L c st v) st

/-! ## The layout -/

/-- `FinishLayout`: the size of the record. -/
def finishLayout (c : ℕ) (st : Builder) : ℕ :=
  let size := if st.size = 0 && R.isEmpty c then 1 else st.size
  roundUpToAlignment size st.alignment

/-- `InitializeLayout`. -/
def initializeLayout (c : ℕ) : Builder := ⟨0, 0, 0, max 1 (R.record c).maxAlignment, [], [], []⟩

/-- `Layout`, and the record layout that `getASTRecordLayout` makes of it, for the
layouts `L` of the bases. -/
def layoutRecord (L : ℕ → RecordLayout) (c : ℕ) : RecordLayout :=
  let primaryBase := R.determinePrimaryBase L c
  let st := R.layoutFields E c (R.layoutNonVirtualBases E L c (R.initializeLayout c))
  let L' := Function.update L c { L c with primaryBase := primaryBase }
  let final := R.layoutVirtualBases E L' c st
  let size := R.finishLayout c final
  { size := size
    nonVirtualSize := if (R.record c).skipTailPadding then size else st.size
    nonVirtualAlignment := st.alignment
    primaryBase := primaryBase
    fieldOffsets := st.fieldOffsets
    bases := st.bases
    vbases := final.vbases }

/-- `getASTRecordLayout`. -/
def layout : ℕ → RecordLayout :=
  recBelow (fun c rec => R.layoutRecord E (fun d => if d < c then rec d else default) c) default

/-- `getBaseClassOffset`; it knows the direct non-virtual bases. -/
def getBaseClassOffset (c base : ℕ) : ℕ :=
  (((R.layout E c).bases.find? (·.1 == base)).map (·.2)).getD 0

/-- `getVBaseClassOffset`. -/
def getVBaseClassOffset (c v : ℕ) : ℕ :=
  (((R.layout E c).vbases.find? (·.1 == v)).map (·.2)).getD (E.primaryOffset c v)

/-- The classes as `constructHashVector` sees them. -/
def hierarchy : Hierarchy where
  bases c := (R.record c).bases
  bases_lt := R.bases_lt
  mangledName := R.mangledName
  mangledName_inj := R.mangledName_inj
  size c := (R.layout E c).size
  baseClassOffset c base := UInt64.ofNat (R.getBaseClassOffset E c base)

end Records

end Caver.CodeGen
