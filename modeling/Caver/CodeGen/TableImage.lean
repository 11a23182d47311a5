import Caver.Core.Bytes
import Caver.CodeGen.THTables

/-!
# Caver.CodeGen.TableImage — tables as bytes

The compiler writes a type table as an anonymous struct of two counts, two
arrays and the name. The runtime reads it through `_ContainVector` and
`_HashVector`, C structs with arrays of one element, and finds what lies behind
the arrays by pointer arithmetic.

* `Constant`: constants with their bytes; `Constant.struct` lays them out as
  `StructLayout` does.
* `typeTableStruct`: the struct that `GenerateTypeHierarchy` builds.
* `tableImage_decode`: what the runtime reads back.
* `checkMemory_eq`: the check on such bytes is the check on the tables.
-/

namespace Caver.CodeGen

open Caver.Core Caver.Runtime

/-! ## Constants -/

/-- A constant: the ABI alignment of its type, and its bytes. -/
structure Constant where
  align : ℕ
  bytes : List UInt8
deriving DecidableEq, Repr

namespace Constant

/-- `RoundUpAlignment`. -/
def roundUpAlignment (val alignment : ℕ) : ℕ := (val + (alignment - 1)) / alignment * alignment

/-- Zeros up to the next multiple of the alignment. -/
def padTo (alignment : ℕ) (bs : List UInt8) : List UInt8 :=
  bs ++ List.replicate (roundUpAlignment bs.length alignment - bs.length) 0

/-- An `i64`. -/
def int64 (v : UInt64) : Constant := ⟨8, wordBytes v⟩

/-- A `[n x i64]`. -/
def array64 (vs : List UInt64) : Constant := ⟨8, vs.flatMap wordBytes⟩

/-- `ConstantDataArray::getString`, with the zero byte that it adds. -/
def getString (str : List UInt8) : Constant := ⟨1, str ++ [0]⟩

/-- An unpacked struct: each field at the next multiple of its alignment, the end
at a multiple of the largest. -/
def struct (fields : List Constant) : Constant :=
  let align := fields.foldl (fun a f => max f.align a) 1
  ⟨align, padTo align (fields.foldl (fun bs f => padTo f.align bs ++ f.bytes) [])⟩

end Constant

/-- The words of a containment triple, as `constructContainVector` pushes them. -/
def containWords (e : ContainElem) : List UInt64 := [e.offset, e.size, e.pTHTable]

/-- The words of a base, as `constructHashVector` pushes them. -/
def baseWords (e : BaseElem) : List UInt64 := [e.baseHash, e.baseOffset]

/-- `TypeTableStruct` of `GenerateTypeHierarchy`. -/
def typeTableStruct (containVec hashVector : List UInt64) (typeName : List UInt8) :
    List Constant :=
  [.int64 (UInt64.ofNat (containVec.length / 3)), .array64 containVec,
    .int64 (UInt64.ofNat (hashVector.length / 2)), .array64 hashVector, .getString typeName]

/-- The bytes of a table. -/
def tableImage (elems : List ContainElem) (bases : List BaseElem) (typeName : List UInt8) :
    List UInt8 :=
  (Constant.struct
    (typeTableStruct (elems.flatMap containWords) (bases.flatMap baseWords) typeName)).bytes

/-! ## Accessors -/

section Accessors

variable (mem : Memory)

/-- `containVec->numContainment`. -/
def numContainment (containVec : Uptr) : Uptr := load64 mem containVec

/-- `&containVec->ContainElem[i]`. -/
def containElemAddr (containVec i : Uptr) : Uptr := containVec + 8 + 24 * i

/-- A `_ContainElem` in memory. -/
def loadContainElem (a : Uptr) : ContainElem :=
  ⟨load64 mem a, load64 mem (a + 8), load64 mem (a + 16)⟩

/-- `getHashVectorFromContainVector`. -/
def getHashVectorFromContainVector (containVec : Uptr) : Uptr :=
  containElemAddr containVec (numContainment mem containVec)

/-- `hashVec->numBases`. -/
def numBases (hashVec : Uptr) : Uptr := load64 mem hashVec

/-- `&hashVec->BaseElem[i]`. -/
def baseElemAddr (hashVec i : Uptr) : Uptr := hashVec + 8 + 16 * i

/-- A `_BaseElem` in memory. -/
def loadBaseElem (a : Uptr) : BaseElem := ⟨load64 mem a, load64 mem (a + 8)⟩

/-- `getMangledNameFromHashVector`. -/
def getMangledNameFromHashVector (hashVec : Uptr) : Uptr :=
  baseElemAddr hashVec (numBases mem hashVec)

/-- `getMangledNameFromContainVector`. -/
def getMangledNameFromContainVector (containVec : Uptr) : Uptr :=
  getMangledNameFromHashVector mem (getHashVectorFromContainVector mem containVec)

/-- The elements of `containVec->ContainElem`. -/
def containElems (containVec : Uptr) : List ContainElem :=
  (List.range (numContainment mem containVec).toNat).map fun i =>
    loadContainElem mem (containElemAddr containVec (UInt64.ofNat i))

/-- The elements of `hashVec->BaseElem`. -/
def baseElems (hashVec : Uptr) : List BaseElem :=
  (List.range (numBases mem hashVec).toNat).map fun i =>
    loadBaseElem mem (baseElemAddr hashVec (UInt64.ofNat i))

end Accessors

/-! ## The layout of the struct -/

variable {elems : List ContainElem} {bases : List BaseElem} {typeName : List UInt8}

theorem Constant.padTo_of_dvd {alignment : ℕ} {bs : List UInt8} (hpos : 0 < alignment)
    (h : alignment ∣ bs.length) : padTo alignment bs = bs := by
  rcases h with ⟨n, hn⟩
  have hdiv : (alignment * n + (alignment - 1)) / alignment = n := by
    rw [Nat.mul_add_div hpos, Nat.div_eq_of_lt (by omega), Nat.add_zero]
  have hround : roundUpAlignment bs.length alignment - bs.length = 0 := by
    rw [roundUpAlignment, hn, hdiv, Nat.mul_comm, Nat.sub_self]
  rw [padTo, hround, List.replicate_zero, List.append_nil]

/-- Fields that fill their alignment follow each other. -/
theorem Constant.padTo_append {alignment : ℕ} {bs cs : List UInt8} (hpos : 0 < alignment)
    (hbs : alignment ∣ bs.length) (hcs : alignment ∣ cs.length) :
    padTo alignment bs ++ cs = bs ++ cs ∧ alignment ∣ (bs ++ cs).length := by
  constructor
  · rw [padTo_of_dvd hpos hbs]
  · rw [List.length_append]
    exact Nat.dvd_add hbs hcs

theorem length_words {α : Type} {words : α → List UInt64} {n : ℕ}
    (hn : ∀ x, (words x).length = n) (xs : List α) : (xs.flatMap words).length = n * xs.length := by
  induction xs with
  | nil => rfl
  | cons x xs ih =>
    rw [List.flatMap_cons, List.length_append, hn, ih, List.length_cons, Nat.mul_succ,
      Nat.add_comm]

/-- The bytes of a triple. -/
def containBytes (e : ContainElem) : List UInt8 := (containWords e).flatMap wordBytes

/-- The bytes of a base. -/
def baseBytes (e : BaseElem) : List UInt8 := (baseWords e).flatMap wordBytes

theorem length_containBytes (e : ContainElem) : (containBytes e).length = 24 := by
  simp [containBytes, containWords]

theorem length_baseBytes (e : BaseElem) : (baseBytes e).length = 16 := by
  simp [baseBytes, baseWords]

/-- The fields follow each other, with no padding but at the end. -/
theorem tableImage_eq (elems : List ContainElem) (bases : List BaseElem) (typeName : List UInt8) :
    ∃ pad, tableImage elems bases typeName =
      wordBytes (UInt64.ofNat elems.length) ++ (elems.flatMap containBytes ++
        (wordBytes (UInt64.ofNat bases.length) ++ (bases.flatMap baseBytes ++
          ((typeName ++ [0]) ++ pad)))) := by
  have hcount : (elems.flatMap containWords).length / 3 = elems.length := by
    rw [length_words (n := 3) fun _ => rfl, Nat.mul_div_cancel_left _ (by omega)]
  have hbases : (bases.flatMap baseWords).length / 2 = bases.length := by
    rw [length_words (n := 2) fun _ => rfl, Nat.mul_div_cancel_left _ (by omega)]
  have hword : ∀ v, 8 ∣ (wordBytes v).length := fun v => by rw [length_wordBytes]
  have hwords : ∀ vs : List UInt64, 8 ∣ (vs.flatMap wordBytes).length := by
    intro vs
    rw [length_records length_wordBytes]
    exact Nat.dvd_mul_right 8 _
  -- every field but the name is a number of words
  have hnil : 8 ∣ ([] : List UInt8).length := Nat.dvd_zero 8
  obtain ⟨h1, hd1⟩ := Constant.padTo_append (by omega) hnil (hword (UInt64.ofNat elems.length))
  obtain ⟨h2, hd2⟩ := Constant.padTo_append (by omega) hd1 (hwords (elems.flatMap containWords))
  obtain ⟨h3, hd3⟩ := Constant.padTo_append (by omega) hd2 (hword (UInt64.ofNat bases.length))
  obtain ⟨h4, hd4⟩ := Constant.padTo_append (by omega) hd3 (hwords (bases.flatMap baseWords))
  have hpad : ∀ bs, ∃ pad, Constant.padTo 8 bs = bs ++ pad := fun bs => ⟨_, rfl⟩
  obtain ⟨pad, hpad⟩ := hpad ([] ++ wordBytes (UInt64.ofNat elems.length) ++
    (elems.flatMap containWords).flatMap wordBytes ++ wordBytes (UInt64.ofNat bases.length) ++
    (bases.flatMap baseWords).flatMap wordBytes ++ (typeName ++ [0]))
  refine ⟨pad, ?_⟩
  have hone : ∀ bs, Constant.padTo 1 bs = bs := fun bs =>
    Constant.padTo_of_dvd (by omega) (Nat.one_dvd bs.length)
  have halign : max 1 (max 8 (max 8 (max 8 (max 8 1)))) = 8 := by decide
  simp only [tableImage, typeTableStruct, Constant.struct, List.foldl_cons, List.foldl_nil,
    Constant.int64, Constant.array64, Constant.getString, hcount, hbases, h1, h2, h3, h4, hone,
    halign, hpad]
  simp only [List.nil_append, List.append_assoc, List.flatMap_assoc]
  rfl

/-! ## Reading a table back -/

variable {mem : Memory} {vec a : Uptr}

theorem loadContainElem_placed {e : ContainElem} (h : Placed mem a (containBytes e)) :
    loadContainElem mem a = e := by
  simp only [containBytes, containWords, List.flatMap_cons, List.flatMap_nil, placed_append,
    length_wordBytes] at h
  rcases h with ⟨hoffset, hsize, htable, -⟩
  rw [UInt64.add_assoc] at htable
  unfold loadContainElem
  rw [load64_placed hoffset, load64_placed (a := a + 8) hsize, load64_placed (a := a + 16) htable]

theorem loadBaseElem_placed {e : BaseElem} (h : Placed mem a (baseBytes e)) :
    loadBaseElem mem a = e := by
  simp only [baseBytes, baseWords, List.flatMap_cons, List.flatMap_nil, placed_append,
    length_wordBytes] at h
  rcases h with ⟨hhash, hoffset, -⟩
  unfold loadBaseElem
  rw [load64_placed hhash, load64_placed (a := a + 8) hoffset]

/-- The element `i` of the array, with the multiplication of pointer arithmetic. -/
theorem containElemAddr_ofNat (vec : Uptr) (i : ℕ) :
    containElemAddr vec (UInt64.ofNat i) = vec + UInt64.ofNat 8 + UInt64.ofNat (24 * i) := by
  rw [UInt64.ofNat_mul]
  rfl

theorem baseElemAddr_ofNat (hashVec : Uptr) (i : ℕ) :
    baseElemAddr hashVec (UInt64.ofNat i) = hashVec + UInt64.ofNat 8 + UInt64.ofNat (16 * i) := by
  rw [UInt64.ofNat_mul]
  rfl

section Image

variable (hfits : (tableImage elems bases typeName).length ≤ 2 ^ 64)
  (hplaced : Placed mem vec (tableImage elems bases typeName))

include hplaced

/-- The parts of a table in memory, one behind the other. -/
theorem tableImage_parts :
    Placed mem vec (wordBytes (UInt64.ofNat elems.length)) ∧
      Placed mem (vec + UInt64.ofNat 8) (elems.flatMap containBytes) ∧
      Placed mem (vec + UInt64.ofNat 8 + UInt64.ofNat (24 * elems.length))
        (wordBytes (UInt64.ofNat bases.length)) ∧
      Placed mem (vec + UInt64.ofNat 8 + UInt64.ofNat (24 * elems.length) + UInt64.ofNat 8)
        (bases.flatMap baseBytes) ∧
      Placed mem (vec + UInt64.ofNat 8 + UInt64.ofNat (24 * elems.length) + UInt64.ofNat 8 +
        UInt64.ofNat (16 * bases.length)) (typeName ++ [0]) := by
  rcases tableImage_eq elems bases typeName with ⟨pad, himage⟩
  rw [himage] at hplaced
  rw [placed_append, placed_append, placed_append, placed_append, placed_append,
    length_wordBytes, length_wordBytes, length_records length_containBytes,
    length_records length_baseBytes] at hplaced
  rcases hplaced with ⟨hcount, helems, hbaseCount, hbases, hname, -⟩
  exact ⟨hcount, helems, hbaseCount, hbases, hname⟩

theorem numContainment_image : numContainment mem vec = UInt64.ofNat elems.length :=
  load64_placed (tableImage_parts hplaced).1

theorem getHashVectorFromContainVector_image :
    getHashVectorFromContainVector mem vec =
      vec + UInt64.ofNat 8 + UInt64.ofNat (24 * elems.length) := by
  rw [getHashVectorFromContainVector, numContainment_image hplaced, containElemAddr_ofNat]

theorem numBases_image :
    numBases mem (getHashVectorFromContainVector mem vec) = UInt64.ofNat bases.length := by
  rw [getHashVectorFromContainVector_image hplaced]
  exact load64_placed (tableImage_parts hplaced).2.2.1

theorem getMangledNameFromContainVector_image :
    Placed mem (getMangledNameFromContainVector mem vec) (typeName ++ [0]) := by
  rw [getMangledNameFromContainVector, getMangledNameFromHashVector, numBases_image hplaced,
    baseElemAddr_ofNat, getHashVectorFromContainVector_image hplaced]
  exact (tableImage_parts hplaced).2.2.2.2

include hfits

/-- The counts are smaller than the image, so they fit in their words. -/
theorem counts_image :
    (numContainment mem vec).toNat = elems.length ∧
      (numBases mem (getHashVectorFromContainVector mem vec)).toNat = bases.length := by
  rcases tableImage_eq elems bases typeName with ⟨pad, himage⟩
  rw [himage] at hfits
  simp only [List.length_append, length_wordBytes, length_records length_containBytes,
    length_records length_baseBytes] at hfits
  rw [numContainment_image hplaced, numBases_image hplaced, UInt64.toNat_ofNat',
    UInt64.toNat_ofNat']
  constructor
  · exact Nat.mod_eq_of_lt (by omega)
  · exact Nat.mod_eq_of_lt (by omega)

theorem containElems_image : containElems mem vec = elems := by
  unfold containElems
  simp only [(counts_image hfits hplaced).1, containElemAddr_ofNat]
  exact (tableImage_parts hplaced).2.1.records length_containBytes fun b x =>
    loadContainElem_placed

theorem baseElems_image : baseElems mem (getHashVectorFromContainVector mem vec) = bases := by
  unfold baseElems
  simp only [(counts_image hfits hplaced).2, baseElemAddr_ofNat]
  rw [getHashVectorFromContainVector_image hplaced]
  exact (tableImage_parts hplaced).2.2.2.1.records length_baseBytes fun b x =>
    loadBaseElem_placed

/-- The counts, the triples and pairs in their order, and the name that the
runtime reads from a table are those that the compiler has written. The string
that is read ends at the first zero byte of the name, if it has one. -/
theorem tableImage_decode :
    (numContainment mem vec).toNat = elems.length ∧
      containElems mem vec = elems ∧
      (numBases mem (getHashVectorFromContainVector mem vec)).toNat = bases.length ∧
      baseElems mem (getHashVectorFromContainVector mem vec) = bases ∧
      Placed mem (getMangledNameFromContainVector mem vec) (typeName ++ [0]) ∧
      ∀ fuel, typeName.length < fuel →
        cString mem (getMangledNameFromContainVector mem vec) fuel =
          some (typeName.takeWhile (· ≠ 0)) := by
  have hname := getMangledNameFromContainVector_image hplaced
  rcases counts_image hfits hplaced with ⟨hcount, hbaseCount⟩
  refine ⟨hcount, containElems_image hfits hplaced, hbaseCount, baseElems_image hfits hplaced,
    hname, ?_⟩
  intro fuel hfuel
  exact cString_placed hname hfuel

end Image

/-- A memory that holds the bytes from `a` on. -/
def memoryOf (a : UInt64) (bs : List UInt8) : Memory := fun b => (bs[(b - a).toNat]?).getD 0

/-- The table of a class with one field and no base. -/
theorem tableImage_decode_field :
    containElems (memoryOf 4096 (tableImage [⟨8, 4, 8192⟩] [⟨10, 0⟩] [65])) 4096 =
        [⟨8, 4, 8192⟩] ∧
      cString (memoryOf 4096 (tableImage [⟨8, 4, 8192⟩] [⟨10, 0⟩] [65]))
        (getMangledNameFromContainVector
          (memoryOf 4096 (tableImage [⟨8, 4, 8192⟩] [⟨10, 0⟩] [65])) 4096) 2 = some [65] := by
  have hfits : (tableImage [⟨8, 4, 8192⟩] [⟨10, 0⟩] [65]).length ≤ 2 ^ 64 := by decide
  have hplaced : Placed (memoryOf 4096 (tableImage [⟨8, 4, 8192⟩] [⟨10, 0⟩] [65])) 4096
      (tableImage [⟨8, 4, 8192⟩] [⟨10, 0⟩] [65]) := by decide
  rcases tableImage_decode hfits hplaced with ⟨-, helems, -, -, -, hname⟩
  exact ⟨helems, hname 2 (by decide)⟩

/-! ## The check on memory -/

/-- The bytes of the table of a class. -/
def ClassDecls.image (D : ClassDecls) (c : ℕ) : List UInt8 :=
  let t := D.generateTypeHierarchy c
  tableImage t.containElems t.baseElems t.mangledName.toUTF8.toList

/-- The tables of all classes are in memory, at their addresses. -/
def ClassDecls.Stored (D : ClassDecls) (mem : Memory) : Prop :=
  ∀ c < D.count, (D.image c).length ≤ 2 ^ 64 ∧ Placed mem (D.tableAddr c) (D.image c)

/-- A table, but for its name, through the accessors. -/
def loadTable (mem : Memory) (vec : Uptr) : THTable where
  containElems := containElems mem vec
  baseElems := baseElems mem (getHashVectorFromContainVector mem vec)
  mangledName := ""

theorem loadTable_stored {D : ClassDecls} {c : ℕ} (hstored : D.Stored mem) (hc : c < D.count) :
    (loadTable mem (D.tableAddr c)).containElems = (D.generateTypeHierarchy c).containElems ∧
      (loadTable mem (D.tableAddr c)).baseElems = (D.generateTypeHierarchy c).baseElems := by
  rcases hstored c hc with ⟨hfits, hplaced⟩
  unfold ClassDecls.image at hfits hplaced
  exact ⟨containElems_image hfits hplaced, baseElems_image hfits hplaced⟩

/-- `CheckCastValidity` on the tables in memory, with a bound on the recursion. -/
def checkMemory (mem : Memory) (noComposition : Bool) (targetHash pointer : Uptr) :
    ℕ → Uptr → Uptr → Option Bool
  | 0, _, _ => none
  | fuel + 1, objBaseAddr, vec =>
    checkTable noComposition targetHash pointer objBaseAddr
      (fun e => checkMemory mem noComposition targetHash pointer fuel (objBaseAddr + e.offset)
        e.pTHTable) (loadTable mem vec)

/-- On the tables that the compiler has written, the check on memory computes what
it computes on the tables themselves. -/
theorem checkMemory_eq {D : ClassDecls} (hstored : D.Stored mem) (noComposition : Bool)
    (targetHash pointer : Uptr) (fuel : ℕ) (objBaseAddr : Uptr) {c : ℕ} (hc : c < D.count) :
    checkMemory mem noComposition targetHash pointer fuel objBaseAddr (D.tableAddr c) =
      checkWithin D.typeTables noComposition targetHash pointer fuel objBaseAddr
        (D.tableAddr c) := by
  induction fuel generalizing objBaseAddr c with
  | zero => rfl
  | succ fuel ih =>
    rcases loadTable_stored hstored hc with ⟨helems, hbases⟩
    -- a nested call is for the table of a class with a smaller number
    have hnested : searchContain (fun e => checkMemory mem noComposition targetHash pointer fuel
        (objBaseAddr + e.offset) e.pTHTable) pointer objBaseAddr
          (D.generateTypeHierarchy c).containElems =
        searchContain (fun e => checkWithin D.typeTables noComposition targetHash pointer fuel
          (objBaseAddr + e.offset) e.pTHTable) pointer objBaseAddr
          (D.generateTypeHierarchy c).containElems := by
      refine searchContain_congr ?_
      intro e he _
      rcases List.mem_map.mp he with ⟨x, hx, rfl⟩
      exact ih _ ((ClassDecls.elem_lt hx).trans hc)
    rw [checkMemory, checkWithin, ClassDecls.typeTables_table hc]
    simp only [checkTable, helems, hbases, hnested, Option.bind_eq_bind, Option.bind_some]

end Caver.CodeGen
