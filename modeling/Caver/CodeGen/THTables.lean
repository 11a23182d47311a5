import Caver.Runtime.TypeTable
import Mathlib.Data.List.Pairwise
import Mathlib.Data.List.Sort

/-!
# Caver.CodeGen.THTables — the tables that the compiler emits

`CGTHTables.cpp` for classes without virtual bases, unions or anonymous members.

* `ClassDecls`: the classes of a program, numbered so that bases and the classes
  of fields come first. `ClassLayout` adds what a layout of them satisfies.
* `constructHashVector`, `constructContainVector`: the two halves of a table.
* `typeTables`: the tables in memory, as the runtime reads them.
-/

namespace Caver.CodeGen

open Caver.Runtime

/-! ## Recursion over smaller numbers -/

section Recursion

variable {α : Type}

/-- Recursive calls of `step c` for `c`, with a bound on their depth. -/
def recWithin (step : ℕ → (ℕ → α) → α) (stop : α) : ℕ → ℕ → α
  | 0, _ => stop
  | fuel + 1, c => step c (recWithin step stop fuel)

/-- The recursion whose calls for `c` are for smaller numbers. -/
def recBelow (step : ℕ → (ℕ → α) → α) (stop : α) (c : ℕ) : α := recWithin step stop (c + 1) c

variable {step : ℕ → (ℕ → α) → α} {stop : α}
  (hstep : ∀ c f g, (∀ d < c, f d = g d) → step c f = step c g)

include hstep

theorem recWithin_enough (fuel c : ℕ) (hc : c < fuel) :
    recWithin step stop fuel c = recBelow step stop c := by
  induction fuel using Nat.strongRecOn generalizing c with
  | ind fuel ih =>
    rcases Nat.exists_eq_add_one_of_ne_zero (Nat.ne_zero_of_lt hc) with ⟨n, rfl⟩
    unfold recBelow recWithin
    refine hstep c _ _ ?_
    intro d hd
    rw [ih n (by omega) d (by omega)]
    by_cases hn : n = c
    · rw [← hn, ih n (by omega) d (by omega)]
    · rw [ih c (by omega) d hd]

/-- The recursion without its bound. -/
theorem recBelow_eq (c : ℕ) : recBelow step stop c = step c (recBelow step stop) := by
  refine hstep c _ _ ?_
  intro d hd
  exact recWithin_enough hstep c d hd

end Recursion

/-! ## Classes -/

/-- A non-virtual base, at its offset in the class. -/
structure BaseDecl where
  offset : ℕ
  cls : ℕ
deriving DecidableEq, Repr

/-- A named field of class type, or an array of `count` such. -/
structure FieldDecl where
  offset : ℕ
  elem : ℕ
  count : ℕ
deriving DecidableEq, Repr

/-- A class; `nameHash` is `hash_value` of its mangled name. -/
structure ClassDecl where
  typeName : String
  nameHash : Uptr
  size : ℕ
  bases : List BaseDecl
  fields : List FieldDecl

/-- The classes of a program, the first `count` numbers, with the addresses of
their tables. -/
structure ClassDecls where
  decl : ℕ → ClassDecl
  bases_lt : ∀ c, ∀ b ∈ (decl c).bases, b.cls < c
  fields_lt : ∀ c, ∀ f ∈ (decl c).fields, f.elem < c
  count : ℕ
  tableAddr : ℕ → Uptr
  tableAddr_ne : ∀ c < count, tableAddr c ≠ 0
  tableAddr_inj : ∀ c < count, ∀ d < count, tableAddr c = tableAddr d → c = d

/-- A triple of the containment vector; `elem` stands for its table. -/
structure Contained where
  offset : ℕ
  size : ℕ
  elem : ℕ
deriving DecidableEq, Repr

/-- The two ranges have no address in common. -/
def Contained.Apart (x y : Contained) : Prop :=
  x.offset + x.size ≤ y.offset ∨ y.offset + y.size ≤ x.offset

instance : Std.Symm Contained.Apart := ⟨fun _ _ h => Or.symm h⟩

namespace ClassDecls

variable (D : ClassDecls)

/-! ## Hashes -/

/-- `hash_value_with_uniqueness`: the lowest bit is for the layout. -/
def hashValueWithUniqueness (nameHash : Uptr) (isSameLayout : Bool) : Uptr :=
  nameHash <<< 1 ||| (if isSameLayout then 1 else 0)

/-- `forallBases`: the bases of a class, and then, from the last one on, theirs. -/
def forallBases : ℕ → List ℕ :=
  recBelow (fun c rec =>
    let bases := (D.decl c).bases.map (·.cls)
    bases ++ bases.reverse.flatMap rec) []

/-- `getBaseClassOffset`; only direct bases have one. -/
def getBaseClassOffset (c base : ℕ) : ℕ :=
  (((D.decl c).bases.find? (·.cls == base)).map (·.offset)).getD 0

/-- `constructHashVector`: the hashes of the class and of all its bases. -/
def constructHashVector (c : ℕ) : List BaseElem :=
  ⟨hashValueWithUniqueness (D.decl c).nameHash false, 0⟩ ::
    (D.forallBases c).map fun base =>
      let isSameLayout := (D.decl c).size == (D.decl base).size
      ⟨hashValueWithUniqueness (D.decl base).nameHash isSameLayout,
        UInt64.ofNat (D.getBaseClassOffset c base)⟩

/-! ## Contained classes -/

/-- The fields of a class that starts at `offset`. -/
def containFields (c offset : ℕ) : List Contained :=
  (D.decl c).fields.map fun f => ⟨offset + f.offset, f.count * (D.decl f.elem).size, f.elem⟩

/-- The non-virtual bases, sorted by offset. -/
def sortedBases (c : ℕ) : List BaseDecl :=
  (D.decl c).bases.insertionSort fun l r => l.offset ≤ r.offset

/-- `constructContainVector`: the fields of the class, and then those of its
bases. -/
def constructContainVector : ℕ → ℕ → List Contained :=
  recBelow (fun c rec offset => D.containFields c offset ++
    (D.sortedBases c).flatMap fun b => rec b.cls (offset + b.offset)) fun _ => []

/-- The triple as the runtime reads it. -/
def toContainElem (e : Contained) : ContainElem :=
  ⟨UInt64.ofNat e.offset, UInt64.ofNat e.size, D.tableAddr e.elem⟩

/-! ## Tables -/

/-- `GenerateTypeHierarchy`. -/
def generateTypeHierarchy (c : ℕ) : THTable where
  containElems := (D.constructContainVector c 0).map D.toContainElem
  baseElems := D.constructHashVector c
  mangledName := (D.decl c).typeName

/-- The class whose table is at an address. -/
def classAt (vec : Uptr) : Option ℕ := (List.range D.count).find? (D.tableAddr · == vec)

variable {D} {c d e : ℕ}

theorem forallBases_eq (D : ClassDecls) (c : ℕ) :
    D.forallBases c = (D.decl c).bases.map (·.cls) ++
      ((D.decl c).bases.map (·.cls)).reverse.flatMap D.forallBases := by
  refine recBelow_eq (fun c f g h => ?_) c
  dsimp only
  congr 1
  refine List.flatMap_congr fun d hd => h d ?_
  simp only [List.mem_reverse, List.mem_map] at hd
  rcases hd with ⟨b, hb, rfl⟩
  exact D.bases_lt c b hb

/-- The bases of a class are its direct ones and their bases. -/
theorem mem_forallBases :
    d ∈ D.forallBases c ↔ ∃ b ∈ (D.decl c).bases, d = b.cls ∨ d ∈ D.forallBases b.cls := by
  rw [forallBases_eq]
  simp only [List.mem_append, List.mem_map, List.mem_flatMap, List.mem_reverse]
  constructor
  · rintro (⟨b, hb, rfl⟩ | ⟨_, ⟨b, hb, rfl⟩, hd⟩)
    · exact ⟨b, hb, Or.inl rfl⟩
    · exact ⟨b, hb, Or.inr hd⟩
  · rintro ⟨b, hb, rfl | hd⟩
    · exact Or.inl ⟨b, hb, rfl⟩
    · exact Or.inr ⟨_, ⟨b, hb, rfl⟩, hd⟩

theorem constructContainVector_eq (D : ClassDecls) (c offset : ℕ) :
    D.constructContainVector c offset = D.containFields c offset ++
      (D.sortedBases c).flatMap fun b => D.constructContainVector b.cls (offset + b.offset) := by
  refine congrFun (recBelow_eq (fun c f g h => ?_) c) offset
  funext offset
  congr 1
  refine List.flatMap_congr ?_
  intro b hb
  rw [h b.cls (D.bases_lt c b ((List.mem_insertionSort _).mp hb))]

/-- The contained classes are those of the fields, and those of the bases. -/
theorem mem_constructContainVector {offset : ℕ} {x : Contained} :
    x ∈ D.constructContainVector c offset ↔ x ∈ D.containFields c offset ∨
      ∃ b ∈ (D.decl c).bases, x ∈ D.constructContainVector b.cls (offset + b.offset) := by
  rw [constructContainVector_eq]
  simp only [List.mem_append, List.mem_flatMap, sortedBases, List.mem_insertionSort]

/-- Contained classes have smaller numbers. -/
theorem elem_lt {offset : ℕ} {x : Contained} (hx : x ∈ D.constructContainVector c offset) :
    x.elem < c := by
  induction c using Nat.strongRecOn generalizing offset with
  | ind c ih =>
    rcases mem_constructContainVector.mp hx with hx | ⟨b, hb, hx⟩
    · rcases List.mem_map.mp hx with ⟨f, hf, rfl⟩
      exact D.fields_lt c f hf
    · exact (ih b.cls (D.bases_lt c b hb) hx).trans (D.bases_lt c b hb)

theorem classAt_some {vec : Uptr} (h : D.classAt vec = some c) :
    c < D.count ∧ D.tableAddr c = vec := by
  refine ⟨?_, ?_⟩
  · exact List.mem_range.mp (List.mem_of_find?_eq_some h)
  · simpa using List.find?_some h

theorem classAt_tableAddr (hc : c < D.count) : D.classAt (D.tableAddr c) = some c := by
  obtain ⟨d, hd⟩ : ∃ d, D.classAt (D.tableAddr c) = some d := by
    rw [← Option.isSome_iff_exists, classAt, List.find?_isSome]
    exact ⟨c, List.mem_range.mpr hc, beq_self_eq_true _⟩
  rcases classAt_some hd with ⟨hcount, haddr⟩
  rw [hd, D.tableAddr_inj d hcount c hc haddr]

/-- The tables in memory. -/
def typeTables (D : ClassDecls) : TypeTables where
  table vec := (D.classAt vec).map D.generateTypeHierarchy
  depth vec := (D.classAt vec).getD 0
  nested := by
    intro vec t ht e he _
    rcases Option.map_eq_some_iff.mp ht with ⟨c, hc, rfl⟩
    rcases List.mem_map.mp he with ⟨x, hx, rfl⟩
    have hlt := elem_lt hx
    have hcount := (classAt_some hc).1
    have helem := classAt_tableAddr (hlt.trans hcount)
    show (Option.map _ (D.classAt (D.tableAddr x.elem))).isSome ∧
      (D.classAt (D.tableAddr x.elem)).getD 0 < (D.classAt vec).getD 0
    rw [helem, hc]
    exact ⟨rfl, hlt⟩

theorem typeTables_table (hc : c < D.count) :
    D.typeTables.table (D.tableAddr c) = some (D.generateTypeHierarchy c) := by
  show (D.classAt (D.tableAddr c)).map _ = _
  rw [classAt_tableAddr hc]
  rfl

/-! ## Asking for a hash -/

/-- The hash is that of the class or of one of its bases. -/
def Matches (D : ClassDecls) (c : ℕ) (hash : Uptr) : Prop :=
  ∃ e ∈ D.constructHashVector c, getHashValue hash = getHashValue e.baseHash

instance (D : ClassDecls) (c : ℕ) (hash : Uptr) : Decidable (D.Matches c hash) :=
  inferInstanceAs (Decidable (∃ e ∈ D.constructHashVector c, _ = _))

theorem getHashValue_hashValue (nameHash : Uptr) (isSameLayout : Bool) :
    getHashValue (hashValueWithUniqueness nameHash isSameLayout) =
      getHashValue (nameHash <<< 1) := by
  have hbit : (if isSameLayout then (1 : Uptr) else 0) &&& 0xfffffffffffffffe = 0 := by
    cases isSameLayout <;> decide
  have hdistrib : ∀ x y z : Uptr, (x ||| y) &&& z = (x &&& z) ||| (y &&& z) := by
    intro x y z
    exact UInt64.toBitVec_inj.mp BitVec.and_or_distrib_right
  unfold getHashValue hashValueWithUniqueness
  rw [hdistrib, hbit, UInt64.or_zero]

theorem matches_iff {hash : Uptr} :
    D.Matches c hash ↔ ∃ d, (d = c ∨ d ∈ D.forallBases c) ∧
      getHashValue hash = getHashValue ((D.decl d).nameHash <<< 1) := by
  unfold Matches constructHashVector
  constructor
  · rintro ⟨e, he, hhash⟩
    rcases List.mem_cons.mp he with rfl | he
    · exact ⟨c, Or.inl rfl, by rwa [getHashValue_hashValue] at hhash⟩
    · rcases List.mem_map.mp he with ⟨d, hd, rfl⟩
      exact ⟨d, Or.inr hd, by rwa [getHashValue_hashValue] at hhash⟩
  · rintro ⟨d, hd, hhash⟩
    rcases hd with rfl | hd
    · refine ⟨_, List.mem_cons_self, ?_⟩
      rwa [getHashValue_hashValue]
    · refine ⟨_, List.mem_cons_of_mem _ (List.mem_map.mpr ⟨d, hd, rfl⟩), ?_⟩
      rwa [getHashValue_hashValue]

/-- A class has the hashes of its bases. -/
theorem Matches.of_base {hash : Uptr} {b : BaseDecl} (hb : b ∈ (D.decl c).bases)
    (h : D.Matches b.cls hash) : D.Matches c hash := by
  rcases matches_iff.mp h with ⟨d, hd, hhash⟩
  refine matches_iff.mpr ⟨d, Or.inr (mem_forallBases.mpr ⟨b, hb, hd⟩), hhash⟩

end ClassDecls

/-! ## Layouts -/

/-- Classes with a layout: bases and fields are inside the class, and contained
objects do not overlap. No name hashes to zero. -/
structure ClassLayout extends ClassDecls where
  size_pos : ∀ c, 0 < (decl c).size
  base_fits : ∀ c, ∀ b ∈ (decl c).bases, b.offset + (decl b.cls).size ≤ (decl c).size
  field_fits : ∀ c, ∀ f ∈ (decl c).fields,
    f.offset + f.count * (decl f.elem).size ≤ (decl c).size
  apart : ∀ c, (toClassDecls.constructContainVector c 0).Pairwise Contained.Apart
  hash_ne : ∀ c, (decl c).nameHash <<< 1 ≠ 0

namespace ClassLayout

variable {L : ClassLayout} {c : ℕ}

end ClassLayout

end Caver.CodeGen
