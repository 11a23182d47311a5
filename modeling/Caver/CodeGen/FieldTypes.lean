import Caver.CodeGen.THTables
import Mathlib.Data.List.Perm.Subperm

/-!
# Caver.CodeGen.FieldTypes — which fields a table lists

`constructContainVector` takes the types of fields apart as they are written:
`isStructureOrClassType` looks through typedefs, but `dyn_cast<ArrayType>` does
not.

* `Ty`: types with their sugar. `Ty.classElem` is the class at the bottom of an
  array type, whatever it is written with.
* `getUnqualifiedType`, `getElemQualTypeOrNull`: the code; `hidden` is what stops
  it (`getElemQualTypeOrNull_eq`).
* `constructContainVector_exact_iff`: when a table lists each class-typed field of
  each base subobject exactly once.
-/

namespace Caver.CodeGen

/-! ## Types -/

/-- A type as clang represents it. `qualified` is for local qualifiers on the inner
type; `sugar` stands for typedefs, elaborated types, parentheses and the like, and
`other` for what is neither a struct, a class nor an array. -/
inductive Ty where
  | record (cls : ℕ)
  | other (size : ℕ)
  | array (qualified : Bool) (elem : Ty) (count : ℕ)
  | sugar (qualified : Bool) (desugared : Ty)
deriving DecidableEq, Repr

/-- A type with its local qualifiers; only whether there are any matters here. -/
structure QualType where
  qualified : Bool
  ty : Ty
deriving DecidableEq, Repr

namespace Ty

/-- `getAs<RecordType>`, which looks through sugar. -/
def getAsRecord : Ty → Option ℕ
  | record c => some c
  | sugar _ t => t.getAsRecord
  | _ => none

/-- The canonical type has local qualifiers; those of array elements are pulled
out to the array. -/
def canonicalQualified : Ty → Bool
  | array q e _ => q || e.canonicalQualified
  | sugar q t => q || t.canonicalQualified
  | _ => false

/-- The canonical type is an array. -/
def canonicalIsArray : Ty → Bool
  | array _ _ _ => true
  | sugar _ t => t.canonicalIsArray
  | _ => false

/-- `getSplitUnqualifiedTypeImpl`: the last type with qualifiers on the way through
the sugar. -/
def splitUnqualified (lastTypeWithQuals : Ty) : Ty → Ty
  | sugar q t => splitUnqualified (if q then t else lastTypeWithQuals) t
  | _ => lastTypeWithQuals

/-- The class at the bottom of arrays, written in whatever way. -/
def classElem : Ty → Option ℕ
  | record c => some c
  | other _ => none
  | array _ e _ => e.classElem
  | sugar _ t => t.classElem

/-- The size in bytes, given those of the classes. -/
def sizeOf (size : ℕ → ℕ) : Ty → ℕ
  | record c => size c
  | other n => n
  | array _ e n => n * e.sizeOf size
  | sugar _ t => t.sizeOf size

/-- The number of objects at the bottom of arrays. -/
def elemCount : Ty → ℕ
  | array _ e n => n * e.elemCount
  | sugar _ t => t.elemCount
  | _ => 1

/-- An array is written through sugar: at the top or as the element of an array. -/
def hidden : Ty → Bool
  | array _ e _ => e.hidden
  | sugar _ t => t.canonicalIsArray
  | _ => false

end Ty

/-- `QualType::getUnqualifiedType`. -/
def QualType.getUnqualifiedType (q : QualType) : QualType :=
  if q.ty.canonicalQualified then ⟨false, q.ty.splitUnqualified q.ty⟩ else ⟨false, q.ty⟩

/-- `getElemQualTypeOrNull`; where it returns a type, `isCompoundElem` is set. -/
def getElemQualTypeOrNull (qualified : Bool) (ty : Ty) : Option QualType :=
  if ty.getAsRecord.isSome then some ⟨qualified, ty⟩
  else match ty with
    | .array q e _ => getElemQualTypeOrNull q e
    | _ => none

namespace Ty

variable {size : ℕ → ℕ} {t u : Ty}

theorem getAsRecord_eq (t : Ty) :
    t.getAsRecord = if t.canonicalIsArray then none else t.classElem := by
  induction t with
  | record c => rfl
  | other n => rfl
  | array q e n ih => rfl
  | sugar q t ih => exact ih

/-- The code finds the class of a field unless it is hidden. -/
theorem getElemQualTypeOrNull_eq (q : Bool) (t : Ty) :
    (getElemQualTypeOrNull q t).bind (·.ty.getAsRecord) =
      if t.hidden then none else t.classElem := by
  induction t generalizing q with
  | record c => rfl
  | other n => rfl
  | array q' e n ih =>
    rw [getElemQualTypeOrNull]
    exact ih q'
  | sugar q' t ih =>
    have hrecord : (sugar q' t).getAsRecord = if t.canonicalIsArray then none else t.classElem :=
      getAsRecord_eq t
    unfold getElemQualTypeOrNull hidden classElem
    by_cases harray : t.canonicalIsArray
    · simp [hrecord, harray]
    · cases hclass : t.classElem with
      | none => simp [hrecord, hclass]
      | some c => simp [hrecord, harray, hclass]

/-- Taking sugar off changes neither the class nor the size. -/
theorem splitUnqualified_keeps {α : Type} (f : Ty → α) (hf : ∀ q t, f (sugar q t) = f t)
    (h : f u = f t) : f (splitUnqualified u t) = f t := by
  induction t generalizing u with
  | sugar q t ih =>
    rw [splitUnqualified, hf]
    refine ih ?_
    split
    · rfl
    · rw [h, hf]
  | record c => exact h
  | other n => exact h
  | array q e n _ => exact h

end Ty

/-- `getUnqualifiedType` only takes sugar off. -/
theorem QualType.getUnqualifiedType_keeps {α : Type} (f : Ty → α)
    (hf : ∀ q t, f (.sugar q t) = f t) (x : QualType) : f x.getUnqualifiedType.ty = f x.ty := by
  unfold getUnqualifiedType
  split
  · exact Ty.splitUnqualified_keeps f hf rfl
  · rfl

/-! ## Classes with typed fields -/

/-- A field; an anonymous one has no name. Its offset is in bits. -/
structure TypedField where
  name : Option String
  bitOffset : ℕ
  type : QualType
deriving DecidableEq, Repr

/-- A class as it is declared, with the layout of its bases and fields. -/
structure TypedDecl where
  size : ℕ
  bases : List BaseDecl
  fields : List TypedField

/-- The classes of a program, numbered so that bases and the classes of fields
come first. A class has no direct base twice and no field twice. -/
structure TypedDecls where
  decl : ℕ → TypedDecl
  bases_lt : ∀ c, ∀ b ∈ (decl c).bases, b.cls < c
  fields_lt : ∀ c, ∀ f ∈ (decl c).fields, ∀ e, f.type.ty.classElem = some e → e < c
  bases_nodup : ∀ c, (decl c).bases.Nodup
  fields_nodup : ∀ c, (decl c).fields.Nodup

namespace TypedDecls

variable (D : TypedDecls)

/-- `getTypeSizeInChars`. -/
def typeSize (t : QualType) : ℕ := t.ty.sizeOf fun c => (D.decl c).size

/-- The body of the loop over the fields, for an object at `offset`. -/
def containField (offset : ℕ) (FD : TypedField) : Option Contained :=
  if FD.name = none then none
  else do
    let QT := FD.type.getUnqualifiedType
    let ElemQT ← getElemQualTypeOrNull QT.qualified QT.ty
    let ElemRD ← ElemQT.ty.getAsRecord
    return ⟨offset + FD.bitOffset / 8, D.typeSize QT, ElemRD⟩

/-- The non-virtual bases, sorted by offset. -/
def sortedBases (c : ℕ) : List BaseDecl :=
  (D.decl c).bases.insertionSort fun l r => l.offset ≤ r.offset

/-- `constructContainVector`. -/
def constructContainVector : ℕ → ℕ → List Contained :=
  recBelow (fun c rec offset => (D.decl c).fields.filterMap (D.containField offset) ++
    (D.sortedBases c).flatMap fun b => rec b.cls (offset + b.offset)) fun _ => []

/-! ## What it should list -/

/-- A field of a base subobject: the steps to the base, and the field. -/
abbrev Occurrence := List BaseDecl × TypedField

/-- The steps exist from class `c` on, and the field is one of the class that they
lead to. -/
def HasField : ℕ → Occurrence → Prop
  | c, ([], f) => f ∈ (D.decl c).fields
  | c, (b :: path, f) => b ∈ (D.decl c).bases ∧ HasField b.cls (path, f)

/-- A named field of class type, or an array of such, in a base subobject. -/
def ClassTyped (c : ℕ) (x : Occurrence) : Prop :=
  D.HasField c x ∧ x.2.name ≠ none ∧ x.2.type.ty.classElem.isSome

/-- The triple for a field of an object at `offset`: to that the offsets on the way
are added. -/
def triple (offset : ℕ) (x : Occurrence) : Contained where
  offset := offset + (x.1.map (·.offset)).sum + x.2.bitOffset / 8
  size := D.typeSize x.2.type
  elem := x.2.type.ty.classElem.getD 0

/-- The vector lists each class-typed field once and nothing else. -/
def Exact (c : ℕ) : Prop :=
  ∃ occurrences : List Occurrence, occurrences.Nodup ∧
    (∀ x, x ∈ occurrences ↔ D.ClassTyped c x) ∧
    (D.constructContainVector c 0).Perm (occurrences.map (D.triple 0))

/-- The code does not see that the field is an array. -/
def Hidden (f : TypedField) : Prop := f.type.getUnqualifiedType.ty.hidden = true

instance (f : TypedField) : Decidable (Hidden f) := inferInstanceAs (Decidable (_ = _))

/-! ## Enumerating fields -/

/-- The fields of base subobjects with a property, as the classes declare them. -/
def occurrences (p : TypedField → Bool) : ℕ → List Occurrence :=
  recBelow (fun c rec => ((D.decl c).fields.filter p).map (Prod.mk []) ++
    (D.decl c).bases.flatMap fun b => (rec b.cls).map fun x => (b :: x.1, x.2)) []

variable {D} {p : TypedField → Bool} {c : ℕ}

theorem occurrences_eq (D : TypedDecls) (p : TypedField → Bool) (c : ℕ) :
    D.occurrences p c = ((D.decl c).fields.filter p).map (Prod.mk []) ++
      (D.decl c).bases.flatMap fun b => (D.occurrences p b.cls).map fun x => (b :: x.1, x.2) := by
  refine recBelow_eq (fun c f g h => ?_) c
  congr 1
  refine List.flatMap_congr ?_
  intro b hb
  rw [h b.cls (D.bases_lt c b hb)]

theorem mem_occurrences {x : Occurrence} :
    x ∈ D.occurrences p c ↔ D.HasField c x ∧ p x.2 = true := by
  rcases x with ⟨path, f⟩
  induction path generalizing c with
  | nil =>
    rw [occurrences_eq]
    simp [HasField]
  | cons b path ih =>
    rw [occurrences_eq]
    simp only [List.mem_append, List.mem_map, List.mem_flatMap, HasField, Prod.mk.injEq,
      Prod.exists, List.cons.injEq]
    constructor
    · rintro (⟨g, -, hnil, -⟩ | ⟨b', hb, path', f', hx, ⟨rfl, rfl⟩, rfl⟩)
      · cases hnil
      · rcases ih.mp hx with ⟨hfield, hp⟩
        exact ⟨⟨hb, hfield⟩, hp⟩
    · rintro ⟨⟨hb, hfield⟩, hp⟩
      exact Or.inr ⟨b, hb, path, f, ih.mpr ⟨hfield, hp⟩, ⟨rfl, rfl⟩, rfl⟩

/-- Each field is there once: a class has no base twice and no field twice. -/
theorem nodup_occurrences : (D.occurrences p c).Nodup := by
  induction c using Nat.strongRecOn with
  | ind c ih =>
    rw [occurrences_eq, List.nodup_append]
    refine ⟨?_, ?_, ?_⟩
    · exact ((D.fields_nodup c).filter p).map fun f g h => congrArg Prod.snd h
    · rw [List.nodup_flatMap]
      refine ⟨fun b hb => (ih b.cls (D.bases_lt c b hb)).map ?_, ?_⟩
      · rintro ⟨path, f⟩ ⟨path', f'⟩ h
        simpa using h
      · refine (D.bases_nodup c).imp fun {b b'} hne => ?_
        rintro x hx hx'
        rcases List.mem_map.mp hx with ⟨y, -, rfl⟩
        rcases List.mem_map.mp hx' with ⟨y', -, h⟩
        simp only [Prod.mk.injEq, List.cons.injEq] at h
        exact hne h.1.1.symm
    · rintro x hx y hy rfl
      rcases List.mem_map.mp hx with ⟨f, -, rfl⟩
      rcases List.mem_flatMap.mp hy with ⟨b, -, hy⟩
      rcases List.mem_map.mp hy with ⟨z, -, h⟩
      cases congrArg Prod.fst h

/-! ## The vector -/

theorem constructContainVector_eq (D : TypedDecls) (c offset : ℕ) :
    D.constructContainVector c offset = (D.decl c).fields.filterMap (D.containField offset) ++
      (D.sortedBases c).flatMap fun b => D.constructContainVector b.cls (offset + b.offset) := by
  refine congrFun (recBelow_eq (fun c f g h => ?_) c) offset
  funext offset
  congr 1
  refine List.flatMap_congr ?_
  intro b hb
  rw [h b.cls (D.bases_lt c b ((List.mem_insertionSort _).mp hb))]

/-- The fields that the code sees. -/
def seen (f : TypedField) : Bool :=
  f.name.isSome && f.type.ty.classElem.isSome && !decide (Hidden f)

theorem seen_iff {f : TypedField} :
    seen f = true ↔ f.name ≠ none ∧ f.type.ty.classElem.isSome ∧ ¬ Hidden f := by
  unfold seen
  rw [Bool.and_eq_true, Bool.and_eq_true, Option.isSome_iff_ne_none, and_assoc,
    Bool.not_eq_true', decide_eq_false_iff_not]

theorem containField_eq (D : TypedDecls) (offset : ℕ) (f : TypedField) :
    D.containField offset f = if seen f then some (D.triple offset ([], f)) else none := by
  have hclass : f.type.getUnqualifiedType.ty.classElem = f.type.ty.classElem :=
    QualType.getUnqualifiedType_keeps Ty.classElem (fun _ _ => rfl) f.type
  have hsize : D.typeSize f.type.getUnqualifiedType = D.typeSize f.type :=
    QualType.getUnqualifiedType_keeps (Ty.sizeOf fun c => (D.decl c).size) (fun _ _ => rfl) f.type
  have helem := Ty.getElemQualTypeOrNull_eq f.type.getUnqualifiedType.qualified
    f.type.getUnqualifiedType.ty
  have hfield : D.containField offset f = if f.name = none then none else
      ((getElemQualTypeOrNull f.type.getUnqualifiedType.qualified
        f.type.getUnqualifiedType.ty).bind (·.ty.getAsRecord)).map fun e =>
          ⟨offset + f.bitOffset / 8, D.typeSize f.type.getUnqualifiedType, e⟩ := by
    unfold containField
    rw [Option.map_eq_bind, Option.bind_assoc]
    rfl
  rw [hfield, helem, hclass, hsize]
  by_cases hname : f.name = none
  · rw [if_pos hname, if_neg fun h => (seen_iff.mp h).1 hname]
  rw [if_neg hname]
  by_cases hhidden : Hidden f
  · have hno : f.type.getUnqualifiedType.ty.hidden = true := hhidden
    rw [if_pos hno, if_neg fun h => (seen_iff.mp h).2.2 hhidden]
    rfl
  have hno : ¬ f.type.getUnqualifiedType.ty.hidden = true := hhidden
  rw [if_neg hno]
  cases hsome : f.type.ty.classElem with
  | none => rw [if_neg fun h => by simpa [hsome] using (seen_iff.mp h).2.1, Option.map_none]
  | some e =>
    rw [if_pos (seen_iff.mpr ⟨hname, by simp [hsome], hhidden⟩), Option.map_some, triple, hsome]
    rfl

/-- The vector lists the fields that the code sees, once each. -/
theorem constructContainVector_perm (D : TypedDecls) (c offset : ℕ) :
    (D.constructContainVector c offset).Perm ((D.occurrences seen c).map (D.triple offset)) := by
  induction c using Nat.strongRecOn generalizing offset with
  | ind c ih =>
    rw [constructContainVector_eq, occurrences_eq, List.map_append, List.map_map]
    refine List.Perm.append ?_ ?_
    · -- the fields of the class itself
      have hfields : (D.decl c).fields.filterMap (D.containField offset) =
          ((D.decl c).fields.filter seen).map (D.triple offset ∘ Prod.mk []) := by
        induction (D.decl c).fields with
        | nil => rfl
        | cons f fields ihf =>
          rw [List.filterMap_cons, List.filter_cons, containField_eq]
          by_cases hseen : seen f = true
          · rw [if_pos hseen, if_pos hseen, List.map_cons, ihf]
            rfl
          · rw [if_neg hseen, if_neg hseen, ihf]
      rw [hfields]
    · -- those of its bases, in the order of their offsets
      refine ((List.perm_insertionSort _ _).flatMap_right _).trans ?_
      rw [List.map_flatMap]
      refine List.Perm.flatMap_left _ ?_
      intro b hb
      refine (ih b.cls (D.bases_lt c b hb) (offset + b.offset)).trans (.of_eq ?_)
      rw [List.map_map]
      refine List.map_congr_left ?_
      intro x _
      simp only [triple, Function.comp_apply, List.map_cons, List.sum_cons, Contained.mk.injEq,
        and_true]
      omega

/-- The vector lists each class-typed field once and nothing else exactly if none
of them is an array that is written through sugar. -/
theorem constructContainVector_exact_iff (D : TypedDecls) (c : ℕ) :
    D.Exact c ↔ ∀ x, D.ClassTyped c x → ¬ Hidden x.2 := by
  have hperm := constructContainVector_perm D c 0
  constructor
  · rintro ⟨occurrences, hnodup, hmem, hvector⟩
    have hlength : occurrences.length = (D.occurrences seen c).length := by
      have h := (hvector.symm.trans hperm).length_eq
      rwa [List.length_map, List.length_map] at h
    have hsubset : D.occurrences seen c ⊆ occurrences := by
      intro x hx
      rcases mem_occurrences.mp hx with ⟨hfield, hseen⟩
      rcases seen_iff.mp hseen with ⟨hname, hclass, -⟩
      exact (hmem x).mpr ⟨hfield, hname, hclass⟩
    -- as many fields are seen as there are, so all are
    have hall := (nodup_occurrences.subperm hsubset).perm_of_length_le hlength.le
    intro x hx
    have hseen := (mem_occurrences.mp (hall.mem_iff.mpr ((hmem x).mpr hx))).2
    exact (seen_iff.mp hseen).2.2
  · intro hvisible
    refine ⟨_, nodup_occurrences, fun x => ?_, hperm⟩
    rw [mem_occurrences, seen_iff]
    constructor
    · rintro ⟨hfield, hname, hclass, -⟩
      exact ⟨hfield, hname, hclass⟩
    · intro hx
      exact ⟨hx.1, hx.2.1, hx.2.2, hvisible x hx⟩

/-! ## The fields of a table -/

/-- The classes of `C` have the layout of those of `D`, with the fields that the
code sees. -/
structure Sees (D : TypedDecls) (C : ClassDecls) : Prop where
  size : ∀ c, (C.decl c).size = (D.decl c).size
  bases : ∀ c, (C.decl c).bases = (D.decl c).bases
  fields : ∀ c, (C.decl c).fields = ((D.decl c).fields.filter seen).map fun f =>
    ⟨f.bitOffset / 8, f.type.ty.classElem.getD 0, f.type.ty.elemCount⟩

theorem typeSize_eq (D : TypedDecls) {t : QualType} {e : ℕ} (h : t.ty.classElem = some e) :
    D.typeSize t = t.ty.elemCount * (D.decl e).size := by
  unfold typeSize
  rcases t with ⟨q, t⟩
  dsimp only at h ⊢
  induction t with
  | record c =>
    obtain rfl := Option.some.inj h
    exact (Nat.one_mul _).symm
  | other n => cases h
  | array q e n ih =>
    unfold Ty.sizeOf Ty.elemCount
    rw [ih h, Nat.mul_assoc]
  | sugar q t ih => exact ih h

/-- The tables of such classes are the ones that the code builds from the types. -/
theorem Sees.constructContainVector {D : TypedDecls} {C : ClassDecls} (h : Sees D C)
    (c offset : ℕ) : D.constructContainVector c offset = C.constructContainVector c offset := by
  induction c using Nat.strongRecOn generalizing offset with
  | ind c ih =>
    have hbases : D.sortedBases c = C.sortedBases c := by
      rw [TypedDecls.sortedBases, ClassDecls.sortedBases, h.bases]
    rw [constructContainVector_eq, ClassDecls.constructContainVector_eq, ← hbases]
    congr 1
    · rw [ClassDecls.containFields, h.fields, List.map_map]
      induction (D.decl c).fields with
      | nil => rfl
      | cons f fields ihf =>
        rw [List.filterMap_cons, List.filter_cons, containField_eq]
        by_cases hseen : seen f = true
        · rcases Option.isSome_iff_exists.mp (seen_iff.mp hseen).2.1 with ⟨e, he⟩
          rw [if_pos hseen, if_pos hseen, List.map_cons, ← ihf]
          simp [triple, he, typeSize_eq D he, h.size]
        · rw [if_neg hseen, if_neg hseen, ihf]
    · refine List.flatMap_congr ?_
      intro b hb
      exact ih b.cls (D.bases_lt c b ((List.mem_insertionSort _).mp hb)) _

end TypedDecls

/-! ## An array behind a typedef -/

/-- `struct T { int x; }; typedef T A[2]; struct C { A f; T g[2]; };`: class 1 has the
field `f`, class 2 the field `g`. -/
def aliasDecl : ℕ → TypedDecl
  | 0 => ⟨4, [], [⟨some "x", 0, ⟨false, .other 4⟩⟩]⟩
  | 1 => ⟨8, [], [⟨some "f", 0, ⟨false, .sugar false (.array false (.record 0) 2)⟩⟩]⟩
  | 2 => ⟨8, [], [⟨some "g", 0, ⟨false, .array false (.sugar false (.record 0)) 2⟩⟩]⟩
  | _ => ⟨1, [], []⟩

def aliasDecls : TypedDecls where
  decl := aliasDecl
  bases_lt := by
    intro c b hb
    match c, hb with
    | 0, hb | 1, hb | 2, hb | c + 3, hb => exact absurd hb List.not_mem_nil
  fields_lt := by
    intro c f hf e he
    match c, hf with
    | 0, hf | 1, hf | 2, hf =>
      rw [List.mem_singleton.mp hf] at he
      cases he <;> decide
    | c + 3, hf => exact absurd hf List.not_mem_nil
  bases_nodup := by
    intro c
    match c with
    | 0 | 1 | 2 | c + 3 => exact List.nodup_nil
  fields_nodup := by
    intro c
    match c with
    | 0 | 1 | 2 => exact List.nodup_singleton _
    | c + 3 => exact List.nodup_nil

/-- The field `f` is not in the table of its class. -/
theorem constructContainVector_alias :
    aliasDecls.ClassTyped 1
        ([], ⟨some "f", 0, ⟨false, .sugar false (.array false (.record 0) 2)⟩⟩) ∧
      aliasDecls.constructContainVector 1 0 = [] ∧ ¬ aliasDecls.Exact 1 := by
  have hfield : aliasDecls.ClassTyped 1
      ([], ⟨some "f", 0, ⟨false, .sugar false (.array false (.record 0) 2)⟩⟩) := by
    refine ⟨?_, by decide, by decide⟩
    unfold TypedDecls.HasField
    exact List.mem_singleton_self _
  have hnil : aliasDecls.constructContainVector 1 0 = [] := by decide
  refine ⟨hfield, hnil, ?_⟩
  rintro ⟨occurrences, -, hmem, hvector⟩
  rw [hnil, List.nil_perm, List.map_eq_nil_iff] at hvector
  have hin := (hmem _).mpr hfield
  rw [hvector] at hin
  exact List.not_mem_nil hin

/-- The field `g`, with the typedef inside the array, is. -/
example : aliasDecls.constructContainVector 2 0 = [⟨0, 8, 0⟩] := by decide

end Caver.CodeGen
