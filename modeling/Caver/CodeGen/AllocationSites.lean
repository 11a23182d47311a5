import Caver.CodeGen.SourceBlacklist
import Caver.CodeGen.StackScopes

/-!
# Caver.CodeGen.AllocationSites — which objects the three kinds of allocation register

New-expressions, local variables and global variables are instrumented in three places,
each with its own tests and its own query of the blacklist.

* `emitCXXNewExprHook`, `emitAutoVarDecl`, `emitGlobalVarHook`: the hooks that are emitted.
* `startFunction`: functions that the blacklist excludes are not instrumented.
* `registrations_iff`: when all three are suppressed by allocation types and by nothing else.
-/

namespace Caver.CodeGen

open Caver.Runtime

/-! ## The blacklist -/

/-- What the blacklist asks of a function. -/
structure LLVMFunction where
  moduleIdentifier : Text
  name : Text

/-- `SanitizerBlacklist::isIn`, of a function. -/
def isIn (R : RegexEngine) (L : SpecialCaseList) (F : LLVMFunction) : Bool :=
  inSection R L "src".toList F.moduleIdentifier [] || inSection R L "fun".toList F.name []

def isBlacklistedType (R : RegexEngine) (L : SpecialCaseList) (mangledTypeName : Text) : Bool :=
  inSection R L "type".toList mangledTypeName []

def isBlacklistedAllocType (R : RegexEngine) (L : SpecialCaseList) (mangledAllocTypeName : Text) :
    Bool :=
  inSection R L "atype".toList mangledAllocTypeName []

/-! ## The three places -/

/-- The options of `-fsanitize` that the three places read. -/
structure SanitizerOptions where
  cver : Bool
  cverStack : Bool
deriving DecidableEq, Repr

def SanitizerOptions.disabled : SanitizerOptions := ⟨false, false⟩

/-- `StartFunction`: the options for the code of a function. -/
def startFunction (R : RegexEngine) (L : SpecialCaseList) (langOpts : SanitizerOptions)
    (F : LLVMFunction) : SanitizerOptions :=
  if isIn R L F then SanitizerOptions.disabled else langOpts

/-- The type of an object. Its class is none if it has another type. -/
structure ObjectType where
  mangledName : String
  allocSize : Uptr
  record : Option CXXRecordDecl

/-- A new-expression. `isArray` says whether a number of elements is passed. -/
structure CXXNewExpr where
  numPlacementArgs : ℕ
  allocType : ObjectType
  isArray : Bool

/-- The arguments of `__cver_handle_new` but the address. -/
structure NewHook where
  typeTable : Uptr
  isArray : Bool
deriving DecidableEq, Repr

/-- The instrumentation in `EmitCXXNewExpr`. -/
def emitCXXNewExprHook (R : RegexEngine) (L : SpecialCaseList) (sanOpts : SanitizerOptions)
    (E : CXXNewExpr) : Option NewHook :=
  if sanOpts.cver && E.numPlacementArgs == 0 &&
      !isBlacklistedAllocType R L E.allocType.mangledName.toList then do
    let RD ← E.allocType.record
    let typeTable ← RD.typeTable
    return ⟨typeTable, E.isArray⟩
  else none

/-- What `EmitAutoVarDecl` reads: the options, and the allocation types of the blacklist. -/
def stackConfig (R : RegexEngine) (L : SpecialCaseList) (sanOpts : SanitizerOptions)
    (flags : Flags) (malloc : Malloc) : StackConfig where
  cver := sanOpts.cver
  cverStack := sanOpts.cverStack
  isBlacklistedAllocType name := isBlacklistedAllocType R L name.toList
  flags := flags
  malloc := malloc

/-- The arguments of `__cver_handle_global_var` but the address. -/
structure GlobalHook where
  typeTable : Uptr
  allocSize : Uptr
deriving DecidableEq, Repr

/-- The instrumentation in `EmitGlobalVarDefinition`. It belongs to no function. -/
def emitGlobalVarHook (R : RegexEngine) (L : SpecialCaseList) (langOpts : SanitizerOptions)
    (Ty : ObjectType) : Option GlobalHook :=
  if langOpts.cver && Ty.allocSize > 0 then do
    let RD ← Ty.record
    let typeTable ← RD.typeTable
    if RD.hasDefinition && !RD.isAnonymousStructOrUnion &&
        !isBlacklistedType R L Ty.mangledName.toList then
      return ⟨typeTable, Ty.allocSize⟩
    else none
  else none

/-! ## The objects of a class -/

/-- A complete class with a name and a size. -/
structure NamedClass where
  mangledName : String
  typeTable : Uptr
  size : Uptr
  size_pos : 0 < size

namespace NamedClass

def decl (C : NamedClass) : CXXRecordDecl := ⟨true, false, some C.typeTable, C.mangledName⟩

def type (C : NamedClass) : ObjectType := ⟨C.mangledName, C.size, some C.decl⟩

/-- A local variable with an alloca. -/
def autoVar (C : NamedClass) (isByRef : Bool) : AutoVarDecl := ⟨false, isByRef, C.size, some C.decl⟩

/-- The list has an entry for the class in the section. -/
def Listed (C : NamedClass) (R : RegexEngine) (L : SpecialCaseList) (sect : Text) : Prop :=
  inSection R L sect C.mangledName.toList [] = true

instance (C : NamedClass) (R : RegexEngine) (L : SpecialCaseList) (sect : Text) :
    Decidable (C.Listed R L sect) :=
  inferInstanceAs (Decidable (_ = true))

end NamedClass

/-- Which objects of a class are registered. -/
structure Registrations where
  byNew : Bool
  onStack : Bool
  asGlobal : Bool
deriving DecidableEq, Repr

/-- An object that a function creates without placement arguments, one of its local variables,
and a global variable. -/
def registrations (R : RegexEngine) (L : SpecialCaseList) (langOpts : SanitizerOptions)
    (flags : Flags) (malloc : Malloc) (F : LLVMFunction) (C : NamedClass)
    (isArray isByRef : Bool) : Registrations :=
  let sanOpts := startFunction R L langOpts F
  { byNew := (emitCXXNewExprHook R L sanOpts ⟨0, C.type, isArray⟩).isSome
    onStack :=
      (emitAutoVarDecl (stackConfig R L sanOpts flags malloc) (C.autoVar isByRef)).isSome
    asGlobal := (emitGlobalVarHook R L langOpts C.type).isSome }

/-- Every kind of allocation is registered, unless the list has an allocation type for the
class. -/
def Registrations.UnlessListed (r : Registrations) (listed : Prop) : Prop :=
  (r.byNew = true ↔ ¬ listed) ∧ (r.onStack = true ↔ ¬ listed) ∧ (r.asGlobal = true ↔ ¬ listed)

/-! ## What each place asks -/

variable {R : RegexEngine} {L : SpecialCaseList} {C : NamedClass}

theorem emitCXXNewExprHook_isSome (sanOpts : SanitizerOptions) (isArray : Bool) :
    (emitCXXNewExprHook R L sanOpts ⟨0, C.type, isArray⟩).isSome =
      (sanOpts.cver && !isBlacklistedAllocType R L C.mangledName.toList) := by
  rcases sanOpts with ⟨cver, cverStack⟩
  cases cver <;> cases hlisted : isBlacklistedAllocType R L C.mangledName.toList <;>
    simp [emitCXXNewExprHook, hlisted, NamedClass.type, NamedClass.decl]

theorem emitAutoVarDecl_isSome (sanOpts : SanitizerOptions) (flags : Flags) (malloc : Malloc)
    (isByRef : Bool) :
    (emitAutoVarDecl (stackConfig R L sanOpts flags malloc) (C.autoVar isByRef)).isSome =
      (sanOpts.cver && sanOpts.cverStack && !isByRef &&
        !isBlacklistedAllocType R L C.mangledName.toList) := by
  have hsize := C.size_pos
  rcases sanOpts with ⟨cver, cverStack⟩
  cases cver <;> cases cverStack <;> cases isByRef <;>
    cases hlisted : isBlacklistedAllocType R L C.mangledName.toList <;>
    simp [emitAutoVarDecl, stackConfig, hlisted, hsize, NamedClass.autoVar, NamedClass.decl]

/-- Global variables ask for types. -/
theorem emitGlobalVarHook_isSome (langOpts : SanitizerOptions) :
    (emitGlobalVarHook R L langOpts C.type).isSome =
      (langOpts.cver && !isBlacklistedType R L C.mangledName.toList) := by
  have hsize := C.size_pos
  rcases langOpts with ⟨cver, cverStack⟩
  cases cver <;> cases hlisted : isBlacklistedType R L C.mangledName.toList <;>
    simp [emitGlobalVarHook, hlisted, hsize, NamedClass.type, NamedClass.decl]

/-- A class is listed by the entries of the file, one by one. -/
theorem NamedClass.listed_iff {reading : Reading} (hR : R.Standard reading) {buffer : Text}
    (hL : parse R buffer = .ok L) {sect : Text}
    (hback : NoBackrefs R sect [] (entriesOf buffer)) :
    C.Listed R L sect ↔
      ∃ e ∈ entriesOf buffer, e.In sect [] ∧ e.Accepts reading C.mangledName.toList :=
  inSection_iff hR hL hback C.mangledName.toList

/-- With both options on, the three places agree with the allocation types of the list exactly
if the class is listed as a type when it is listed as an allocation type, and where it is not,
the function is instrumented and the variable is not shared with blocks. -/
theorem registrations_iff (R : RegexEngine) (L : SpecialCaseList) (flags : Flags)
    (malloc : Malloc) (F : LLVMFunction) (C : NamedClass) (isArray isByRef : Bool) :
    (registrations R L ⟨true, true⟩ flags malloc F C isArray isByRef).UnlessListed
        (C.Listed R L "atype".toList) ↔
      (C.Listed R L "type".toList ↔ C.Listed R L "atype".toList) ∧
        (isIn R L F = true ∨ isByRef = true → C.Listed R L "atype".toList) := by
  have htype : C.Listed R L "type".toList ↔
      isBlacklistedType R L C.mangledName.toList = true := Iff.rfl
  have hatype : C.Listed R L "atype".toList ↔
      isBlacklistedAllocType R L C.mangledName.toList = true := Iff.rfl
  simp only [Registrations.UnlessListed, registrations, startFunction, htype, hatype,
    emitCXXNewExprHook_isSome, emitAutoVarDecl_isSome, emitGlobalVarHook_isSome]
  -- both sides only ask whether the class is listed, the function excluded, the variable shared
  cases isIn R L F <;> cases isByRef <;>
    cases isBlacklistedAllocType R L C.mangledName.toList <;>
    cases isBlacklistedType R L C.mangledName.toList <;> simp [SanitizerOptions.disabled]

/-- `class C { long x; };`, with its type table at 0x400000. -/
def classC : NamedClass := ⟨"_ZTI1C", 0x400000, 8, by decide⟩

def mainFunction : LLVMFunction := ⟨"main.cc".toList, "main".toList⟩

/-- A class that is listed as a type loses its global variables only, and one that is listed as
an allocation type keeps them. -/
theorem global_asks_for_types :
    (∃ L, parse wildcards "type:_ZTI1C\n".toList = .ok L ∧
      ¬ classC.Listed wildcards L "atype".toList ∧
      registrations wildcards L ⟨true, true⟩ {} Malloc.bump mainFunction classC false false =
        ⟨true, true, false⟩) ∧
    ∃ L, parse wildcards "atype:_ZTI1C\n".toList = .ok L ∧
      classC.Listed wildcards L "atype".toList ∧
      registrations wildcards L ⟨true, true⟩ {} Malloc.bump mainFunction classC false false =
        ⟨false, false, true⟩ := by
  constructor
  · refine ⟨_, rfl, ?_⟩
    decide +kernel
  · refine ⟨_, rfl, ?_⟩
    decide +kernel

end Caver.CodeGen
