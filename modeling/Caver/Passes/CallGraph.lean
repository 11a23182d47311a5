import Mathlib.Data.List.Nodup
import Mathlib.Logic.Relation

/-!
# Caver.Passes.CallGraph — modules and who calls whom

* `Module`: the functions of a translation unit, with the calls in their bodies.
* `callees`: a node's edges in the call graph; the null function stands for
  anything that is not known.
* `Calls`: which function an execution can enter from which. The outside of the
  module can enter what is visible to it.
* `mayCast_iff`: a cast is reached by direct calls, or something unknown is.
-/

namespace Caver.Passes

open Relation

/-! ## Modules -/

/-- A `CallInst`, or an `InvokeInst`. Without a callee it is an indirect call. -/
structure CallSite where
  isCallInst : Bool
  callee : Option String
deriving DecidableEq, Repr

structure Function where
  name : String
  isDeclaration : Bool
  isIntrinsic : Bool
  hasLocalLinkage : Bool
  hasAddressTaken : Bool
  body : List CallSite
deriving DecidableEq, Repr

def sStackEnter : String := "__cver_handle_stack_enter"
def sStackExit : String := "__cver_handle_stack_exit"
def sCast : String := "__cver_handle_cast"

/-- The functions of the runtime that the instrumented code calls, casts apart. -/
def runtimeHooks : List String :=
  [sStackEnter, sStackExit, "__cver_handle_new", "__cver_handle_global_var"]

/-- A translation unit. Functions that are only declared have no body, and the
runtime is not part of it. -/
structure Module where
  functions : List Function
  names_nodup : (functions.map (·.name)).Nodup
  closed : ∀ F ∈ functions, ∀ cs ∈ F.body, ∀ g, cs.callee = some g → ∃ G ∈ functions, G.name = g
  declared : ∀ F ∈ functions, F.isDeclaration = true → F.body = []
  intrinsics : ∀ F ∈ functions, F.isIntrinsic = true → F.isDeclaration = true ∧ F.name ≠ sCast
  hooks : ∀ F ∈ functions, F.name ∈ runtimeHooks → F.isDeclaration = true

variable {M : Module} {F G : Function} {f g : String}

namespace Module

/-- The function of a name. -/
def function (M : Module) (f : String) : Option Function := M.functions.find? (·.name == f)

/-- The calls of a function. -/
def body (M : Module) (f : String) : List CallSite := ((M.function f).map (·.body)).getD []

theorem function_eq (hF : F ∈ M.functions) : M.function F.name = some F := by
  obtain ⟨G, hG⟩ : ∃ G, M.function F.name = some G := by
    rw [← Option.isSome_iff_exists, function, List.find?_isSome]
    exact ⟨F, hF, beq_self_eq_true _⟩
  have hmem := List.mem_of_find?_eq_some hG
  have hname : G.name = F.name := by simpa using List.find?_some hG
  rw [hG, List.inj_on_of_nodup_map M.names_nodup hmem hF hname]

theorem body_eq (hF : F ∈ M.functions) : M.body F.name = F.body := by
  unfold body
  rw [function_eq hF]
  rfl

/-- A call is in the body of a function of the module. -/
theorem mem_body {cs : CallSite} :
    cs ∈ M.body f ↔ ∃ F ∈ M.functions, F.name = f ∧ cs ∈ F.body := by
  constructor
  · intro hcs
    unfold body at hcs
    cases hf : M.function f with
    | none =>
      rw [hf] at hcs
      exact absurd hcs List.not_mem_nil
    | some F =>
      rw [hf] at hcs
      exact ⟨F, List.mem_of_find?_eq_some hf, by simpa using List.find?_some hf, hcs⟩
  · rintro ⟨F, hF, rfl, hcs⟩
    rwa [body_eq hF]

end Module

/-! ## The call graph -/

/-- `addToCallGraph`: the edges of a function's node. -/
def addToCallGraph (M : Module) (F : Function) : List (Option String) :=
  (if F.isDeclaration && !F.isIntrinsic then [none] else []) ++
    F.body.filterMap fun cs =>
      match cs.callee with
      | none => some none
      | some g => if ((M.function g).map (·.isIntrinsic)).getD false then none else some (some g)

/-- The functions that a node of the call graph calls. -/
def callees (M : Module) (f : String) : List (Option String) :=
  ((M.function f).map (addToCallGraph M)).getD []

/-- A direct call. -/
def DirectCall (M : Module) (f g : String) : Prop := ∃ cs ∈ M.body f, cs.callee = some g

/-- What calls something is no intrinsic, no hook and no declaration. -/
theorem DirectCall.defined (h : DirectCall M f g) :
    ∃ F ∈ M.functions, F.name = f ∧ F.isDeclaration = false := by
  rcases h with ⟨cs, hcs, -⟩
  rcases Module.mem_body.mp hcs with ⟨F, hF, hname, hcs⟩
  refine ⟨F, hF, hname, ?_⟩
  by_contra hdecl
  rw [M.declared F hF (by simpa using hdecl)] at hcs
  exact absurd hcs List.not_mem_nil

theorem DirectCall.target (h : DirectCall M f g) : ∃ G ∈ M.functions, G.name = g := by
  rcases h with ⟨cs, hcs, hcallee⟩
  rcases Module.mem_body.mp hcs with ⟨F, hF, -, hcs⟩
  exact M.closed F hF cs hcs g hcallee

/-- The edges to functions are the direct calls of anything but intrinsics. -/
theorem mem_callees : some g ∈ callees M f ↔ DirectCall M f g ∧
    ((M.function g).map (·.isIntrinsic)).getD false = false := by
  have hedges : ∀ F, some g ∈ addToCallGraph M F ↔ (∃ cs ∈ F.body, cs.callee = some g) ∧
      ((M.function g).map (·.isIntrinsic)).getD false = false := by
    intro F
    unfold addToCallGraph
    have hnull : ¬ some g ∈ (if F.isDeclaration && !F.isIntrinsic then [none] else []) := by
      split <;> simp
    rw [List.mem_append, or_iff_right hnull, List.mem_filterMap]
    constructor
    · rintro ⟨cs, hcs, hedge⟩
      cases hcallee : cs.callee with
      | none => simp [hcallee] at hedge
      | some k =>
        simp only [hcallee, Option.ite_none_left_eq_some, Option.some.injEq] at hedge
        rcases hedge with ⟨hintr, rfl⟩
        exact ⟨⟨cs, hcs, hcallee⟩, by simpa using hintr⟩
    · rintro ⟨⟨cs, hcs, hcallee⟩, hintr⟩
      exact ⟨cs, hcs, by simp [hcallee, hintr]⟩
  unfold callees DirectCall Module.body
  cases M.function f with
  | none => simp
  | some F => exact hedges F

/-! ## Executions -/

/-- An execution in the first function can enter the second one; `none` is the
outside of the module. -/
inductive Calls (M : Module) : Option String → Option String → Prop
  | direct {f g : String} : DirectCall M f g → Calls M (some f) (some g)
  | indirect {f : String} {cs : CallSite} :
      cs ∈ M.body f → cs.callee = none → Calls M (some f) none
  | declared {F : Function} : F ∈ M.functions → F.isDeclaration = true →
      F.isIntrinsic = false → F.name ∉ runtimeHooks → Calls M (some F.name) none
  | callback {F : Function} : F ∈ M.functions →
      F.hasLocalLinkage = false ∨ F.hasAddressTaken = true → Calls M none (some F.name)

/-- The code itself calls `__cver_handle_cast`. The outside can be instrumented. -/
def CallsCast (M : Module) : Option String → Prop
  | none => True
  | some f => DirectCall M f sCast

/-- An execution of the function can reach a cast. -/
def MayCast (M : Module) (f : String) : Prop :=
  ∃ n, ReflTransGen (Calls M) (some f) n ∧ CallsCast M n

/-- Direct calls alone reach a cast. -/
def DirectCast (M : Module) (f : String) : Prop :=
  ∃ g, ReflTransGen (DirectCall M) f g ∧ DirectCall M g sCast

/-- Direct calls reach an indirect call, or a function that is only declared and
no hook of the runtime. -/
def ReachesUnknown (M : Module) (f : String) : Prop :=
  ∃ g, ReflTransGen (DirectCall M) f g ∧ Calls M (some g) none

theorem DirectCast.head (h : DirectCall M f g) (hg : DirectCast M g) : DirectCast M f := by
  rcases hg with ⟨k, hpath, hk⟩
  exact ⟨k, ReflTransGen.head h hpath, hk⟩

theorem ReachesUnknown.head (h : DirectCall M f g) (hg : ReachesUnknown M g) :
    ReachesUnknown M f := by
  rcases hg with ⟨k, hpath, hk⟩
  exact ⟨k, ReflTransGen.head h hpath, hk⟩

/-- A path of direct calls is one of an execution. -/
theorem calls_of_direct (h : ReflTransGen (DirectCall M) f g) :
    ReflTransGen (Calls M) (some f) (some g) :=
  h.lift some fun _ _ => Calls.direct

/-- A cast is reached by direct calls, or after the module has been left. -/
theorem mayCast_iff (M : Module) (f : String) :
    MayCast M f ↔ DirectCast M f ∨ ReachesUnknown M f := by
  constructor
  · rintro ⟨n, hpath, hn⟩
    -- the first edge that is no direct call leaves the module
    have hfirst : ∀ m, ReflTransGen (Calls M) m n → ∀ f, m = some f →
        DirectCast M f ∨ ReachesUnknown M f := by
      intro m hpath
      induction hpath using ReflTransGen.head_induction_on with
      | refl =>
        rintro f rfl
        exact Or.inl ⟨f, ReflTransGen.refl, hn⟩
      | head hstep _ ih =>
        rintro f rfl
        cases hstep with
        | direct hcall => exact (ih _ rfl).imp (.head hcall) (.head hcall)
        | indirect hcs hcallee => exact Or.inr ⟨f, .refl, .indirect hcs hcallee⟩
        | declared hF hdecl hintr hhook => exact Or.inr ⟨_, .refl, .declared hF hdecl hintr hhook⟩
    exact hfirst (some f) hpath f rfl
  · rintro (⟨g, hpath, hg⟩ | ⟨g, hpath, hg⟩)
    · exact ⟨some g, calls_of_direct hpath, hg⟩
    · exact ⟨none, (calls_of_direct hpath).tail hg, trivial⟩

end Caver.Passes
