import Caver.Core.Search
import Caver.Passes.CallGraph

/-!
# Caver.Passes.PruneStack — removing the stack hooks of functions without casts

* `isAnyCallesInvokeCast`: the depth-first search of the call graph for
  `__cver_handle_cast`. It skips the null function.
* `runPass`: the pass over all the strongly connected components.
* `runPass_eq`: it erases the hooks of the functions from which no direct calls
  reach a cast.
* `pruned_mayCast_iff`: where what is unknown can be reached, that is too much.
-/

namespace Caver.Passes

open Relation Caver.Core

variable {M : Module} {F : Function} {f g : String}

/-! ## Erasing the hooks -/

/-- A `CallInst` of one of the hooks, as `CollectStackInvokeInstructions` selects. -/
def isStackCall (cs : CallSite) : Bool :=
  cs.isCallInst && (cs.callee == some sStackEnter || cs.callee == some sStackExit)

/-- The body without the selected instructions. -/
def eraseStackCalls (body : List CallSite) : List CallSite := body.filter (!isStackCall ·)

theorem eraseStackCalls_sublist (body : List CallSite) : (eraseStackCalls body).Sublist body :=
  List.filter_sublist

theorem eraseStackCalls_idem (body : List CallSite) :
    eraseStackCalls (eraseStackCalls body) = eraseStackCalls body := by
  unfold eraseStackCalls
  rw [List.filter_filter]
  simp only [Bool.and_self]

theorem eraseStackCalls_ne_iff {body : List CallSite} :
    eraseStackCalls body ≠ body ↔ ∃ cs ∈ body, isStackCall cs = true := by
  unfold eraseStackCalls
  rw [Ne, List.filter_eq_self]
  simp

/-- A call that the pass erases is one of a hook. -/
theorem isStackCall.hook {cs : CallSite} (h : isStackCall cs = true) :
    cs.callee = some sStackEnter ∨ cs.callee = some sStackExit := by
  unfold isStackCall at h
  rw [Bool.and_eq_true, Bool.or_eq_true, beq_iff_eq, beq_iff_eq] at h
  exact h.2

/-- A function, with the hooks erased if it is one of `fs`. -/
def Function.eraseIn (fs : List String) (F : Function) : Function :=
  if F.name ∈ fs then { F with body := eraseStackCalls F.body } else F

@[simp] theorem Function.eraseIn_name (fs : List String) (F : Function) :
    (F.eraseIn fs).name = F.name := by
  unfold eraseIn
  split <;> rfl

@[simp] theorem Function.eraseIn_isDeclaration (fs : List String) (F : Function) :
    (F.eraseIn fs).isDeclaration = F.isDeclaration := by
  unfold eraseIn
  split <;> rfl

@[simp] theorem Function.eraseIn_isIntrinsic (fs : List String) (F : Function) :
    (F.eraseIn fs).isIntrinsic = F.isIntrinsic := by
  unfold eraseIn
  split <;> rfl

theorem Function.eraseIn_body (fs : List String) (F : Function) :
    (F.eraseIn fs).body = if F.name ∈ fs then eraseStackCalls F.body else F.body := by
  unfold eraseIn
  split <;> rfl

theorem Function.eraseIn_body_subset (fs : List String) (F : Function) :
    (F.eraseIn fs).body ⊆ F.body := by
  rw [eraseIn_body]
  split
  · exact (eraseStackCalls_sublist F.body).subset
  · exact List.Subset.refl _

/-- The module, with the hooks erased in the functions of `fs`. -/
def Module.erase (M : Module) (fs : List String) : Module where
  functions := M.functions.map (Function.eraseIn fs)
  names_nodup := by
    have hname : Function.name ∘ Function.eraseIn fs = Function.name := by
      funext F
      exact F.eraseIn_name fs
    rw [List.map_map]
    change (M.functions.map (Function.name ∘ Function.eraseIn fs)).Nodup
    rw [hname]
    exact M.names_nodup
  closed := by
    intro F hF cs hcs g hg
    rw [List.mem_map] at hF
    rcases hF with ⟨F, hF, rfl⟩
    rcases M.closed F hF cs (F.eraseIn_body_subset fs hcs) g hg with ⟨G, hG, hname⟩
    exact ⟨G.eraseIn fs, List.mem_map_of_mem hG, by rw [G.eraseIn_name, hname]⟩
  declared := by
    intro F hF hdecl
    rw [List.mem_map] at hF
    rcases hF with ⟨F, hF, rfl⟩
    rw [F.eraseIn_isDeclaration] at hdecl
    have hsub := F.eraseIn_body_subset fs
    rw [M.declared F hF hdecl] at hsub
    exact List.subset_nil.mp hsub
  intrinsics := by
    intro F hF hintr
    rw [List.mem_map] at hF
    rcases hF with ⟨F, hF, rfl⟩
    rw [F.eraseIn_isIntrinsic] at hintr
    rw [F.eraseIn_isDeclaration, F.eraseIn_name]
    exact M.intrinsics F hF hintr
  hooks := by
    intro F hF hhook
    rw [List.mem_map] at hF
    rcases hF with ⟨F, hF, rfl⟩
    rw [F.eraseIn_name] at hhook
    rw [F.eraseIn_isDeclaration]
    exact M.hooks F hF hhook

namespace Module

theorem ext_functions {M M' : Module} (h : M.functions = M'.functions) : M = M' := by
  cases M
  cases M'
  cases h
  rfl

theorem erase_functions (M : Module) (fs : List String) :
    (M.erase fs).functions = M.functions.map (Function.eraseIn fs) := rfl

theorem erase_nil (M : Module) : M.erase [] = M := by
  apply ext_functions
  have hid : Function.eraseIn [] = id := by
    funext F
    exact if_neg List.not_mem_nil
  rw [erase_functions, hid, List.map_id]

/-- Erasing is erasing all at once. -/
theorem erase_erase (M : Module) (fs fs' : List String) :
    (M.erase fs).erase fs' = M.erase (fs ++ fs') := by
  apply ext_functions
  rw [erase_functions, erase_functions, erase_functions, List.map_map]
  apply List.map_congr_left
  intro F _
  unfold Function.comp Function.eraseIn
  by_cases hfs : F.name ∈ fs <;> by_cases hfs' : F.name ∈ fs' <;>
    simp [hfs, hfs', eraseStackCalls_idem]

theorem function_erase (M : Module) (fs : List String) (f : String) :
    (M.erase fs).function f = (M.function f).map (Function.eraseIn fs) := by
  unfold function
  rw [erase_functions, List.find?_map]
  have hname : (fun F : Function => F.name == f) ∘ Function.eraseIn fs =
      fun F => F.name == f := by
    funext F
    simp only [Function.comp_apply, Function.eraseIn_name]
  rw [hname]

theorem body_erase (M : Module) (fs : List String) (f : String) :
    (M.erase fs).body f = if f ∈ fs then eraseStackCalls (M.body f) else M.body f := by
  unfold body
  rw [function_erase]
  cases hf : M.function f with
  | none =>
    split <;> rfl
  | some F =>
    have hname : F.name = f := by simpa using List.find?_some hf
    simp only [Option.map_some, Option.getD_some, F.eraseIn_body, hname]

end Module

/-- A function that calls something is no hook of the runtime. -/
theorem DirectCall.not_hook (h : DirectCall M f g) : f ∉ runtimeHooks := by
  intro hhook
  rcases h.defined with ⟨F, hF, rfl, hdecl⟩
  rw [M.hooks F hF hhook] at hdecl
  exact absurd hdecl (by decide)

theorem DirectCall.of_erase {fs : List String} (h : DirectCall (M.erase fs) f g) :
    DirectCall M f g := by
  rcases h with ⟨cs, hcs, hcallee⟩
  rw [M.body_erase] at hcs
  refine ⟨cs, ?_, hcallee⟩
  split at hcs
  · exact (eraseStackCalls_sublist _).subset hcs
  · exact hcs

/-- Other calls than those of the hooks stay. -/
theorem DirectCall.erase {fs : List String} (h : DirectCall M f g) (hg : g ∉ runtimeHooks) :
    DirectCall (M.erase fs) f g := by
  rcases h with ⟨cs, hcs, hcallee⟩
  refine ⟨cs, ?_, hcallee⟩
  rw [M.body_erase]
  split
  · apply List.mem_filter_of_mem hcs
    by_contra hstack
    rw [Bool.not_eq_true, Bool.not_eq_false'] at hstack
    rcases isStackCall.hook hstack with hhook | hhook
    all_goals
      rw [hcallee, Option.some.injEq] at hhook
      rw [hhook] at hg
      exact hg (by decide)
  · exact hcs

/-- Erasing hooks leaves what direct calls reach, hooks apart. -/
theorem reach_erase {P : String → Prop} (hP : ∀ g, P g → g ∉ runtimeHooks) (fs : List String)
    (f : String) :
    (∃ g, ReflTransGen (DirectCall (M.erase fs)) f g ∧ P g) ↔
      ∃ g, ReflTransGen (DirectCall M) f g ∧ P g := by
  constructor
  · rintro ⟨g, hpath, hg⟩
    exact ⟨g, hpath.lift id fun _ _ => DirectCall.of_erase, hg⟩
  · rintro ⟨g, hpath, hg⟩
    refine ⟨g, ?_, hg⟩
    induction hpath using ReflTransGen.head_induction_on with
    | refl => exact ReflTransGen.refl
    | head hstep hrest ih =>
      -- the next function is the last one, or makes a call itself
      refine ReflTransGen.head (hstep.erase ?_) ih
      rcases ReflTransGen.cases_head hrest with rfl | ⟨_, hnext, _⟩
      · exact hP _ hg
      · exact hnext.not_hook

theorem directCast_erase (M : Module) (fs : List String) (f : String) :
    DirectCast (M.erase fs) f ↔ DirectCast M f := by
  have hcast : ∀ g, DirectCall (M.erase fs) g sCast ↔ DirectCall M g sCast :=
    fun g => ⟨DirectCall.of_erase, fun h => h.erase (by decide)⟩
  unfold DirectCast
  simp only [hcast]
  exact reach_erase (fun g => DirectCall.not_hook) fs f

/-! ## The pass -/

/-- `IsInvokeStack`: the function has an edge to `__cver_handle_stack_enter`. -/
def isInvokeStack (M : Module) (f : String) : Bool := (callees M f).contains (some sStackEnter)

/-- `IsAnyCallesInvokeCast`, from no visited function. An edge to the null
function is skipped. There is a result if the bound on the depth is no less than
the number of functions. -/
def isAnyCallesInvokeCast (M : Module) (f : String) : Option Bool :=
  (search (fun f => (callees M f).filterMap id) (· == sCast) (M.functions.length + 1) f []).map
    (·.1)

/-- The functions of a component whose hooks `PruneWithDepthFirstSearch` collects. -/
def collectPruned (M : Module) : List (Option String) → Option (List String)
  | [] => some []
  | none :: scc => collectPruned M scc
  | some f :: scc =>
    if !isInvokeStack M f then collectPruned M scc
    else do
      let mayCast ← isAnyCallesInvokeCast M f
      let fs ← collectPruned M scc
      return if mayCast then fs else f :: fs

/-- `PruneWithDepthFirstSearch`: the collected hooks are erased at the end. -/
def pruneWithDepthFirstSearch (M : Module) (scc : List (Option String)) : Option Module :=
  (collectPruned M scc).map M.erase

def runOnSCC (clDisable : Bool) (M : Module) (scc : List (Option String)) : Option Module :=
  if clDisable then some M else pruneWithDepthFirstSearch M scc

/-- The pass manager's loop over the components. -/
def runPass (clDisable : Bool) (M : Module) (sccs : List (List (Option String))) : Option Module :=
  sccs.foldlM (runOnSCC clDisable) M

/-- Hooks are called here, and no direct calls reach a cast. -/
def Prunable (M : Module) (f : String) : Prop := isInvokeStack M f = true ∧ ¬ DirectCast M f

/-- What makes calls, and the cast, have their edges. -/
theorem DirectCall.edge (h : DirectCall M f g) (hg : g = sCast ∨ ∃ k, DirectCall M g k) :
    some g ∈ callees M f := by
  rw [mem_callees]
  refine ⟨h, ?_⟩
  rcases h.target with ⟨G, hG, rfl⟩
  rw [Module.function_eq hG]
  change G.isIntrinsic = false
  by_contra hintr
  obtain ⟨hdecl, hcast⟩ := M.intrinsics G hG (by simpa using hintr)
  rcases hg with hg | ⟨k, hk⟩
  · exact hcast hg
  · rcases hk.defined with ⟨G', hG', hname, hdef⟩
    rw [List.inj_on_of_nodup_map M.names_nodup hG' hG hname, hdecl] at hdef
    exact absurd hdef (by decide)

/-- What the search looks for is a cast by direct calls. -/
theorem finds_iff (M : Module) (f : String) :
    Finds (fun f => (callees M f).filterMap id) (· == sCast) f ↔ DirectCast M f := by
  have hedge : ∀ f g, g ∈ (callees M f).filterMap id ↔ some g ∈ callees M f := by
    intro f g
    simp
  constructor
  · rintro ⟨g, hpath, k, hk, hcast⟩
    rw [beq_iff_eq] at hcast
    subst hcast
    refine ⟨g, hpath.lift id fun a b hab => ?_, (mem_callees.mp ((hedge g _).mp hk)).1⟩
    exact (mem_callees.mp ((hedge a b).mp hab)).1
  · rintro ⟨g, hpath, hg⟩
    have hcast : sCast ∈ (callees M g).filterMap id := (hedge g _).mpr (hg.edge (Or.inl rfl))
    induction hpath using ReflTransGen.head_induction_on with
    | refl => exact ⟨g, ReflTransGen.refl, sCast, hcast, beq_self_eq_true _⟩
    | head hstep hrest ih =>
      refine Finds.head ((hedge _ _).mpr (hstep.edge (Or.inr ?_))) ih
      rcases ReflTransGen.cases_head hrest with rfl | ⟨k, hnext, _⟩
      · exact ⟨sCast, hg⟩
      · exact ⟨k, hnext⟩

/-- The search returns, and tells whether direct calls reach a cast. -/
theorem isAnyCallesInvokeCast_eq (hF : F ∈ M.functions) :
    ∃ mayCast, isAnyCallesInvokeCast M F.name = some mayCast ∧
      (mayCast = true ↔ DirectCast M F.name) := by
  have hclosed : ∀ f ∈ M.functions.map (·.name),
      (callees M f).filterMap id ⊆ M.functions.map (·.name) := by
    intro f _ g hg
    rw [List.mem_filterMap] at hg
    rcases hg with ⟨g', hg', rfl⟩
    rcases (mem_callees.mp hg').1.target with ⟨G, hG, rfl⟩
    exact List.mem_map_of_mem hG
  have hsearch : ∃ mayCast visited, search (fun f => (callees M f).filterMap id) (· == sCast)
      (M.functions.length + 1) F.name [] = some (mayCast, visited) ∧
      (mayCast = true ↔ Finds (fun f => (callees M f).filterMap id) (· == sCast) F.name) :=
    search_eq hclosed (List.mem_map_of_mem hF) (by simp)
  rcases hsearch with ⟨mayCast, visited, hrun, hiff⟩
  refine ⟨mayCast, ?_, hiff.trans (finds_iff M F.name)⟩
  unfold isAnyCallesInvokeCast
  rw [hrun]
  rfl

/-- What is collected from a component. -/
theorem collectPruned_eq (M : Module) (scc : List (Option String)) :
    ∃ fs, collectPruned M scc = some fs ∧ ∀ f, f ∈ fs ↔ some f ∈ scc ∧ Prunable M f := by
  induction scc with
  | nil => exact ⟨[], rfl, by simp⟩
  | cons node scc ih =>
    rcases ih with ⟨fs, hrun, hiff⟩
    cases node with
    | none => exact ⟨fs, hrun, by simpa using hiff⟩
    | some f =>
      unfold collectPruned
      by_cases hstack : isInvokeStack M f = true
      · -- an edge leaves the node, so it is one of the module
        obtain ⟨F, hF, rfl⟩ : ∃ F ∈ M.functions, F.name = f := by
          unfold isInvokeStack at hstack
          rw [List.contains_iff_mem] at hstack
          rcases (mem_callees.mp hstack).1.defined with ⟨F, hF, hname, -⟩
          exact ⟨F, hF, hname⟩
        rcases isAnyCallesInvokeCast_eq hF with ⟨mayCast, hsearch, hcast⟩
        refine ⟨if mayCast then fs else F.name :: fs, by simp [hstack, hsearch, hrun], ?_⟩
        intro g
        have hname : Prunable M F.name ↔ ¬ mayCast = true := by
          rw [Prunable, hcast, and_iff_right hstack]
        cases mayCast with
        | true =>
          rw [if_pos rfl, hiff, List.mem_cons, Option.some.injEq]
          grind
        | false =>
          rw [if_neg Bool.false_ne_true, List.mem_cons, hiff, List.mem_cons, Option.some.injEq]
          grind
      · refine ⟨fs, by simp [hstack, hrun], ?_⟩
        intro g
        have hname : ¬ Prunable M f := fun h => hstack h.1
        rw [hiff, List.mem_cons, Option.some.injEq]
        grind

/-- What one component does: the hooks of its functions that can be pruned are erased. -/
theorem runOnSCC_erase (M : Module) (scc : List (Option String)) :
    ∃ fs, runOnSCC false M scc = some (M.erase fs) ∧
      ∀ f, f ∈ fs ↔ some f ∈ scc ∧ Prunable M f := by
  rcases collectPruned_eq M scc with ⟨fs, hcollect, hfs⟩
  refine ⟨fs, ?_, hfs⟩
  rw [runOnSCC, if_neg Bool.false_ne_true, pruneWithDepthFirstSearch, hcollect]
  rfl

/-- Functions that are not erased can be pruned as before. -/
theorem prunable_erase {fs : List String} (hf : f ∉ fs) :
    Prunable (M.erase fs) f ↔ Prunable M f := by
  have hintr : ∀ g, ((M.erase fs).function g).map (·.isIntrinsic) =
      (M.function g).map (·.isIntrinsic) := by
    intro g
    rw [M.function_erase]
    cases M.function g <;> simp
  have hedges : some sStackEnter ∈ callees (M.erase fs) f ↔ some sStackEnter ∈ callees M f := by
    rw [mem_callees, mem_callees, hintr]
    unfold DirectCall
    rw [M.body_erase, if_neg hf]
  unfold Prunable isInvokeStack
  rw [List.contains_iff_mem, List.contains_iff_mem, hedges, directCast_erase]

/-- What the pass does: it erases the hooks of the functions it visits and can prune. -/
theorem runPass_eq (M : Module) (sccs : List (List (Option String))) :
    ∃ fs, runPass false M sccs = some (M.erase fs) ∧
      ∀ f, f ∈ fs ↔ some f ∈ sccs.flatten ∧ Prunable M f := by
  induction sccs generalizing M with
  | nil => exact ⟨[], congrArg some M.erase_nil.symm, by simp⟩
  | cons scc sccs ih =>
    rcases runOnSCC_erase M scc with ⟨fs, hscc, hfs⟩
    rcases ih (M.erase fs) with ⟨fs', hrun, hfs'⟩
    refine ⟨fs ++ fs', ?_, ?_⟩
    · rw [runPass] at hrun ⊢
      rw [List.foldlM_cons, hscc, ← M.erase_erase]
      exact hrun
    · intro f
      rw [List.mem_append, List.flatten_cons, List.mem_append, or_and_right, ← hfs, hfs']
      by_cases hf : f ∈ fs
      · simp [hf]
      · rw [prunable_erase hf]

/-! ## Soundness -/

/-- A function that leaves the module is no hook of the runtime. -/
theorem Calls.not_hook (h : Calls M (some f) none) : f ∉ runtimeHooks := by
  cases h with
  | indirect hcs _ =>
    intro hhook
    rcases Module.mem_body.mp hcs with ⟨F, hF, rfl, hbody⟩
    rw [M.declared F hF (M.hooks F hF hhook)] at hbody
    exact absurd hbody List.not_mem_nil
  | declared _ _ _ hhook => exact hhook

/-- The same functions leave the module after hooks are erased. -/
theorem calls_none_erase (M : Module) (fs : List String) (f : String) :
    Calls (M.erase fs) (some f) none ↔ Calls M (some f) none := by
  constructor
  · intro h
    cases h with
    | indirect hcs hcallee =>
      refine .indirect ?_ hcallee
      rw [M.body_erase] at hcs
      split at hcs
      · exact (eraseStackCalls_sublist _).subset hcs
      · exact hcs
    | declared hF hdecl hintr hhook =>
      rw [M.erase_functions, List.mem_map] at hF
      rcases hF with ⟨F, hF, rfl⟩
      rw [F.eraseIn_name] at hhook ⊢
      exact .declared hF (by simpa using hdecl) (by simpa using hintr) hhook
  · intro h
    cases h with
    | @indirect _ cs hcs hcallee =>
      refine .indirect ?_ hcallee
      rw [M.body_erase]
      split
      · exact List.mem_filter_of_mem hcs (by simp [isStackCall, hcallee])
      · exact hcs
    | @declared F hF hdecl hintr hhook =>
      rw [← F.eraseIn_name fs] at hhook ⊢
      exact .declared (List.mem_map_of_mem hF) (by simpa using hdecl) (by simpa using hintr) hhook

/-- Executions reach a cast after the pass if they did before. -/
theorem mayCast_erase (M : Module) (fs : List String) (f : String) :
    MayCast (M.erase fs) f ↔ MayCast M f := by
  rw [mayCast_iff, mayCast_iff, directCast_erase]
  unfold ReachesUnknown
  simp only [calls_none_erase]
  rw [reach_erase (fun g => Calls.not_hook)]

/-- No execution of a function whose hooks the pass removes reaches a cast, unless
the pass visits it, it calls a hook, and its direct calls reach no cast but
something that is not known. -/
theorem pruned_mayCast_iff (clDisable : Bool) (M : Module) (sccs : List (List (Option String)))
    (f : String) :
    ∃ M', runPass clDisable M sccs = some M' ∧
      ((M'.body f ≠ M.body f → ¬ MayCast M' f) ↔
        clDisable = true ∨ some f ∉ sccs.flatten ∨
          ¬ (isInvokeStack M f = true ∧ ∃ cs ∈ M.body f, isStackCall cs = true) ∨
          DirectCast M f ∨ ¬ ReachesUnknown M f) := by
  cases clDisable with
  | true =>
    refine ⟨M, ?_, by simp⟩
    induction sccs with
    | nil => rfl
    | cons scc sccs ih =>
      rw [runPass] at ih ⊢
      rw [List.foldlM_cons]
      exact ih
  | false =>
    rcases runPass_eq M sccs with ⟨fs, hrun, hfs⟩
    refine ⟨M.erase fs, hrun, ?_⟩
    have herased : (M.erase fs).body f ≠ M.body f ↔
        f ∈ fs ∧ ∃ cs ∈ M.body f, isStackCall cs = true := by
      rw [M.body_erase]
      by_cases hf : f ∈ fs
      · rw [if_pos hf, eraseStackCalls_ne_iff, and_iff_right hf]
      · simp [hf]
    rw [herased, hfs, mayCast_erase, mayCast_iff]
    unfold Prunable
    grind

/-- A hook, or a cast: the runtime is linked later. -/
def runtimeFunction (name : String) : Function :=
  ⟨name, true, false, false, false, []⟩

/-- `visit` has a local object and calls through a pointer; `downcast` is passed
to it and casts. -/
def callbackModule : Module where
  functions :=
    [runtimeFunction sStackEnter, runtimeFunction sStackExit, runtimeFunction sCast,
      ⟨"visit", false, false, false, false,
        [⟨true, some sStackEnter⟩, ⟨true, none⟩, ⟨true, some sStackExit⟩]⟩,
      ⟨"downcast", false, false, true, true, [⟨true, some sCast⟩]⟩]
  names_nodup := by decide
  closed := by simp [runtimeFunction]
  declared := by decide
  intrinsics := by decide
  hooks := by decide

/-- The pass takes the call through the pointer for no call. -/
theorem pruned_indirect_call :
    ∃ M', runPass false callbackModule [[some "downcast"], [some "visit"]] = some M' ∧
      M'.body "visit" ≠ callbackModule.body "visit" ∧ MayCast M' "visit" := by
  refine ⟨callbackModule.erase ["visit"], rfl, by decide, some "downcast", ?_, ?_⟩
  · have hleave : Calls (callbackModule.erase ["visit"]) (some "visit") none :=
      @Calls.indirect _ "visit" ⟨true, none⟩ (by decide) rfl
    have henter : Calls (callbackModule.erase ["visit"]) none (some "downcast") :=
      .callback (F := ⟨"downcast", false, false, true, true, [⟨true, some sCast⟩]⟩)
        (by decide) (Or.inr rfl)
    exact (ReflTransGen.single hleave).tail henter
  · exact ⟨⟨true, some sCast⟩, by decide, rfl⟩

end Caver.Passes
