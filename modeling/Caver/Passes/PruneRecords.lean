import Caver.Passes.CallRecords

/-!
# Caver.Passes.PruneRecords — the pass and the call graph

* `runOnSCC`: the pass on the nodes of a component, with the instructions it deletes.
* `runPassOnSCC`: the same under the pass manager, which checks the call graph after a
  pass that has changed something.
* `runOnSCC_agrees_iff`: the call graph agrees with the code after the pass where
  nothing was to be deleted. The pass removes no record.
-/

namespace Caver.Passes

open Relation

variable {φ ν ι : Type} [DecidableEq φ] [DecidableEq ι]

/-! ## The pass -/

/-- A `CallInst` of one of the hooks, as `CollectStackInvokeInstructions` selects. -/
def Code.isStackInvoke (C : Code φ ι) (i : ι) : Bool :=
  match C.instruction i with
  | .call (some callee) => C.getName callee == sStackEnter || C.getName callee == sStackExit
  | _ => false

def Code.collectStackInvokeInstructions (C : Code φ ι) (F : φ) : List ι :=
  (C.body F).filter C.isStackInvoke

namespace Program

/-- `IsInvokeStack`. It asserts that the function has a node. -/
def isInvokeStack (P : Program φ ν ι) (F : φ) : Option Bool :=
  (P.callGraph.functionMap F).map fun cgNode =>
    (P.callGraph.calledFunctions cgNode).any fun record =>
      (P.callGraph.getFunction record.2).any fun calleeFunction =>
        P.code.getName calleeFunction == sStackEnter

/-- The loop over the component: `InstToDelete`, and `isModified`. -/
def collect (P : Program φ ν ι) : List ν → Option (List ι × Bool)
  | [] => some ([], false)
  | n :: scc =>
    match P.callGraph.getFunction n with
    | none => collect P scc
    | some F => do
      if !(← P.isInvokeStack F) then collect P scc
      else
        let (mayCast, _) ← P.callGraph.isAnyCallesInvokeCast P.code.getName
          (P.callGraph.nodes.length + 1) F []
        let (instToDelete, isModified) ← collect P scc
        if mayCast then return (instToDelete, isModified)
        return (P.code.collectStackInvokeInstructions F ++ instToDelete, true)

def pruneWithDepthFirstSearch (P : Program φ ν ι) (scc : List ν) :
    Option (Program φ ν ι × Bool) :=
  (collect P scc).map fun (instToDelete, isModified) => (P.eraseAll instToDelete, isModified)

def runOnSCC (clDisable : Bool) (P : Program φ ν ι) (scc : List ν) :
    Option (Program φ ν ι × Bool) :=
  if clDisable then some (P, false) else pruneWithDepthFirstSearch P scc

/-- `RunPassOnSCC` for this pass, with assertions. -/
def runPassOnSCC (clDisable : Bool) (P : Program φ ν ι) (scc : List ν) :
    Option (Program φ ν ι × Bool) := do
  let (P, changed) ← runOnSCC clDisable P scc
  if changed then
    let _ ← refreshCallGraph P scc []
  return (P, changed)

/-- The function has a hook to remove: an edge leads to `__cver_handle_stack_enter`, and
no path of edges leads to a cast. -/
def Prunable (P : Program φ ν ι) (F : φ) : Prop :=
  (∃ G, P.callGraph.Edge F G ∧ P.code.getName G = sStackEnter) ∧
    ¬ ∃ G, ReflTransGen P.callGraph.Edge F G ∧ P.callGraph.InvokesCast P.code.getName G

variable {P : Program φ ν ι} {F : φ} {n : ν} {scc : List ν}

omit [DecidableEq φ] [DecidableEq ι] in
/-- A function of the call graph has its node looked up. -/
theorem isInvokeStack_eq (hF : P.callGraph.functionMap F = some n) :
    ∃ invokesStack, P.isInvokeStack F = some invokesStack ∧
      (invokesStack = true ↔ ∃ G, P.callGraph.Edge F G ∧ P.code.getName G = sStackEnter) := by
  unfold isInvokeStack
  rw [hF]
  refine ⟨_, rfl, ?_⟩
  simp only [List.any_eq_true, Option.any_eq_true, beq_iff_eq]
  constructor
  · intro ⟨record, hrecord, G, hG, hname⟩
    exact ⟨G, ⟨n, hF, record, hrecord, hG⟩, hname⟩
  · intro ⟨G, ⟨m, hm, record, hrecord, hG⟩, hname⟩
    rw [hF, Option.some.injEq] at hm
    subst hm
    exact ⟨record, hrecord, G, hG, hname⟩

omit [DecidableEq ι] in
/-- The search from a function of the component. -/
theorem mayCast_eq (hF : P.callGraph.functionMap F = some n) :
    ∃ mayCast visited, P.callGraph.isAnyCallesInvokeCast P.code.getName
        (P.callGraph.nodes.length + 1) F [] = some (mayCast, visited) ∧
      (mayCast = true ↔
        ∃ G, ReflTransGen P.callGraph.Edge F G ∧ P.callGraph.InvokesCast P.code.getName G) := by
  rcases CallGraph.isAnyCallesInvokeCast_returns P.code.getName hF List.nodup_nil
    List.not_mem_nil (Nat.lt_succ_self _) with ⟨mayCast, visited, hrun, -, -, hcast⟩
  exact ⟨mayCast, visited, hrun, hcast.trans CallGraph.leadsToCast_nil⟩

omit [DecidableEq ι] in
/-- What is collected: the hooks of the functions that can be pruned. -/
theorem collect_eq (hscc : ∀ n ∈ scc, n ∈ P.callGraph.nodes) :
    ∃ insts changed, P.collect scc = some (insts, changed) ∧ (changed = false → insts = []) ∧
      ∀ i, i ∈ insts ↔ ∃ n ∈ scc, ∃ F, P.callGraph.getFunction n = some F ∧ P.Prunable F ∧
        i ∈ P.code.collectStackInvokeInstructions F := by
  induction scc with
  | nil => exact ⟨[], false, rfl, fun _ => rfl, by simp⟩
  | cons n scc ih =>
    rw [List.forall_mem_cons] at hscc
    rcases ih hscc.2 with ⟨insts, changed, hrun, hchanged, hmem⟩
    simp only [List.exists_mem_cons_iff]
    unfold collect
    cases hF : P.callGraph.getFunction n with
    | none =>
      refine ⟨insts, changed, hrun, hchanged, ?_⟩
      simpa using hmem
    | some F =>
      have hnode := P.callGraph.mapped n hscc.1 F hF
      rcases isInvokeStack_eq hnode with ⟨invokesStack, hstack, hiff⟩
      rcases mayCast_eq hnode with ⟨mayCast, visited, hsearch, hcast⟩
      -- a function is pruned if it calls a hook and the search finds no cast
      have hprunable : P.Prunable F ↔ invokesStack = true ∧ ¬ mayCast = true := by
        unfold Prunable
        rw [hiff, hcast]
      have hhead : ∀ i, (∃ G, some F = some G ∧ P.Prunable G ∧
          i ∈ P.code.collectStackInvokeInstructions G) ↔
          (invokesStack = true ∧ ¬ mayCast = true) ∧
            i ∈ P.code.collectStackInvokeInstructions F := by
        intro i
        simp [hprunable, and_assoc]
      simp only [hstack, hhead]
      cases invokesStack with
      | false =>
        refine ⟨insts, changed, by simp [hrun], hchanged, ?_⟩
        simpa using hmem
      | true =>
        cases mayCast with
        | true =>
          refine ⟨insts, changed, by simp [hsearch, hrun], hchanged, ?_⟩
          simpa using hmem
        | false =>
          refine ⟨P.code.collectStackInvokeInstructions F ++ insts, true,
            by simp [hsearch, hrun], nofun, ?_⟩
          intro i
          rw [List.mem_append, hmem]
          simp

/-! ## Records of deleted call sites -/

omit [DecidableEq φ] [DecidableEq ι] in
/-- The hooks are call sites that the call graph records. -/
theorem recorded_of_stackInvoke {i : ι} (h : P.code.isStackInvoke i = true) :
    (P.code.recordedCallSite i).isSome := by
  unfold Code.isStackInvoke at h
  split at h
  · rename_i callee hcall
    rw [Bool.or_eq_true, beq_iff_eq, beq_iff_eq] at h
    have hintr : P.code.isIntrinsic callee = false := by
      unfold Code.isIntrinsic
      rcases h with hname | hname <;> rw [hname] <;> rfl
    unfold Code.recordedCallSite Instruction.callSite
    rw [hcall]
    simp [hintr]
  · cases h

omit [DecidableEq φ] in
/-- After deletions a function is in step if none of its recorded call sites is gone. -/
theorem inStep_eraseAll {insts : List ι} (h : InStep P n F) :
    InStep (P.eraseAll insts) n F ↔
      ∀ i ∈ P.code.body F, (P.code.recordedCallSite i).isSome → i ∉ insts := by
  rcases P.eraseAll_keeps insts with ⟨-, hcallee, hfunction⟩
  constructor
  · intro h' i hi hrecorded hmem
    -- the record of a deleted call site is null
    have hcount := h.recorded i hi hrecorded
    have hsite : some i ∈ (P.callGraph.calledFunctions n).map (·.1) := by
      rw [← List.count_pos_iff, hcount]
      exact Nat.one_pos
    rcases List.mem_map.mp hsite with ⟨record, hrecord, heq⟩
    have hnull : (record.1.filter (· ∉ insts), record.2) ∈
        (P.eraseAll insts).callGraph.calledFunctions n := by
      rw [eraseAll_calledFunctions]
      exact List.mem_map.mpr ⟨record, hrecord, rfl⟩
    rcases h'.live _ hnull with ⟨j, -, hj, -⟩
    rw [heq, Option.filter_some, if_neg (by simpa using hmem)] at hj
    cases hj
  · intro hkeep
    have hrecords : (P.eraseAll insts).callGraph.calledFunctions n =
        P.callGraph.calledFunctions n := by
      rw [eraseAll_calledFunctions]
      conv_rhs => rw [← List.map_id (P.callGraph.calledFunctions n)]
      apply List.map_congr_left
      intro ⟨site, m⟩ hrecord
      rcases h.live _ hrecord with ⟨i, hi, heq, callee, hrec, -⟩
      have hnew := hkeep i hi (by rw [hrec]; rfl)
      change site = some i at heq
      simp [heq, hnew]
    constructor
    · intro i hi hrecorded
      rw [hcallee] at hrecorded
      rw [eraseAll_body] at hi
      rw [hrecords]
      exact h.recorded i (List.mem_of_mem_filter hi) hrecorded
    · intro record hrecord
      rw [hrecords] at hrecord
      rcases h.live record hrecord with ⟨i, hi, heq, callee, hrec, hmatch⟩
      have hnew := hkeep i hi (by rw [hrec]; rfl)
      refine ⟨i, ?_, heq, callee, by rw [hcallee, hrec], ?_⟩
      · rw [eraseAll_body]
        exact List.mem_filter_of_mem hi (by simpa using hnew)
      · unfold Matches at hmatch ⊢
        rwa [hfunction]

omit [DecidableEq φ] in
theorem agreesOn_eraseAll {insts : List ι} (hP : P.AgreesOn scc) :
    (P.eraseAll insts).AgreesOn scc ↔
      ∀ n ∈ scc, ∀ F, P.callGraph.getFunction n = some F → P.code.isDeclaration F = false →
        ∀ i ∈ P.code.body F, (P.code.recordedCallSite i).isSome → i ∉ insts := by
  rcases P.eraseAll_keeps insts with ⟨hdecl, -, hfunction⟩
  unfold AgreesOn
  rw [hdecl, hfunction]
  apply forall₂_congr
  intro n hn
  apply forall₃_congr
  intro F hF hdef
  exact inStep_eraseAll (hP n hn F hF hdef)

/-! ## After the pass -/

/-- What the pass does: it deletes the collected instructions. -/
theorem runOnSCC_eq (P : Program φ ν ι) (clDisable : Bool)
    (hscc : ∀ n ∈ scc, n ∈ P.callGraph.nodes) :
    ∃ insts changed, runOnSCC clDisable P scc = some (P.eraseAll insts, changed) ∧
      (changed = false → insts = []) ∧
      ∀ i, i ∈ insts ↔ clDisable = false ∧ ∃ n ∈ scc, ∃ F, P.callGraph.getFunction n = some F ∧
        P.Prunable F ∧ i ∈ P.code.collectStackInvokeInstructions F := by
  cases clDisable with
  | true => exact ⟨[], false, rfl, fun _ => rfl, by simp⟩
  | false =>
    rcases collect_eq hscc with ⟨insts, changed, hrun, hchanged, hmem⟩
    refine ⟨insts, changed, ?_, hchanged, by simpa using hmem⟩
    simp [runOnSCC, pruneWithDepthFirstSearch, hrun]

/-- No function of the component has an instruction that the pass deletes. -/
def KeepsInstructions (clDisable : Bool) (P : Program φ ν ι) (scc : List ν) : Prop :=
  clDisable = true ∨ ∀ n ∈ scc, ∀ F, P.callGraph.getFunction n = some F → P.Prunable F →
    ∀ i ∈ P.code.body F, P.code.isStackInvoke i = false

omit [DecidableEq φ] in
/-- The deleted instructions are missing in the code, and records of them are left. -/
theorem agreesOn_iff_keeps {clDisable : Bool} {insts : List ι} (hP : P.AgreesOn scc)
    (hmem : ∀ i, i ∈ insts ↔ clDisable = false ∧ ∃ n ∈ scc, ∃ F,
      P.callGraph.getFunction n = some F ∧ P.Prunable F ∧
        i ∈ P.code.collectStackInvokeInstructions F) :
    (P.eraseAll insts).AgreesOn scc ↔ KeepsInstructions clDisable P scc := by
  rw [agreesOn_eraseAll hP]
  unfold KeepsInstructions Code.collectStackInvokeInstructions at *
  constructor
  · intro hkeep
    rw [or_iff_not_imp_left, Bool.not_eq_true]
    intro hrun n hn F hF hprunable i hi
    by_contra hstack
    rw [Bool.not_eq_false] at hstack
    have hdef : P.code.isDeclaration F = false := by
      by_contra hdecl
      rw [P.code.declared F (by simpa using hdecl)] at hi
      exact absurd hi List.not_mem_nil
    have hinsts : i ∈ insts :=
      (hmem i).mpr ⟨hrun, n, hn, F, hF, hprunable, List.mem_filter_of_mem hi hstack⟩
    exact hkeep n hn F hF hdef i hi (recorded_of_stackInvoke hstack) hinsts
  · intro hcond n hn F hF _ i hi _ hinsts
    rcases (hmem i).mp hinsts with ⟨hrun, m, hm, G, hG, hprunable, hcollect⟩
    rcases List.mem_filter.mp hcollect with ⟨hiG, hstack⟩
    rcases hcond with hdisabled | hcond
    · rw [hdisabled] at hrun
      cases hrun
    · rw [hcond m hm G hG hprunable i hiG] at hstack
      cases hstack

/-- The call graph agrees with the component after the pass if no function that can be
pruned calls a hook. -/
theorem runOnSCC_agrees_iff (clDisable : Bool) (P : Program φ ν ι) (scc : List ν)
    (hP : P.AgreesOn P.callGraph.nodes) (hscc : ∀ n ∈ scc, n ∈ P.callGraph.nodes) :
    ∃ P' changed, runOnSCC clDisable P scc = some (P', changed) ∧
      (P'.AgreesOn scc ↔ clDisable = true ∨
        ∀ n ∈ scc, ∀ F, P.callGraph.getFunction n = some F → P.Prunable F →
          ∀ i ∈ P.code.body F, P.code.isStackInvoke i = false) := by
  rcases runOnSCC_eq P clDisable hscc with ⟨insts, changed, hrun, -, hmem⟩
  have hagrees : P.AgreesOn scc := fun n hn => hP n (hscc n hn)
  exact ⟨P.eraseAll insts, changed, hrun, agreesOn_iff_keeps hagrees hmem⟩

/-- `walk` has a local object and calls nothing but the hooks: the instructions are 0
and 1. -/
def walkProgram : Program String (Option String) ℕ where
  code :=
    { getName := id
      isDeclaration := fun F => F ≠ "walk"
      instruction := fun i => if i = 0 then .call (some sStackEnter) else .call (some sStackExit)
      body := fun F => if F = "walk" then [0, 1] else []
      nodup := by
        intro F
        split <;> simp
      apart := by
        intro F G i hF hG
        grind
      declared := by
        intro F hF
        exact if_neg (by simpa using hF) }
  callGraph :=
    { nodes := [some "walk", some sStackEnter, some sStackExit, none]
      getFunction := id
      functionMap := fun F =>
        if F ∈ ["walk", sStackEnter, sStackExit] then some (some F) else none
      calledFunctions := fun n =>
        if n = some "walk" then [(some 0, some sStackEnter), (some 1, some sStackExit)]
        else if n = none then [] else [(none, none)]
      closed := by
        intro n hn record hrecord
        grind
      mapped := by
        intro n hn F hF
        grind
      node := by
        intro F n hn
        grind }

theorem walkProgram_agrees : walkProgram.AgreesOn walkProgram.callGraph.nodes :=
  (refreshCallGraph_iff walkProgram _).mp rfl

/-- The node of `walk` is a component. -/
theorem walkProgram_agrees_iff : ∃ P' changed,
    runOnSCC false walkProgram [some "walk"] = some (P', changed) ∧
      (P'.AgreesOn [some "walk"] ↔ false = true ∨
        ∀ n ∈ [some "walk"], ∀ F, walkProgram.callGraph.getFunction n = some F →
          walkProgram.Prunable F →
            ∀ i ∈ walkProgram.code.body F, walkProgram.code.isStackInvoke i = false) :=
  runOnSCC_agrees_iff false walkProgram [some "walk"] walkProgram_agrees (by decide)

/-- The records of both hooks are left, with nulls for the instructions. -/
theorem walkProgram_pruned : walkProgram.AgreesOn walkProgram.callGraph.nodes ∧
    ∃ P', runOnSCC false walkProgram [some "walk"] = some (P', true) ∧
      P'.code.body "walk" = [] ∧
      P'.callGraph.calledFunctions (some "walk") =
        [(none, some sStackEnter), (none, some sStackExit)] ∧
      ¬ P'.AgreesOn [some "walk"] ∧ (runPassOnSCC false walkProgram [some "walk"]).isNone := by
  refine ⟨walkProgram_agrees, walkProgram.eraseAll [0, 1], rfl, rfl, rfl, ?_, rfl⟩
  rw [← refreshCallGraph_iff]
  intro h
  cases h

/-- Where the call graph does not agree, an assertion of the pass manager fails. -/
theorem runPassOnSCC_isSome_iff (clDisable : Bool) (P : Program φ ν ι) (scc : List ν)
    (hP : P.AgreesOn P.callGraph.nodes) (hscc : ∀ n ∈ scc, n ∈ P.callGraph.nodes) :
    (runPassOnSCC clDisable P scc).isSome ↔ KeepsInstructions clDisable P scc := by
  rcases runOnSCC_eq P clDisable hscc with ⟨insts, changed, hrun, hchanged, hmem⟩
  have hagrees : P.AgreesOn scc := fun n hn => hP n (hscc n hn)
  rw [← agreesOn_iff_keeps hagrees hmem]
  unfold runPassOnSCC
  rw [hrun]
  cases changed with
  | false =>
    rw [hchanged rfl, eraseAll_nil]
    exact iff_of_true rfl hagrees
  | true =>
    rw [← refreshCallGraph_iff]
    cases hcheck : refreshCallGraph (P.eraseAll insts) scc [] with
    | none => simp [hcheck]
    | some callSites =>
      rw [refreshCallGraph_sites hcheck]
      simp [hcheck]

end Program

end Caver.Passes
