import Caver.Passes.PruneRecords

/-!
# Caver.Passes.BuiltCallGraph — the call graph that is built for a module

* `Module.program`: the numbered instructions of a module, and the call graph that
  `addToCallGraph` builds for it.
* `program_agrees`: a call graph that has just been built agrees with the code.
* `program_runOnSCC`: the pass on a module and the pass on its program delete the same
  instructions.
* `program_agrees_iff_unchanged`: after the pass it agrees where nothing was deleted.
-/

namespace Caver.Passes

open Relation Caver.Core

variable {M : Module} {f : String}

/-! ## The program of a module -/

def CallSite.instruction (cs : CallSite) : Instruction String :=
  if cs.isCallInst then .call cs.callee else .invoke cs.callee

theorem CallSite.instruction_callSite (cs : CallSite) :
    cs.instruction.callSite = some cs.callee := by
  unfold instruction
  split <;> rfl

/-- The instructions of a function are its name and their positions. -/
def Module.code (M : Module) : Code String (String × ℕ) where
  getName := id
  isDeclaration f := ((M.function f).map (·.isDeclaration)).getD true
  instruction i := ((M.body i.1)[i.2]?.map CallSite.instruction).getD .other
  body f := (List.range (M.body f).length).map (f, ·)
  nodup f := List.Nodup.map (fun _ _ h => congrArg Prod.snd h) List.nodup_range
  apart f g i hf hg := by
    rcases List.mem_map.mp hf with ⟨k, -, rfl⟩
    rcases List.mem_map.mp hg with ⟨l, -, hi⟩
    exact (congrArg Prod.fst hi).symm
  declared f hdecl := by
    have hbody : M.body f = [] := by
      unfold Module.body
      cases hf : M.function f with
      | none => rfl
      | some F =>
        rw [hf] at hdecl
        exact M.declared F (function_name hf).1 hdecl
    rw [hbody]
    rfl

def Module.program (M : Module) : Program String (Option String) (String × ℕ) :=
  ⟨M.code, M.callGraph⟩

theorem Module.code_instruction {k : ℕ} {cs : CallSite} (h : (M.body f)[k]? = some cs) :
    M.code.instruction (f, k) = cs.instruction := by
  change ((M.body f)[k]?.map CallSite.instruction).getD .other = _
  rw [h]
  rfl

/-- The instructions of a function are its calls. -/
theorem Module.code_body_map (M : Module) (f : String) :
    (M.code.body f).map M.code.instruction = (M.body f).map CallSite.instruction := by
  apply List.ext_getElem?
  intro k
  change (((List.range (M.body f).length).map (f, ·)).map M.code.instruction)[k]? = _
  rw [List.map_map, List.getElem?_map, List.getElem?_map]
  by_cases hk : k < (M.body f).length
  · rw [List.getElem?_range hk, List.getElem?_eq_getElem hk]
    exact congrArg some (code_instruction (List.getElem?_eq_getElem hk))
  · rw [List.getElem?_eq_none (by simpa using hk), List.getElem?_eq_none (by simpa using hk)]
    rfl

/-! ## The records that are built -/

/-- Intrinsics are the functions with the prefix. -/
def Module.NamesIntrinsics (M : Module) : Prop :=
  ∀ F ∈ M.functions, F.isIntrinsic = "llvm.".toList.isPrefixOf F.name.toList

/-- The call sites of a defined function are recorded as the code says. -/
theorem recordedCallSite_eq (hM : M.NamesIntrinsics) {k : ℕ} {cs : CallSite}
    (hcs : (M.body f)[k]? = some cs) :
    M.code.recordedCallSite (f, k) =
      match cs.callee with
      | none => some none
      | some g =>
        if ((M.function g).map (·.isIntrinsic)).getD false then none else some (some g) := by
  unfold Code.recordedCallSite
  rw [M.code_instruction hcs, cs.instruction_callSite]
  cases hcallee : cs.callee with
  | none => rfl
  | some g =>
    rcases Module.mem_body.mp (List.mem_of_getElem? hcs) with ⟨F, hF, -, hbody⟩
    rcases M.closed F hF cs hbody g hcallee with ⟨G, hG, rfl⟩
    have hintr : M.code.isIntrinsic G.name = G.isIntrinsic := (hM G hG).symm
    simp only [hintr, M.function_eq hG, Option.map_some, Option.getD_some]

/-- A defined function has one record for each of its recorded call sites, in their
order. -/
theorem nodeRecords_eq (hM : M.NamesIntrinsics) (hdef : M.code.isDeclaration f = false) :
    nodeRecords M (some f) = (M.code.body f).filterMap fun i =>
      (M.code.recordedCallSite i).map fun callee => (some i, callee) := by
  obtain ⟨F, hF, rfl, hFdef⟩ : ∃ F ∈ M.functions, F.name = f ∧ F.isDeclaration = false := by
    change ((M.function f).map (·.isDeclaration)).getD true = false at hdef
    cases hf : M.function f with
    | none =>
      rw [hf] at hdef
      cases hdef
    | some F =>
      rw [hf] at hdef
      exact ⟨F, (function_name hf).1, (function_name hf).2, hdef⟩
  -- the calls of the body are numbered by their places
  have hbody : M.code.body F.name = F.body.zipIdx.map fun call => (F.name, call.2) := by
    change (List.range (M.body F.name).length).map (F.name, ·) = _
    rw [M.body_eq hF, List.range_eq_range', ← List.zipIdx_map_snd, List.map_map]
    rfl
  have hrecords : nodeRecords M (some F.name) = callRecords M F := by
    unfold nodeRecords
    rw [Option.bind_some, M.function_eq hF]
    rfl
  rw [hrecords, hbody, List.filterMap_map]
  unfold callRecords
  rw [hFdef, Bool.false_and, if_neg Bool.false_ne_true, List.nil_append]
  apply List.filterMap_congr
  intro ⟨cs, k⟩ hk
  have hcs : (M.body F.name)[k]? = some cs := by
    rw [M.body_eq hF]
    exact List.mem_zipIdx_iff_getElem?.mp hk
  rw [Function.comp_apply, recordedCallSite_eq hM hcs]
  dsimp only
  cases cs.callee with
  | none => rfl
  | some g =>
    dsimp only
    split <;> rfl

/-- Records of different call sites, one for each of the function. -/
theorem InStep.of_nodup {φ ν ι : Type} [DecidableEq ι] {P : Program φ ν ι} {n : ν} {F : φ}
    (hnodup : ((P.callGraph.calledFunctions n).map (·.1)).Nodup)
    (hrecorded : ∀ i ∈ P.code.body F, (P.code.recordedCallSite i).isSome →
      some i ∈ (P.callGraph.calledFunctions n).map (·.1))
    (hlive : ∀ record ∈ P.callGraph.calledFunctions n, ∃ i ∈ P.code.body F, record.1 = some i ∧
      ∃ callee, P.code.recordedCallSite i = some callee ∧ Matches P.callGraph record.2 callee) :
    InStep P n F where
  recorded i hi h := List.count_eq_one_of_mem hnodup (hrecorded i hi h)
  live := hlive

/-- A call graph that has just been built agrees with the code. -/
theorem program_agrees (hM : M.NamesIntrinsics) : M.program.AgreesOn M.callGraph.nodes := by
  intro n _ f hn hdef
  cases hn
  have hrecords : M.program.callGraph.calledFunctions (some f) =
      (M.code.body f).filterMap fun i =>
        (M.code.recordedCallSite i).map fun callee => (some i, callee) :=
    nodeRecords_eq hM hdef
  apply InStep.of_nodup
  · -- different call sites have different records
    rw [hrecords, List.map_filterMap]
    apply List.Nodup.filterMap _ (M.code.nodup f)
    intro i j site hi hj
    simp only [Option.map_map, Option.mem_def, Option.map_eq_some_iff,
      Function.comp_apply] at hi hj
    rcases hi with ⟨_, -, rfl⟩
    rcases hj with ⟨_, -, heq⟩
    exact (Option.some.inj heq).symm
  · intro i hi hrecorded
    rcases Option.isSome_iff_exists.mp hrecorded with ⟨callee, hcallee⟩
    rw [hrecords]
    apply List.mem_map_of_mem (f := Prod.fst) (a := (some i, callee))
    rw [List.mem_filterMap]
    exact ⟨i, hi, Option.map_eq_some_iff.mpr ⟨callee, hcallee, rfl⟩⟩
  · intro record hrecord
    rw [hrecords, List.mem_filterMap] at hrecord
    rcases hrecord with ⟨i, hi, hrecord⟩
    rcases Option.map_eq_some_iff.mp hrecord with ⟨callee, hcallee, rfl⟩
    exact ⟨i, hi, rfl, callee, hcallee, Or.inl rfl⟩

/-! ## The pass -/

theorem callGraph_edge_iff {g : String} : M.callGraph.Edge f g ↔ some g ∈ callees M f := by
  rw [← CallGraph.mem_edges, M.callGraph_edges, List.mem_filterMap]
  simp

/-- Both models prune the same functions. -/
theorem program_prunable_iff : M.program.Prunable f ↔ Prunable M f := by
  have hcast : (∃ g, ReflTransGen M.callGraph.Edge f g ∧ M.callGraph.InvokesCast id g) ↔
      DirectCast M f := by
    have hedge : M.callGraph.Edge = fun f g => g ∈ (callees M f).filterMap id := by
      funext f g
      rw [← M.callGraph_edges]
      exact propext CallGraph.mem_edges.symm
    rw [← finds_iff]
    unfold Finds CallGraph.InvokesCast
    rw [hedge]
    simp only [beq_iff_eq, id]
  have hstack : (∃ g, M.callGraph.Edge f g ∧ id g = sStackEnter) ↔
      isInvokeStack M f = true := by
    unfold isInvokeStack
    rw [List.contains_iff_mem, ← callGraph_edge_iff]
    simp
  unfold Program.Prunable Prunable
  exact and_congr hstack (not_congr hcast)

/-- A hook is selected by what it calls. -/
def isHookCall : Instruction String → Bool
  | .call (some callee) => callee == sStackEnter || callee == sStackExit
  | _ => false

theorem isHookCall_instruction (cs : CallSite) : isHookCall cs.instruction = isStackCall cs := by
  unfold CallSite.instruction isStackCall
  cases cs.isCallInst with
  | false => rfl
  | true =>
    cases cs.callee with
    | none => rfl
    | some g => rfl

theorem isStackInvoke_eq (i : String × ℕ) :
    M.code.isStackInvoke i = isHookCall (M.code.instruction i) := by
  unfold Code.isStackInvoke isHookCall
  rcases M.code.instruction i with (_ | g) | _ | _
  all_goals rfl

/-- A function calls a hook if one of its instructions does. -/
theorem noStackInvoke_iff :
    (∀ i ∈ M.code.body f, M.code.isStackInvoke i = false) ↔
      eraseStackCalls (M.body f) = M.body f := by
  have hmap : (∀ i ∈ M.code.body f, M.code.isStackInvoke i = false) ↔
      ∀ x ∈ (M.code.body f).map M.code.instruction, isHookCall x = false := by
    simp only [List.forall_mem_map, isStackInvoke_eq]
  rw [hmap, M.code_body_map, eraseStackCalls, List.filter_eq_self]
  simp only [List.forall_mem_map, isHookCall_instruction, Bool.not_eq_true']

/-- Without the hooks, the instructions are the calls that `eraseStackCalls` leaves. -/
theorem keptBody_map (M : Module) (f : String) :
    ((M.code.body f).filter (!M.code.isStackInvoke ·)).map M.code.instruction =
      (eraseStackCalls (M.body f)).map CallSite.instruction := by
  have hkept : (fun i => !M.code.isStackInvoke i) = (!isHookCall ·) ∘ M.code.instruction := by
    funext i
    rw [Function.comp_apply, isStackInvoke_eq]
  have hcalls : (!isHookCall ·) ∘ CallSite.instruction = (!isStackCall ·) := by
    funext cs
    rw [Function.comp_apply, isHookCall_instruction]
  rw [hkept, ← List.filter_map, M.code_body_map, List.filter_map, hcalls]
  rfl

/-- The pass on a module leaves the calls that are the instructions which the pass on its
program leaves. -/
theorem program_runOnSCC (M : Module) (clDisable : Bool) {scc : List (Option String)}
    (hscc : ∀ n ∈ scc, n ∈ M.callGraph.nodes) :
    ∃ M' P' changed, runOnSCC clDisable M scc = some M' ∧
      Program.runOnSCC clDisable M.program scc = some (P', changed) ∧
      ∀ f, (P'.code.body f).map M.code.instruction = (M'.body f).map CallSite.instruction := by
  rcases Program.runOnSCC_eq M.program clDisable hscc with ⟨insts, changed, hrun, -, hmem⟩
  cases clDisable with
  | true =>
    refine ⟨M, M.program, false, rfl, rfl, ?_⟩
    intro f
    exact M.code_body_map f
  | false =>
    rcases runOnSCC_erase M scc with ⟨fs, hscc', hfs⟩
    refine ⟨M.erase fs, M.program.eraseAll insts, changed, hscc', hrun, ?_⟩
    intro f
    -- the instructions that are deleted in this function
    have hinsts : ∀ i ∈ M.code.body f,
        i ∈ insts ↔ f ∈ fs ∧ M.code.isStackInvoke i = true := by
      intro i hi
      rw [hmem, hfs]
      constructor
      · intro ⟨_, n, hn, g, hg, hprunable, hcollected⟩
        cases hg
        rcases List.mem_filter.mp hcollected with ⟨hbody, hstack⟩
        obtain rfl : g = f := M.code.apart g f i hbody hi
        exact ⟨⟨hn, program_prunable_iff.mp hprunable⟩, hstack⟩
      · intro ⟨⟨hn, hprunable⟩, hstack⟩
        exact ⟨rfl, some f, hn, f, rfl, program_prunable_iff.mpr hprunable,
          List.mem_filter_of_mem hi hstack⟩
    rw [Program.eraseAll_body, M.body_erase]
    change ((M.code.body f).filter _).map _ = _
    split
    · next hf =>
      rw [← keptBody_map]
      congr 1
      apply List.filter_congr
      intro i hi
      simp [hinsts i hi, hf]
    · next hf =>
      rw [← M.code_body_map]
      congr 1
      rw [List.filter_eq_self]
      intro i hi
      simp [hinsts i hi, hf]

/-- The call graph of a module agrees with it after the pass if the pass has left the
component as it was. -/
theorem program_agrees_iff_unchanged (hM : M.NamesIntrinsics) (clDisable : Bool)
    {scc : List (Option String)} (hscc : ∀ n ∈ scc, n ∈ M.callGraph.nodes) :
    ∃ M' P' changed, runOnSCC clDisable M scc = some M' ∧
      Program.runOnSCC clDisable M.program scc = some (P', changed) ∧
      (P'.AgreesOn scc ↔ ∀ f, some f ∈ scc → M'.body f = M.body f) := by
  rcases Program.runOnSCC_eq M.program clDisable hscc with ⟨insts, changed, hrun, -, hmem⟩
  have hagrees : M.program.AgreesOn scc := fun n hn => program_agrees hM n (hscc n hn)
  have hkeeps := Program.agreesOn_iff_keeps hagrees hmem
  cases clDisable with
  | true =>
    refine ⟨M, M.program.eraseAll insts, changed, rfl, hrun, ?_⟩
    rw [hkeeps]
    exact iff_of_true (Or.inl rfl) fun f _ => rfl
  | false =>
    rcases runOnSCC_erase M scc with ⟨fs, hscc', hfs⟩
    refine ⟨M.erase fs, M.program.eraseAll insts, changed, hscc', hrun, ?_⟩
    rw [hkeeps]
    constructor
    -- a pruned function that calls no hook is not changed
    · intro hcond f hf
      rw [M.body_erase]
      split
      · next hfs' =>
        have hprunable := program_prunable_iff.mpr ((hfs f).mp hfs').2
        exact noStackInvoke_iff.mp
          (hcond.resolve_left Bool.false_ne_true (some f) hf f rfl hprunable)
      · rfl
    · intro hsame
      right
      intro n hn f hf hprunable
      cases hf
      have hbody := hsame f hn
      rw [M.body_erase, if_pos ((hfs f).mpr ⟨hn, program_prunable_iff.mp hprunable⟩)] at hbody
      exact noStackInvoke_iff.mpr hbody

end Caver.Passes
