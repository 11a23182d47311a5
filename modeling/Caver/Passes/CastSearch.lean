import Mathlib.Data.Option.Basic
import Caver.Passes.PruneStack

/-!
# Caver.Passes.CastSearch — the search for a cast in any call graph

* `CallGraph`: nodes, the map from functions to them, and their call records. A
  node need not have a function.
* `isAnyCallesInvokeCast`: the recursion of the source with its set of visited
  functions; an assertion that fails leaves no result.
* `isAnyCallesInvokeCast_exact`: it returns, visits no function twice, and finds
  what edges between functions lead to.
* `Module.callGraph`: the call graph of a module. The search of
  `Caver.Passes.PruneStack` is this one.
-/

namespace Caver.Passes

open Relation Caver.Core

/-! ## Call graphs -/

/-- The nodes `ν` of the functions `φ`, and the records of the call sites `ι`. -/
structure CallGraph (φ ν ι : Type) where
  nodes : List ν
  getFunction : ν → Option φ
  functionMap : φ → Option ν
  calledFunctions : ν → List (Option ι × ν)
  closed : ∀ n ∈ nodes, ∀ record ∈ calledFunctions n, record.2 ∈ nodes
  mapped : ∀ n ∈ nodes, ∀ F, getFunction n = some F → functionMap F = some n
  node : ∀ F n, functionMap F = some n → n ∈ nodes ∧ getFunction n = some F

namespace CallGraph

variable {φ ν ι : Type} {CG : CallGraph φ ν ι} {getName : φ → String} {F G : φ} {n : ν}

/-- A call record leads from the node of `F` to the node of `G`. -/
def Edge (CG : CallGraph φ ν ι) (F G : φ) : Prop :=
  ∃ n, CG.functionMap F = some n ∧ ∃ record ∈ CG.calledFunctions n, CG.getFunction record.2 = some G

/-- There is an edge to `__cver_handle_cast`. -/
def InvokesCast (CG : CallGraph φ ν ι) (getName : φ → String) (F : φ) : Prop :=
  ∃ C, CG.Edge F C ∧ getName C = sCast

/-- The functions that a list of records leads to. -/
def recordCallees (CG : CallGraph φ ν ι) (records : List (Option ι × ν)) : List φ :=
  records.filterMap fun record => CG.getFunction record.2

/-- The functions that a function's node leads to. -/
def edges (CG : CallGraph φ ν ι) (F : φ) : List φ :=
  ((CG.functionMap F).map fun n => CG.recordCallees (CG.calledFunctions n)).getD []

theorem edges_eq (hF : CG.functionMap F = some n) :
    CG.edges F = CG.recordCallees (CG.calledFunctions n) := by
  unfold edges
  rw [hF]
  rfl

theorem mem_edges : G ∈ CG.edges F ↔ CG.Edge F G := by
  unfold Edge
  cases hF : CG.functionMap F with
  | none =>
    unfold edges
    rw [hF]
    simp
  | some n =>
    rw [edges_eq hF, recordCallees, List.mem_filterMap]
    constructor
    · exact fun h => ⟨n, rfl, h⟩
    · rintro ⟨_, hn, h⟩
      cases hn
      exact h

/-- The functions that have nodes. -/
def functions (CG : CallGraph φ ν ι) : List φ := CG.nodes.filterMap CG.getFunction

theorem mem_functions : F ∈ CG.functions ↔ ∃ n, CG.functionMap F = some n := by
  unfold functions
  rw [List.mem_filterMap]
  constructor
  · rintro ⟨n, hn, hF⟩
    exact ⟨n, CG.mapped n hn F hF⟩
  · rintro ⟨n, hF⟩
    exact ⟨n, CG.node F n hF⟩

theorem edges_subset (CG : CallGraph φ ν ι) (F : φ) : CG.edges F ⊆ CG.functions := by
  intro G hG
  rcases mem_edges.mp hG with ⟨n, hF, record, hrecord, hcallee⟩
  have hn := CG.closed n (CG.node F n hF).1 record hrecord
  exact mem_functions.mpr ⟨record.2, CG.mapped record.2 hn G hcallee⟩

end CallGraph

/-! ## The call graph of a module -/

section Module

variable {M : Module} {F : Function}

/-- `addToCallGraph`: the records of a function's node. Calls are named by their
function and their position. -/
def callRecords (M : Module) (F : Function) : List (Option (String × ℕ) × Option String) :=
  (if F.isDeclaration && !F.isIntrinsic then [(none, none)] else []) ++
    F.body.zipIdx.filterMap fun (cs, i) =>
      match cs.callee with
      | none => some (some (F.name, i), none)
      | some g =>
        if ((M.function g).map (·.isIntrinsic)).getD false then none
        else some (some (F.name, i), some g)

theorem callRecords_snd (M : Module) (F : Function) :
    (callRecords M F).map (·.2) = addToCallGraph M F := by
  have hbody : ∀ (body : List CallSite) (k : ℕ),
      (body.zipIdx k).map (·.1) = body := by
    intro body k
    rw [List.zipIdx_map_fst]
  unfold callRecords addToCallGraph
  rw [List.map_append]
  congr 1
  · split <;> rfl
  · rw [List.map_filterMap]
    conv_rhs => rw [← hbody F.body 0, List.filterMap_map]
    apply List.filterMap_congr
    intro ⟨cs, i⟩ _
    cases hcallee : cs.callee with
    | none => simp [hcallee]
    | some g =>
      simp only [hcallee, Function.comp_apply]
      split <;> rfl

/-- The records of the node of a function; the null function has none. -/
def nodeRecords (M : Module) (n : Option String) : List (Option (String × ℕ) × Option String) :=
  ((n.bind M.function).map (callRecords M)).getD []

theorem nodeRecords_snd (M : Module) (f : String) :
    (nodeRecords M (some f)).map (·.2) = callees M f := by
  unfold nodeRecords callees
  rw [Option.bind_some]
  cases M.function f with
  | none => rfl
  | some F => exact callRecords_snd M F

theorem function_name {f : String} (h : M.function f = some F) : F ∈ M.functions ∧ F.name = f :=
  ⟨List.mem_of_find?_eq_some h, by simpa using List.find?_some h⟩

/-- The node of the null function is the one that stands for what is not known. -/
def Module.callGraph (M : Module) : CallGraph String (Option String) (String × ℕ) where
  nodes := none :: M.functions.map fun F => some F.name
  getFunction := id
  functionMap f := (M.function f).map fun _ => some f
  calledFunctions := nodeRecords M
  closed := by
    intro n _ record hrecord
    rw [List.mem_cons, List.mem_map]
    cases hcallee : record.2 with
    | none => exact Or.inl rfl
    | some g =>
      cases n with
      | none => exact absurd hrecord List.not_mem_nil
      | some f =>
        have hedge : some g ∈ callees M f := by
          rw [← nodeRecords_snd, ← hcallee]
          exact List.mem_map_of_mem hrecord
        rcases (mem_callees.mp hedge).1.target with ⟨G, hG, rfl⟩
        exact Or.inr ⟨G, hG, rfl⟩
  mapped := by
    intro n hn f hf
    cases hf
    rw [List.mem_cons, List.mem_map] at hn
    rcases hn with hn | ⟨F, hF, hn⟩
    · cases hn
    · cases hn
      rw [M.function_eq hF]
      rfl
  node := by
    intro f n hn
    rw [Option.map_eq_some_iff] at hn
    rcases hn with ⟨F, hF, rfl⟩
    rcases function_name hF with ⟨hmem, rfl⟩
    exact ⟨List.mem_cons_of_mem _ (List.mem_map_of_mem hmem), rfl⟩

/-- The edges of the call graph lead to the functions that the module calls. -/
theorem Module.callGraph_edges (M : Module) (f : String) :
    M.callGraph.edges f = (callees M f).filterMap id := by
  rw [← nodeRecords_snd, List.filterMap_map]
  cases hf : M.function f with
  | none =>
    have hnode : M.callGraph.functionMap f = none := by simp [callGraph, hf]
    unfold CallGraph.edges nodeRecords
    rw [hnode, Option.bind_some, hf]
    rfl
  | some F =>
    have hnode : M.callGraph.functionMap f = some (some f) := by simp [callGraph, hf]
    rw [CallGraph.edges_eq hnode]
    rfl

end Module

/-! ## The search -/

namespace CallGraph

variable {φ ν ι : Type} [DecidableEq φ] {CG : CallGraph φ ν ι} {getName : φ → String} {F G : φ}
  {n : ν}

/-- The loop over the call records of a node; `visit` is the recursive call. -/
def castLoop (CG : CallGraph φ ν ι) (getName : φ → String)
    (visit : φ → List φ → Option (Bool × List φ)) :
    List (Option ι × ν) → Bool → List φ → Option (Bool × List φ)
  | [], mayCast, visited => some (mayCast, visited)
  | record :: records, mayCast, visited =>
    match CG.getFunction record.2 with
    | none => castLoop CG getName visit records mayCast visited
    | some calleeFunction =>
      if getName calleeFunction = sCast then some (true, visited)
      else do
        let (mayCast, visited) ←
          if calleeFunction ∉ visited then
            (visit calleeFunction visited).map fun (found, visited) => (mayCast || found, visited)
          else some (mayCast, visited)
        if mayCast then return (true, visited)
        castLoop CG getName visit records mayCast visited

/-- `IsAnyCallesInvokeCast`, with a bound on the depth. The assertions are that `F`
has not been visited and that it has a node. -/
def isAnyCallesInvokeCast (CG : CallGraph φ ν ι) (getName : φ → String) :
    ℕ → φ → List φ → Option (Bool × List φ)
  | 0, _, _ => none
  | depth + 1, F, visited => do
    guard (F ∉ visited)
    let cgNode ← CG.functionMap F
    castLoop CG getName (isAnyCallesInvokeCast CG getName depth) (CG.calledFunctions cgNode) false
      (F :: visited)

/-- The name that the search compares with. -/
def isCast (getName : φ → String) (F : φ) : Bool := getName F == sCast

/-- The loop is the one over the functions of the records. -/
theorem castLoop_eq {visit visit' : φ → List φ → Option (Bool × List φ)}
    (records : List (Option ι × ν)) (visited : List φ)
    (hvisit : ∀ G ∈ CG.recordCallees records, ∀ v, G ∉ v → visit G v = visit' G v) :
    castLoop CG getName visit records false visited =
      searchAll (isCast getName) visit' (CG.recordCallees records) visited := by
  induction records generalizing visited with
  | nil => rfl
  | cons record records ih =>
    unfold castLoop
    cases hcallee : CG.getFunction record.2 with
    | none =>
      have hskip : CG.recordCallees (record :: records) = CG.recordCallees records :=
        List.filterMap_cons_none hcallee
      rw [hskip] at hvisit ⊢
      exact ih visited hvisit
    | some callee =>
      have hcons : CG.recordCallees (record :: records) = callee :: CG.recordCallees records :=
        List.filterMap_cons_some hcallee
      rw [hcons] at hvisit ⊢
      have ih := fun v => ih v fun G hG => hvisit G (List.mem_cons_of_mem callee hG)
      unfold searchAll
      -- a cast ends the loop, and a function that has been visited is passed over
      by_cases hname : getName callee = sCast
      · have hcast : isCast getName callee = true := beq_iff_eq.mpr hname
        simp only [if_pos hname, if_pos hcast]
      have hcast : ¬ isCast getName callee = true := fun h => hname (beq_iff_eq.mp h)
      by_cases hvisited : callee ∈ visited
      · simp only [if_neg hname, if_neg hcast, if_neg (not_not_intro hvisited), if_pos hvisited]
        exact ih visited
      simp only [if_neg hname, if_neg hcast, if_pos hvisited, if_neg hvisited]
      rw [hvisit callee List.mem_cons_self visited hvisited]
      cases visit' callee visited with
      | none => rfl
      | some result =>
        rcases result with ⟨found, v⟩
        cases found with
        | true => rfl
        | false => exact ih v

/-- No assertion fails, so the recursion is the search over the edges. -/
theorem isAnyCallesInvokeCast_eq_search (depth : ℕ) {visited : List φ} (hF : F ∈ CG.functions)
    (hnew : F ∉ visited) :
    isAnyCallesInvokeCast CG getName depth F visited =
      search CG.edges (isCast getName) depth F visited := by
  induction depth generalizing F visited with
  | zero => rfl
  | succ depth ih =>
    rcases mem_functions.mp hF with ⟨n, hn⟩
    have hguard : (guard (F ∉ visited) : Option Unit) = some () := if_pos hnew
    unfold isAnyCallesInvokeCast search
    rw [hn, edges_eq hn, hguard]
    simp only [Option.bind_eq_bind, Option.bind_some]
    apply castLoop_eq
    intro G hG v hGv
    rw [← edges_eq hn] at hG
    exact ih (CG.edges_subset F hG) hGv

/-- A path over functions that have not been visited leads to a call of the cast. -/
def LeadsToCast (CG : CallGraph φ ν ι) (getName : φ → String) (visited : List φ) (F : φ) : Prop :=
  ∃ G, ReflTransGen (fun F G => CG.Edge F G ∧ G ∉ visited) F G ∧ CG.InvokesCast getName G

omit [DecidableEq φ] in
theorem findsAvoiding_iff {visited : List φ} :
    FindsAvoiding CG.edges (isCast getName) visited F ↔ CG.LeadsToCast getName visited F := by
  unfold FindsAvoiding LeadsToCast InvokesCast
  simp only [mem_edges, isCast, beq_iff_eq]

omit [DecidableEq φ] in
theorem leadsToCast_nil : CG.LeadsToCast getName [] F ↔
    ∃ G, ReflTransGen CG.Edge F G ∧ CG.InvokesCast getName G := by
  unfold LeadsToCast
  simp only [List.not_mem_nil, not_false_eq_true, and_true]

variable (getName) in
/-- The search returns, never visits a function twice, and finds a cast if a path over
functions that have not been visited leads to one. -/
theorem isAnyCallesInvokeCast_returns (hF : CG.functionMap F = some n) {visited : List φ}
    (hnodup : visited.Nodup) (hnew : F ∉ visited) {depth : ℕ} (hdepth : CG.nodes.length < depth) :
    ∃ mayCast visited',
      isAnyCallesInvokeCast CG getName depth F visited = some (mayCast, visited') ∧
      visited'.Nodup ∧ visited ⊆ visited' ∧
      (mayCast = true ↔ CG.LeadsToCast getName visited F) := by
  have hmem : F ∈ CG.functions := mem_functions.mpr ⟨n, hF⟩
  have hclosed : ∀ G ∈ visited ++ CG.functions, CG.edges G ⊆ visited ++ CG.functions := by
    intro G _
    exact List.Subset.trans (CG.edges_subset G) (List.subset_append_right _ _)
  have hlen : CG.functions.length ≤ CG.nodes.length := List.length_filterMap_le _ _
  rw [isAnyCallesInvokeCast_eq_search depth hmem hnew, ← findsAvoiding_iff]
  apply search_avoiding hclosed (List.mem_append_right _ hmem) hnew hnodup
    (List.subset_append_left _ _)
  rw [List.length_append]
  omega

/-- From a function that has not been visited, the search returns, never visits a
function twice, and finds a cast if a path leads to one. At its start there is no
function that the path would have to avoid. -/
theorem isAnyCallesInvokeCast_exact (CG : CallGraph φ ν ι) (getName : φ → String)
    (hF : CG.functionMap F = some n) {visited : List φ} (hnodup : visited.Nodup)
    (hnew : F ∉ visited) {depth : ℕ} (hdepth : CG.nodes.length < depth) :
    ∃ mayCast visited',
      isAnyCallesInvokeCast CG getName depth F visited = some (mayCast, visited') ∧
      visited'.Nodup ∧ visited ⊆ visited' ∧
      (mayCast = true ↔ CG.LeadsToCast getName visited F) ∧
      (visited = [] →
        (mayCast = true ↔ ∃ G, ReflTransGen CG.Edge F G ∧ CG.InvokesCast getName G)) := by
  rcases isAnyCallesInvokeCast_returns getName hF hnodup hnew hdepth with
      ⟨mayCast, visited', hrun, hnodup', hgrows, hfinds⟩
  refine ⟨mayCast, visited', hrun, hnodup', hgrows, hfinds, ?_⟩
  intro hstart
  rw [hfinds, hstart, leadsToCast_nil]

end CallGraph

/-- `visit` and `step` call each other, and `visit` itself; `step` casts. -/
def recursiveModule : Module where
  functions :=
    [runtimeFunction sCast,
      ⟨"visit", false, false, false, false,
        [⟨true, none⟩, ⟨true, some "visit"⟩, ⟨true, some "step"⟩]⟩,
      ⟨"step", false, false, true, true, [⟨false, some "visit"⟩, ⟨true, some sCast⟩]⟩]
  names_nodup := by decide
  closed := by simp [runtimeFunction]
  declared := by decide
  intrinsics := by decide
  hooks := by decide

/-- The search from `visit`, whose cast is in `step`. -/
theorem recursiveModule_search : ∃ mayCast visited',
    recursiveModule.callGraph.isAnyCallesInvokeCast id 5 "visit" [] = some (mayCast, visited') ∧
      visited'.Nodup ∧ [] ⊆ visited' ∧
      (mayCast = true ↔ recursiveModule.callGraph.LeadsToCast id [] "visit") ∧
      (([] : List String) = [] → (mayCast = true ↔ ∃ G,
        ReflTransGen recursiveModule.callGraph.Edge "visit" G ∧
          recursiveModule.callGraph.InvokesCast id G)) :=
  recursiveModule.callGraph.isAnyCallesInvokeCast_exact id (F := "visit") (n := some "visit") rfl
    List.nodup_nil List.not_mem_nil (by decide)

/-- The search of a module's functions is that of its call graph. -/
theorem isAnyCallesInvokeCast_callGraph {M : Module} {F : Function} (hF : F ∈ M.functions) :
    isAnyCallesInvokeCast M F.name =
      (M.callGraph.isAnyCallesInvokeCast id (M.functions.length + 1) F.name []).map (·.1) := by
  have hmem : F.name ∈ M.callGraph.functions := by
    rw [CallGraph.mem_functions]
    exact ⟨some F.name, by simp [Module.callGraph, M.function_eq hF]⟩
  have hedges : M.callGraph.edges = fun f => (callees M f).filterMap id := by
    funext f
    exact M.callGraph_edges f
  rw [CallGraph.isAnyCallesInvokeCast_eq_search _ hmem List.not_mem_nil, hedges]
  rfl

end Caver.Passes
