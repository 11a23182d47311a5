import Caver.Passes.CastSearch

/-!
# Caver.Passes.CallRecords — call records and the instructions that they are for

* `Program`: the instructions of functions, and a call graph whose records hold
  them weakly. `eraseFromParent` leaves a null in the records.
* `AgreesOn`: a node has one record for each call site of its function, and no other.
* `refreshCallGraph_iff`: the pass manager's check after a pass is exactly that.
-/

namespace Caver.Passes

open Relation

variable {φ ν ι : Type}

/-! ## Instructions -/

/-- A `CallInst`, an `InvokeInst`, or no call site. -/
inductive Instruction (φ : Type) where
  | call (calledFunction : Option φ)
  | invoke (calledFunction : Option φ)
  | other
deriving DecidableEq, Repr

/-- `CallSite`: the called function; null for what is no call site. -/
def Instruction.callSite : Instruction φ → Option (Option φ)
  | .call calledFunction => some calledFunction
  | .invoke calledFunction => some calledFunction
  | .other => none

/-- Functions, and the instructions of their blocks. -/
structure Code (φ ι : Type) where
  getName : φ → String
  isDeclaration : φ → Bool
  instruction : ι → Instruction φ
  body : φ → List ι
  nodup : ∀ F, (body F).Nodup
  apart : ∀ F G i, i ∈ body F → i ∈ body G → F = G
  declared : ∀ F, isDeclaration F = true → body F = []

namespace Code

variable {C : Code φ ι} {i : ι}

def isIntrinsic (C : Code φ ι) (F : φ) : Bool := "llvm.".toList.isPrefixOf (C.getName F).toList

/-- The called function of a call site that the call graph records: it is null, or no
intrinsic. -/
def recordedCallSite (C : Code φ ι) (i : ι) : Option (Option φ) :=
  match (C.instruction i).callSite with
  | none => none
  | some none => some none
  | some (some callee) => if C.isIntrinsic callee then none else some (some callee)

theorem callSite_of_recorded {callee : Option φ} (h : C.recordedCallSite i = some callee) :
    (C.instruction i).callSite = some callee := by
  unfold recordedCallSite at h
  split at h
  · cases h
  · cases h
    assumption
  · split at h
    · cases h
    · cases h
      assumption

end Code

/-- The code and its call graph. -/
structure Program (φ ν ι : Type) where
  code : Code φ ι
  callGraph : CallGraph φ ν ι

/-- A record may lead to the null function where the call is direct by now. -/
def Matches (CG : CallGraph φ ν ι) (n : ν) (callee : Option φ) : Prop :=
  CG.getFunction n = callee ∨ callee.isSome ∧ CG.getFunction n = none

instance [DecidableEq φ] (CG : CallGraph φ ν ι) (n : ν) (callee : Option φ) :
    Decidable (Matches CG n callee) := by
  unfold Matches
  infer_instance

/-- The node `n` of `F` has one record for each call site of the body but those of
intrinsics, and no record of anything else. -/
structure InStep [DecidableEq ι] (P : Program φ ν ι) (n : ν) (F : φ) : Prop where
  recorded : ∀ i ∈ P.code.body F, (P.code.recordedCallSite i).isSome →
    ((P.callGraph.calledFunctions n).map (·.1)).count (some i) = 1
  live : ∀ record ∈ P.callGraph.calledFunctions n, ∃ i ∈ P.code.body F, record.1 = some i ∧
    ∃ callee, P.code.recordedCallSite i = some callee ∧ Matches P.callGraph record.2 callee

namespace Program

/-- The call graph agrees with the instructions of the defined functions of `nodes`. -/
def AgreesOn [DecidableEq ι] (P : Program φ ν ι) (nodes : List ν) : Prop :=
  ∀ n ∈ nodes, ∀ F, P.callGraph.getFunction n = some F → P.code.isDeclaration F = false →
    InStep P n F

variable [DecidableEq ι]

/-- `eraseFromParent`. A `WeakVH` nulls itself out when its value is deleted. -/
def eraseFromParent (P : Program φ ν ι) (inst : ι) : Program φ ν ι where
  code :=
    { P.code with
      body := fun F => (P.code.body F).filter (· ≠ inst)
      nodup := fun F => (P.code.nodup F).filter _
      apart := fun F G i hF hG =>
        P.code.apart F G i (List.mem_of_mem_filter hF) (List.mem_of_mem_filter hG)
      declared := fun F hF => by rw [P.code.declared F hF, List.filter_nil] }
  callGraph :=
    { P.callGraph with
      calledFunctions := fun n =>
        (P.callGraph.calledFunctions n).map fun record => (record.1.filter (· ≠ inst), record.2)
      closed := by
        intro n hn record hrecord
        rw [List.mem_map] at hrecord
        rcases hrecord with ⟨record, hrecord, rfl⟩
        exact P.callGraph.closed n hn record hrecord }

/-- The loop over the collected instructions. -/
def eraseAll (P : Program φ ν ι) (insts : List ι) : Program φ ν ι :=
  insts.foldl eraseFromParent P

theorem eraseAll_nil (P : Program φ ν ι) : P.eraseAll [] = P := rfl

/-- What no deletion changes. -/
theorem eraseAll_keeps (P : Program φ ν ι) (insts : List ι) :
    (P.eraseAll insts).code.isDeclaration = P.code.isDeclaration ∧
      (P.eraseAll insts).code.recordedCallSite = P.code.recordedCallSite ∧
      (P.eraseAll insts).callGraph.getFunction = P.callGraph.getFunction := by
  induction insts generalizing P with
  | nil => exact ⟨rfl, rfl, rfl⟩
  | cons inst insts ih => exact ih (P.eraseFromParent inst)

theorem eraseAll_body (P : Program φ ν ι) (insts : List ι) (F : φ) :
    (P.eraseAll insts).code.body F = (P.code.body F).filter (· ∉ insts) := by
  induction insts generalizing P with
  | nil => simp [eraseAll_nil]
  | cons inst insts ih =>
    have hbody : (P.eraseFromParent inst).code.body F = (P.code.body F).filter (· ≠ inst) := rfl
    change ((P.eraseFromParent inst).eraseAll insts).code.body F = _
    rw [ih, hbody, List.filter_filter]
    apply List.filter_congr
    intro i _
    simp [Bool.and_comm]

theorem eraseAll_calledFunctions (P : Program φ ν ι) (insts : List ι) (n : ν) :
    (P.eraseAll insts).callGraph.calledFunctions n =
      (P.callGraph.calledFunctions n).map fun record =>
        (record.1.filter (· ∉ insts), record.2) := by
  induction insts generalizing P with
  | nil =>
    have hid : (fun record : Option ι × ν => (record.1.filter (· ∉ ([] : List ι)), record.2)) =
        id := by
      funext ⟨site, n⟩
      cases site <;> rfl
    rw [hid, List.map_id, eraseAll_nil]
  | cons inst insts ih =>
    have hrecords : (P.eraseFromParent inst).callGraph.calledFunctions n =
        (P.callGraph.calledFunctions n).map fun record =>
          (record.1.filter (· ≠ inst), record.2) := rfl
    change ((P.eraseFromParent inst).eraseAll insts).callGraph.calledFunctions n = _
    rw [ih, hrecords, List.map_map]
    apply List.map_congr_left
    intro record _
    simp only [Function.comp_apply, Option.filter_filter]
    congr 2
    funext i
    simp

end Program

/-! ## The check after a pass -/

section Refresh

variable [DecidableEq φ] [DecidableEq ι]

/-- The loop over the records of a node. It asserts that a record holds a call site
that has not been met before. -/
def scanRecords (C : Code φ ι) :
    List (Option ι × ν) → List (ι × ν) → Option (List (ι × ν))
  | [], callSites => some callSites
  | (none, _) :: _, _ => none
  | (some i, n) :: records, callSites => do
    guard (i ∉ callSites.map (·.1) ∧ (C.instruction i).callSite ≠ none)
    scanRecords C records ((i, n) :: callSites)

/-- The loop over the instructions of a function. It asserts that a call site has a
record, and one that matches. -/
def scanBody (P : Program φ ν ι) : List ι → List (ι × ν) → Option (List (ι × ν))
  | [], callSites => some callSites
  | i :: insts, callSites =>
    match P.code.recordedCallSite i with
    | none => scanBody P insts callSites
    | some callee => do
      let existingNode ← callSites.lookup i
      guard (Matches P.callGraph existingNode callee)
      scanBody P insts (callSites.filter (·.1 ≠ i))

/-- `RefreshCallGraph` in checking mode: no result if an assertion fails. -/
def refreshCallGraph (P : Program φ ν ι) : List ν → List (ι × ν) → Option (List (ι × ν))
  | [], callSites => some callSites
  | n :: scc, callSites =>
    match P.callGraph.getFunction n with
    | none => refreshCallGraph P scc callSites
    | some F =>
      if P.code.isDeclaration F then refreshCallGraph P scc callSites
      else do
        let callSites ← scanRecords P.code (P.callGraph.calledFunctions n) callSites
        let callSites ← scanBody P (P.code.body F) callSites
        guard (callSites = [])
        refreshCallGraph P scc callSites

variable {P : Program φ ν ι} {C : Code φ ι} {n : ν} {F : φ} {i : ι}

/-- The call sites that records hold, the last one first. -/
def heldSites (records : List (Option ι × ν)) : List (ι × ν) :=
  (records.filterMap fun record => record.1.map (·, record.2)).reverse

omit [DecidableEq ι] in
theorem mem_heldSites {records : List (Option ι × ν)} :
    (i, n) ∈ heldSites records ↔ (some i, n) ∈ records := by
  unfold heldSites
  rw [List.mem_reverse, List.mem_filterMap]
  constructor
  · rintro ⟨⟨site, m⟩, hrecord, hheld⟩
    rw [Option.map_eq_some_iff] at hheld
    rcases hheld with ⟨j, hsite, hpair⟩
    cases hpair
    change site = some i at hsite
    rwa [hsite] at hrecord
  · exact fun h => ⟨(some i, n), h, rfl⟩

omit [DecidableEq ι] in
theorem heldSites_cons (records : List (Option ι × ν)) :
    heldSites ((some i, n) :: records) = heldSites records ++ [(i, n)] := by
  unfold heldSites
  rw [← List.reverse_cons]
  rfl

omit [DecidableEq φ] [DecidableEq ι] in
/-- A guard and what comes after it. -/
theorem guard_bind_eq_some {α : Type} {p : Prop} [Decidable p] {x : Option α} {a : α} :
    (do guard p; x) = some a ↔ p ∧ x = some a := by
  by_cases hp : p
  · rw [show (guard p : Option Unit) = some () from if_pos hp, Option.bind_eq_bind,
      Option.bind_some, and_iff_right hp]
  · rw [show (guard p : Option Unit) = none from if_neg hp, Option.bind_eq_bind,
      Option.bind_none]
    simp [hp]

omit [DecidableEq φ] in
/-- No assertion fails in the loop if the records hold call sites, each one once. -/
theorem scanRecords_iff {records : List (Option ι × ν)} {callSites callSites' : List (ι × ν)} :
    scanRecords C records callSites = some callSites' ↔
      (∀ record ∈ records, ∃ i, record.1 = some i ∧ (C.instruction i).callSite ≠ none ∧
        i ∉ callSites.map (·.1)) ∧
      (records.map (·.1)).Nodup ∧ callSites' = heldSites records ++ callSites := by
  induction records generalizing callSites with
  | nil => simp [scanRecords, heldSites, eq_comm]
  | cons record records ih =>
    rcases record with ⟨site, n⟩
    cases site with
    -- a record without a call site fails an assertion
    | none => simp [scanRecords]
    | some i =>
      unfold scanRecords
      rw [guard_bind_eq_some, ih, List.map_cons, List.map_cons, List.nodup_cons, heldSites_cons,
        List.append_assoc, List.forall_mem_cons]
      -- the call site is new to the map if no record before it has it
      constructor
      · intro ⟨hguard, hrecords, hnodup, hsites⟩
        refine ⟨⟨⟨i, rfl, hguard.2, hguard.1⟩, ?_⟩, ⟨?_, hnodup⟩, hsites⟩
        · intro record hrecord
          rcases hrecords record hrecord with ⟨j, hj, hcall, hnew⟩
          exact ⟨j, hj, hcall, fun hmem => hnew (List.mem_cons_of_mem i hmem)⟩
        · intro hmem
          rcases List.mem_map.mp hmem with ⟨record, hrecord, hsite⟩
          rcases hrecords record hrecord with ⟨j, hj, -, hnew⟩
          rw [hsite, Option.some.injEq] at hj
          exact hnew (hj ▸ List.mem_cons_self)
      · intro ⟨⟨⟨j, hj, hcall, hnew⟩, hrecords⟩, ⟨hfirst, hnodup⟩, hsites⟩
        cases hj
        refine ⟨⟨hnew, hcall⟩, ?_, hnodup, hsites⟩
        intro record hrecord
        rcases hrecords record hrecord with ⟨j, hj, hcall, hnew⟩
        refine ⟨j, hj, hcall, ?_⟩
        intro hmem
        rcases List.mem_cons.mp hmem with rfl | hmem
        · exact hfirst (List.mem_map.mpr ⟨record, hrecord, hj⟩)
        · exact hnew hmem

omit [DecidableEq φ] in
/-- A map without duplicate keys holds what is found in it. -/
theorem lookup_iff {callSites : List (ι × ν)} (hnodup : (callSites.map (·.1)).Nodup) :
    callSites.lookup i = some n ↔ (i, n) ∈ callSites := by
  induction callSites with
  | nil => simp
  | cons site callSites ih =>
    rcases site with ⟨j, m⟩
    rw [List.map_cons, List.nodup_cons] at hnodup
    rw [List.lookup_cons, List.mem_cons, Prod.mk.injEq]
    by_cases hij : i = j
    · subst hij
      have hlater : (i, n) ∉ callSites := fun h => hnodup.1 (List.mem_map.mpr ⟨(i, n), h, rfl⟩)
      simp [hlater, eq_comm]
    · rw [beq_eq_false_iff_ne.mpr hij, or_iff_right fun h => hij h.1]
      exact ih hnodup.2

omit [DecidableEq φ] in
theorem held_unique {callSites : List (ι × ν)} {m : ν} (hnodup : (callSites.map (·.1)).Nodup)
    (hn : (i, n) ∈ callSites) (hm : (i, m) ∈ callSites) : m = n := by
  have hfound := (lookup_iff hnodup).mpr hm
  rw [(lookup_iff hnodup).mpr hn, Option.some.injEq] at hfound
  exact hfound.symm

/-- No assertion fails in the loop if each call site has a record that matches. What is
left are records of other call sites. -/
theorem scanBody_iff {insts : List ι} {callSites callSites' : List (ι × ν)}
    (hinsts : insts.Nodup) (hnodup : (callSites.map (·.1)).Nodup) :
    scanBody P insts callSites = some callSites' ↔
      (∀ i ∈ insts, ∀ callee, P.code.recordedCallSite i = some callee →
        ∃ n, (i, n) ∈ callSites ∧ Matches P.callGraph n callee) ∧
      callSites' = callSites.filter fun site =>
        site.1 ∉ insts ∨ P.code.recordedCallSite site.1 = none := by
  induction insts generalizing callSites with
  | nil => simp [scanBody, eq_comm]
  | cons i insts ih =>
    rw [List.nodup_cons] at hinsts
    rw [List.forall_mem_cons]
    unfold scanBody
    cases hcallee : P.code.recordedCallSite i with
    -- a call site that is not recorded is passed over
    | none =>
      have hkeep : ∀ site : ι × ν,
          (site.1 ∉ i :: insts ∨ P.code.recordedCallSite site.1 = none) ↔
            (site.1 ∉ insts ∨ P.code.recordedCallSite site.1 = none) := by
        intro site
        rw [List.mem_cons]
        by_cases hsite : site.1 = i
        · simp [hsite, hcallee]
        · simp [hsite]
      simp only [hkeep, ih hinsts.2 hnodup, reduceCtorEq, false_implies, implies_true, true_and]
    | some callee =>
      have hrest : ((callSites.filter (·.1 ≠ i)).map (·.1)).Nodup :=
        hnodup.sublist (List.filter_sublist.map _)
      -- its record is looked up, compared and taken out: without one the assertion fails
      cases hfound : callSites.lookup i with
      | none =>
        constructor
        · intro h
          cases h
        · intro ⟨⟨hfirst, _⟩, _⟩
          rcases hfirst callee rfl with ⟨m, hmem, -⟩
          rw [(lookup_iff hnodup).mpr hmem] at hfound
          cases hfound
      | some m =>
        have hmem := (lookup_iff hnodup).mp hfound
        have hfilter : ((callSites.filter (·.1 ≠ i)).filter fun site =>
            site.1 ∉ insts ∨ P.code.recordedCallSite site.1 = none) =
            callSites.filter fun site =>
              site.1 ∉ i :: insts ∨ P.code.recordedCallSite site.1 = none := by
          rw [List.filter_filter]
          apply List.filter_congr
          intro site _
          by_cases hsite : site.1 = i
          · simp [hsite, hcallee]
          · simp [hsite]
        simp only [Option.bind_eq_bind, Option.bind_some]
        rw [← Option.bind_eq_bind, guard_bind_eq_some, ih hinsts.2 hrest, hfilter, ← and_assoc]
        refine and_congr_left fun _ => and_congr ?_ ?_
        · constructor
          · intro hmatch callee' hcallee'
            cases hcallee'
            exact ⟨m, hmem, hmatch⟩
          · intro hall
            rcases hall callee rfl with ⟨m', hm', hmatch⟩
            rwa [held_unique hnodup hmem hm'] at hmatch
        · apply forall₂_congr
          intro j hj
          have hne : j ≠ i := fun h => hinsts.1 (h ▸ hj)
          simp only [List.mem_filter, hne, ne_eq, not_false_eq_true, decide_true, and_true]

omit [DecidableEq φ] [DecidableEq ι] in
theorem heldSites_nodup {records : List (Option ι × ν)} (h : (records.map (·.1)).Nodup) :
    ((heldSites records).map (·.1)).Nodup := by
  have hkeys : ((heldSites records).map (·.1)).reverse = (records.map (·.1)).filterMap id := by
    unfold heldSites
    rw [← List.map_reverse, List.reverse_reverse, List.map_filterMap, List.filterMap_map]
    apply List.filterMap_congr
    intro ⟨site, _⟩ _
    cases site <;> rfl
  rw [← List.nodup_reverse, hkeys]
  apply h.filterMap
  intro a b i ha hb
  exact ha.trans hb.symm

omit [DecidableEq φ] in
theorem InStep.records_nodup (h : InStep P n F) :
    ((P.callGraph.calledFunctions n).map (·.1)).Nodup := by
  rw [List.nodup_iff_count_le_one]
  intro site
  by_cases hsite : site ∈ (P.callGraph.calledFunctions n).map (·.1)
  · rcases List.mem_map.mp hsite with ⟨record, hrecord, rfl⟩
    rcases h.live record hrecord with ⟨i, hi, heq, callee, hcallee, -⟩
    rw [heq]
    exact Nat.le_of_eq (h.recorded i hi (by rw [hcallee]; rfl))
  · rw [List.count_eq_zero_of_not_mem hsite]
    exact Nat.zero_le 1

/-- What the check finds out about the node of a function. -/
theorem inStep_iff : InStep P n F ↔ ∃ callSites,
    scanRecords P.code (P.callGraph.calledFunctions n) [] = some callSites ∧
      scanBody P (P.code.body F) callSites = some [] := by
  constructor
  · intro h
    have hnodup := h.records_nodup
    refine ⟨heldSites (P.callGraph.calledFunctions n), ?_, ?_⟩
    · rw [scanRecords_iff, List.append_nil]
      refine ⟨?_, hnodup, rfl⟩
      intro record hrecord
      rcases h.live record hrecord with ⟨i, -, heq, callee, hcallee, -⟩
      exact ⟨i, heq, by simp [Code.callSite_of_recorded hcallee], List.not_mem_nil⟩
    · rw [scanBody_iff (P.code.nodup F) (heldSites_nodup hnodup)]
      constructor
      · intro i hi callee hcallee
        have hcount := h.recorded i hi (by rw [hcallee]; rfl)
        have hmem : some i ∈ (P.callGraph.calledFunctions n).map (·.1) := by
          rw [← List.count_pos_iff, hcount]
          exact Nat.one_pos
        rcases List.mem_map.mp hmem with ⟨⟨site, m⟩, hrecord, hsite⟩
        change site = some i at hsite
        subst hsite
        rcases h.live _ hrecord with ⟨j, -, heq, callee', hcallee', hmatch⟩
        cases heq
        rw [hcallee, Option.some.injEq] at hcallee'
        exact ⟨m, mem_heldSites.mpr hrecord, hcallee' ▸ hmatch⟩
      · symm
        rw [List.filter_eq_nil_iff]
        intro ⟨i, m⟩ hsite
        rcases h.live _ (mem_heldSites.mp hsite) with ⟨j, hj, heq, callee, hcallee, -⟩
        cases heq
        simp [hj, hcallee]
  · intro ⟨callSites, hscan, hbody⟩
    rw [scanRecords_iff, List.append_nil] at hscan
    rcases hscan with ⟨hrecords, hnodup, rfl⟩
    rw [scanBody_iff (P.code.nodup F) (heldSites_nodup hnodup)] at hbody
    rcases hbody with ⟨hbody, hrest⟩
    constructor
    · intro i hi hcallee
      rcases Option.isSome_iff_exists.mp hcallee with ⟨callee, hcallee⟩
      rcases hbody i hi callee hcallee with ⟨m, hm, -⟩
      rw [mem_heldSites] at hm
      exact List.count_eq_one_of_mem hnodup (List.mem_map_of_mem (f := (·.1)) hm)
    · intro ⟨site, m⟩ hrecord
      rcases hrecords _ hrecord with ⟨i, heq, -, -⟩
      change site = some i at heq
      subst heq
      -- no record is left at the end
      have hnone := List.filter_eq_nil_iff.mp hrest.symm (i, m) (mem_heldSites.mpr hrecord)
      rw [decide_eq_true_iff, not_or, not_not] at hnone
      rcases Option.ne_none_iff_exists'.mp hnone.2 with ⟨callee, hcallee⟩
      rcases hbody i hnone.1 callee hcallee with ⟨m', hm', hmatch⟩
      have hm := held_unique (heldSites_nodup hnodup) (mem_heldSites.mpr hrecord) hm'
      exact ⟨i, hnone.1, rfl, callee, hcallee, hm ▸ hmatch⟩

/-- The map of call sites is empty whenever the next function is checked. -/
theorem refreshCallGraph_sites {scc : List ν} {callSites : List (ι × ν)}
    (h : refreshCallGraph P scc [] = some callSites) : callSites = [] := by
  induction scc with
  | nil =>
    cases h
    rfl
  | cons n scc ih =>
    unfold refreshCallGraph at h
    split at h
    · exact ih h
    split at h
    · exact ih h
    rw [Option.bind_eq_bind, Option.bind_eq_some_iff] at h
    rcases h with ⟨held, -, h⟩
    rw [Option.bind_eq_some_iff] at h
    rcases h with ⟨rest, -, h⟩
    rw [guard_bind_eq_some] at h
    rcases h with ⟨rfl, h⟩
    exact ih h

/-- No assertion of `RefreshCallGraph` fails if the call graph agrees with the code. -/
theorem refreshCallGraph_iff (P : Program φ ν ι) (scc : List ν) :
    refreshCallGraph P scc [] = some [] ↔ P.AgreesOn scc := by
  unfold Program.AgreesOn
  induction scc with
  | nil => simp [refreshCallGraph]
  | cons n scc ih =>
    rw [List.forall_mem_cons]
    unfold refreshCallGraph
    cases hF : P.callGraph.getFunction n with
    | none => simp [ih]
    | some F =>
      -- declarations are passed over
      by_cases hdecl : P.code.isDeclaration F = true
      · simp [hdecl, ih]
      have hdef : P.code.isDeclaration F = false := by simpa using hdecl
      have hnode : (∀ G, some F = some G → P.code.isDeclaration G = false → InStep P n G) ↔
          InStep P n F := by
        constructor
        · exact fun h => h F rfl hdef
        · intro h G hG _
          cases hG
          exact h
      rw [hnode, ← ih, inStep_iff]
      simp only [if_neg hdecl]
      cases hscan : scanRecords P.code (P.callGraph.calledFunctions n) [] with
      | none => simp
      | some callSites =>
        -- the records of the node first, then the calls of the body
        have hsites : (∃ callSites', some callSites = some callSites' ∧
            scanBody P (P.code.body F) callSites' = some []) ↔
            scanBody P (P.code.body F) callSites = some [] := by
          constructor
          · intro ⟨callSites', heq, hbody⟩
            cases heq
            exact hbody
          · exact fun hbody => ⟨callSites, rfl, hbody⟩
        rw [hsites]
        simp only [Option.bind_eq_bind, Option.bind_some]
        cases hbody : scanBody P (P.code.body F) callSites with
        | none => simp
        | some rest =>
          rw [Option.bind_some, ← Option.bind_eq_bind, guard_bind_eq_some, Option.some.injEq]
          apply and_congr_right
          intro hrest
          rw [hrest]

end Refresh

end Caver.Passes
