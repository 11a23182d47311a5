import Caver.Runtime.StackRegistry

/-!
# Caver.CodeGen.StackScopes — local objects and the ways out of their scopes

`EmitAutoVarDecl` emits the call of `__cver_handle_stack_enter` and pushes the
cleanup that calls `__cver_handle_stack_exit`. An execution of a thread enters
scopes, runs over declarations, and leaves objects and scopes, normally or by
unwinding.

* `emitAutoVarDecl`: which variables are instrumented, and the cleanup's kind.
* `ThreadState.step`, `ThreadState.run`: the thread's tree and its active scopes along an execution.
* `ThreadState.Matches`: the tree has the registered objects of the active scopes.
* `registry_matches_iff`: it does in all states, if unwinding leaves no registered object.
-/

namespace Caver.CodeGen

open Caver.Core Caver.Runtime

/-! ## Cleanups -/

inductive CleanupKind where
  | ehCleanup
  | normalCleanup
  | normalAndEHCleanup
deriving DecidableEq, Repr

/-- How a scope is left: at its end or by a jump, or by an exception. -/
inductive Exit where
  | normal
  | unwinding
deriving DecidableEq, Repr

/-- A cleanup of this kind runs. -/
def CleanupKind.runsOn : CleanupKind → Exit → Bool
  | .ehCleanup, how => how == .unwinding
  | .normalCleanup, how => how == .normal
  | .normalAndEHCleanup, _ => true

/-! ## Declarations -/

/-- What `EmitAutoVarDecl` asks of a class. -/
structure CXXRecordDecl where
  hasDefinition : Bool
  isAnonymousStructOrUnion : Bool
  typeTable : Option Uptr
  mangledName : String
deriving DecidableEq, Repr

/-- A local variable. Its class is none if it has another type. -/
structure AutoVarDecl where
  emittedAsGlobal : Bool
  isByRef : Bool
  allocSize : Uptr
  record : Option CXXRecordDecl
deriving DecidableEq, Repr

/-- The options of the compiler, and the flags and the allocator of the runtime. -/
structure StackConfig where
  cver : Bool
  cverStack : Bool
  isBlacklistedAllocType : String → Bool
  flags : Flags
  malloc : Malloc

/-- What is emitted for a variable: the arguments of `__cver_handle_stack_enter`
but its address, and the kind of the cleanup. -/
structure StackHooks where
  typeTable : Uptr
  allocSize : Uptr
  cleanup : CleanupKind
deriving DecidableEq, Repr

/-- `EmitAutoVarDecl`, if the variable is instrumented. Variables that have no
address, or one that is not the object's, are not. -/
def emitAutoVarDecl (cfg : StackConfig) (D : AutoVarDecl) : Option StackHooks :=
  if cfg.cver && cfg.cverStack && !D.emittedAsGlobal && !D.isByRef && D.allocSize > 0 then do
    let RD ← D.record
    let typeTable ← RD.typeTable
    if RD.hasDefinition && !RD.isAnonymousStructOrUnion &&
        !cfg.isBlacklistedAllocType RD.mangledName then
      return ⟨typeTable, D.allocSize, .normalCleanup⟩
    else none
  else none

variable {cfg : StackConfig} {D : AutoVarDecl} {hooks : StackHooks}

/-- Every stack exit is a cleanup of normal exits only. -/
theorem emitAutoVarDecl_cleanup (h : emitAutoVarDecl cfg D = some hooks) :
    hooks.cleanup = .normalCleanup := by
  unfold emitAutoVarDecl at h
  split at h
  · simp only [Option.bind_eq_bind, Option.bind_eq_some_iff] at h
    rcases h with ⟨RD, -, typeTable, -, h⟩
    split at h
    · cases h
      rfl
    · exact absurd h (by simp)
  · exact absurd h (by simp)

/-! ## Executions -/

/-- An instrumented local object of an active scope. It is registered if
`__cver_handle_stack_enter` has put it in the tree: not if its declaration was
jumped past. -/
structure StackObject where
  address : Uptr
  typeTable : Uptr
  cleanup : CleanupKind
  registered : Bool
deriving DecidableEq, Repr

/-- The thread's tree, and its active scopes. The innermost scope and the last
declaration come first. -/
structure ThreadState where
  root : Option RbTree
  scopes : List (List StackObject)

inductive Event where
  | enterScope
  | declare (D : AutoVarDecl) (address : Uptr)
  | jumpPast (D : AutoVarDecl) (address : Uptr)
  | leaveObject (how : Exit)
  | leaveScope (how : Exit)

/-- Add an object to the innermost scope. -/
def declareIn (o : StackObject) : List (List StackObject) → List (List StackObject)
  | [] => [[o]]
  | scope :: scopes => (o :: scope) :: scopes

/-- `CastVerifierStackExit`, when the object is left. -/
def runCleanup (cfg : StackConfig) (how : Exit) (root : Option RbTree) (o : StackObject) :
    Option (Option RbTree) :=
  if o.cleanup.runsOn how then handleStackExit cfg.flags cfg.malloc o.address root else some root

/-- One event. Leaving a scope leaves its objects, the last one first. -/
def ThreadState.step (cfg : StackConfig) (s : ThreadState) : Event → Option ThreadState
  | .enterScope => some ⟨s.root, [] :: s.scopes⟩
  | .declare D address =>
    match emitAutoVarDecl cfg D with
    | none => some s
    | some hooks => do
      let root ←
        handleStackEnter cfg.flags cfg.malloc hooks.typeTable address hooks.allocSize s.root
      let o : StackObject := ⟨address, hooks.typeTable, hooks.cleanup, !cfg.flags.noCheck⟩
      return ⟨root, declareIn o s.scopes⟩
  | .jumpPast D address =>
    match emitAutoVarDecl cfg D with
    | none => some s
    | some hooks =>
      some ⟨s.root, declareIn ⟨address, hooks.typeTable, hooks.cleanup, false⟩ s.scopes⟩
  | .leaveObject how =>
    match s.scopes with
    | (o :: scope) :: scopes => do
      let root ← runCleanup cfg how s.root o
      return ⟨root, scope :: scopes⟩
    | _ => some s
  | .leaveScope how =>
    match s.scopes with
    | scope :: scopes => do
      let root ← scope.foldlM (runCleanup cfg how) s.root
      return ⟨root, scopes⟩
    | [] => some s

def ThreadState.run (cfg : StackConfig) (s : ThreadState) (es : List Event) : Option ThreadState :=
  es.foldlM (step cfg) s

/-- A thread before its first scope. -/
def ThreadState.start (h : Heap Node) : ThreadState := ⟨some (rbtreeCreate h), []⟩

/-- The objects of the active scopes. -/
def ThreadState.objects (s : ThreadState) : List StackObject := s.scopes.flatten

/-- The address and the type table of a registered object of the list. -/
def Live (objects : List StackObject) (a v : Uptr) : Prop :=
  ∃ o ∈ objects, o.registered = true ∧ o.address = a ∧ o.typeTable = v

/-- The tree has the registered objects of the active scopes and no others. -/
def ThreadState.Matches (s : ThreadState) : Prop := Registers s.root (Live s.objects)

/-- A declared object has an address of its own. -/
def Fresh (cfg : StackConfig) (s : ThreadState) : Event → Prop
  | .declare D address | .jumpPast D address =>
    (emitAutoVarDecl cfg D).isSome = true → ∀ o ∈ s.objects, o.address ≠ address
  | _ => True

/-- The objects that an event leaves by unwinding. -/
def unwound (s : ThreadState) : Event → List StackObject
  | .leaveObject .unwinding => (s.scopes.headD []).take 1
  | .leaveScope .unwinding => s.scopes.headD []
  | _ => []

/-- No registered object is left by unwinding. -/
def Clean (s : ThreadState) (ev : Event) : Prop := ∀ o ∈ unwound s ev, o.registered = false

/-- A property of every event and the state before it. -/
def Along (cfg : StackConfig) (P : ThreadState → Event → Prop) : ThreadState → List Event → Prop
  | _, [] => True
  | s, ev :: es => P s ev ∧ ∀ s', s.step cfg ev = some s' → Along cfg P s' es

/-- An execution of a thread: local objects do not overlap. -/
structure Execution (cfg : StackConfig) (h : Heap Node) where
  events : List Event
  fresh : Along cfg (Fresh cfg) (ThreadState.start h) events

/-! ## The invariant -/

/-- The tree has the registered ones of these objects; they do not overlap, and
their cleanups run on normal exits. -/
structure StackInv (cfg : StackConfig) (root : Option RbTree)
    (objects : List StackObject) : Prop where
  registers : Registers root (Live objects)
  nodup : (objects.map (·.address)).Nodup
  cleanups : ∀ o ∈ objects, o.cleanup = .normalCleanup
  checked : ∀ o ∈ objects, o.registered = true → cfg.flags.noCheck = false

variable {root : Option RbTree} {objects scope : List StackObject} {o : StackObject}

theorem live_cons {a v : Uptr} :
    Live (o :: objects) a v ↔
      (o.registered = true ∧ o.address = a ∧ o.typeTable = v) ∨ Live objects a v := by
  simp [Live]

/-- An object that is not registered is not live. -/
theorem live_cons_of_not (h : o.registered = false) (a v : Uptr) :
    Live (o :: objects) a v ↔ Live objects a v := by
  rw [live_cons, h]
  simp

theorem flatten_declareIn (o : StackObject) (scopes : List (List StackObject)) :
    (declareIn o scopes).flatten = o :: scopes.flatten := by
  cases scopes <;> rfl

/-- Unwinding runs no cleanup of normal exits. -/
theorem runCleanup_unwinding (ho : o.cleanup = .normalCleanup) :
    runCleanup cfg .unwinding root o = some root := by
  unfold runCleanup
  rw [ho]
  exact if_neg (by decide)

theorem runCleanups_unwinding (hcleanup : ∀ o ∈ scope, o.cleanup = .normalCleanup) :
    scope.foldlM (runCleanup cfg .unwinding) root = some root := by
  induction scope with
  | nil => rfl
  | cons o scope ih =>
    rcases List.forall_mem_cons.mp hcleanup with ⟨ho, hscope⟩
    rw [List.foldlM_cons, runCleanup_unwinding ho]
    exact ih hscope

namespace StackInv

theorem start (h : Heap Node) : StackInv cfg (some (rbtreeCreate h)) [] := by
  refine ⟨(Registers.create h).congr ?_, List.nodup_nil, ?_, ?_⟩
  all_goals simp [Live]

/-- An object whose address is no live one. -/
theorem not_live (h : StackInv cfg root (o :: objects)) (v : Uptr) :
    ¬ Live objects o.address v := by
  rintro ⟨o', ho', -, haddr, -⟩
  have hnew := (List.nodup_cons.mp h.nodup).1
  exact hnew (List.mem_map.mpr ⟨o', ho', haddr⟩)

theorem cons (h : StackInv cfg root objects) (hnew : ∀ o' ∈ objects, o'.address ≠ o.address)
    (hcleanup : o.cleanup = .normalCleanup)
    (hchecked : o.registered = true → cfg.flags.noCheck = false)
    {root' : Option RbTree} (hroot : Registers root' (Live (o :: objects))) :
    StackInv cfg root' (o :: objects) := by
  refine ⟨hroot, ?_, ?_, ?_⟩
  · rw [List.map_cons, List.nodup_cons]
    refine ⟨?_, h.nodup⟩
    intro hmem
    rcases List.mem_map.mp hmem with ⟨o', ho', haddr⟩
    exact hnew o' ho' haddr
  · exact List.forall_mem_cons.mpr ⟨hcleanup, h.cleanups⟩
  · exact List.forall_mem_cons.mpr ⟨hchecked, h.checked⟩

/-- Other objects are left as they are. -/
theorem tail (h : StackInv cfg root (o :: objects)) {root' : Option RbTree}
    (hroot : Registers root' (Live objects)) : StackInv cfg root' objects :=
  ⟨hroot, (List.nodup_cons.mp h.nodup).2, (List.forall_mem_cons.mp h.cleanups).2,
    (List.forall_mem_cons.mp h.checked).2⟩

/-- Running over a declaration. -/
theorem declare (h : StackInv cfg root objects) (hemit : emitAutoVarDecl cfg D = some hooks)
    {address : Uptr} (hnew : ∀ o ∈ objects, o.address ≠ address) :
    ∃ root', handleStackEnter cfg.flags cfg.malloc hooks.typeTable address hooks.allocSize root =
        some root' ∧
      StackInv cfg root'
        (⟨address, hooks.typeTable, hooks.cleanup, !cfg.flags.noCheck⟩ :: objects) := by
  cases hcheck : cfg.flags.noCheck with
  | true =>
    refine ⟨root, by simp [handleStackEnter, hcheck], ?_⟩
    apply h.cons hnew (emitAutoVarDecl_cleanup hemit) (fun hreg => absurd hreg Bool.false_ne_true)
    exact h.registers.congr fun a v => (live_cons_of_not rfl a v).symm
  | false =>
    rcases handleStackEnter_spec cfg.malloc hcheck hooks.allocSize h.registers with
        ⟨root', hrun, hroot⟩
    refine ⟨root', hrun, h.cons hnew (emitAutoVarDecl_cleanup hemit) (fun _ => hcheck) ?_⟩
    apply hroot.congr
    intro a v
    rw [live_cons]
    by_cases ha : a = address
    · -- nothing else lives at the address
      have hnone : ¬ Live objects a v := by
        rintro ⟨o, ho, -, haddr, -⟩
        exact hnew o ho (haddr.trans ha)
      rw [if_pos ha, or_iff_left hnone]
      exact ⟨fun hv => ⟨rfl, ha.symm, hv.symm⟩, fun hv => hv.2.2.symm⟩
    · rw [if_neg ha, or_iff_right]
      exact fun hv => ha hv.2.1.symm

/-- Jumping past a declaration. -/
theorem jumpPast (h : StackInv cfg root objects) (hemit : emitAutoVarDecl cfg D = some hooks)
    {address : Uptr} (hnew : ∀ o ∈ objects, o.address ≠ address) :
    StackInv cfg root (⟨address, hooks.typeTable, hooks.cleanup, false⟩ :: objects) := by
  apply h.cons hnew (emitAutoVarDecl_cleanup hemit) (fun hreg => absurd hreg Bool.false_ne_true)
  exact h.registers.congr fun a v => (live_cons_of_not rfl a v).symm

/-- The cleanup of a normal exit. -/
theorem runCleanup_normal (h : StackInv cfg root (o :: objects)) :
    ∃ root', runCleanup cfg .normal root o = some root' ∧ StackInv cfg root' objects := by
  have hrun : runCleanup cfg .normal root o =
      handleStackExit cfg.flags cfg.malloc o.address root := by
    unfold runCleanup
    rw [h.cleanups o List.mem_cons_self]
    exact if_pos rfl
  rw [hrun]
  cases hcheck : cfg.flags.noCheck with
  | true =>
    -- nothing has been registered
    have hreg : o.registered = false := by
      by_contra hreg
      rw [h.checked o List.mem_cons_self (by simpa using hreg)] at hcheck
      exact absurd hcheck (by decide)
    refine ⟨root, by simp [handleStackExit, hcheck], h.tail ?_⟩
    exact h.registers.congr (live_cons_of_not hreg)
  | false =>
    rcases handleStackExit_spec cfg.malloc hcheck o.address h.registers with ⟨root', hrun, hroot⟩
    refine ⟨root', hrun, h.tail (hroot.congr ?_)⟩
    intro a v
    rw [live_cons]
    by_cases ha : a = o.address
    · subst ha
      simp [h.not_live v]
    · simp [ha, Ne.symm ha]

/-- Unwinding does no harm to an object that is not registered. -/
theorem unwind (h : StackInv cfg root (o :: objects)) (hreg : o.registered = false) :
    StackInv cfg root objects :=
  h.tail (h.registers.congr (live_cons_of_not hreg))

/-- The cleanups of a scope, on a normal exit. -/
theorem runCleanups_normal (h : StackInv cfg root (scope ++ objects)) :
    ∃ root', scope.foldlM (runCleanup cfg .normal) root = some root' ∧
      StackInv cfg root' objects := by
  induction scope generalizing root with
  | nil => exact ⟨root, rfl, h⟩
  | cons o scope ih =>
    rcases h.runCleanup_normal with ⟨root₁, hrun, h₁⟩
    rcases ih h₁ with ⟨root', hruns, h'⟩
    refine ⟨root', ?_, h'⟩
    rw [List.foldlM_cons, hrun]
    exact hruns

theorem unwindAll (h : StackInv cfg root (scope ++ objects))
    (hreg : ∀ o ∈ scope, o.registered = false) : StackInv cfg root objects := by
  induction scope with
  | nil => exact h
  | cons o scope ih =>
    rcases List.forall_mem_cons.mp hreg with ⟨ho, hscope⟩
    exact ih (h.unwind ho) hscope

/-- A registered object that was left by unwinding is still in the tree. -/
theorem not_registers (h : StackInv cfg root (scope ++ objects)) (ho : o ∈ scope)
    (hreg : o.registered = true) : ¬ Registers root (Live objects) := by
  intro hrest
  have hlive : Live (scope ++ objects) o.address o.typeTable :=
    ⟨o, List.mem_append_left _ ho, hreg, rfl, rfl⟩
  rcases (h.registers.unique hrest _ _).mp hlive with ⟨o', ho', -, haddr, -⟩
  have hnodup := h.nodup
  rw [List.map_append, List.nodup_append] at hnodup
  exact hnodup.2.2 _ (List.mem_map_of_mem ho) _ (List.mem_map_of_mem ho') haddr.symm

end StackInv

/-! ## Whole executions -/

/-- The invariant of a thread's state. -/
def ThreadState.Inv (cfg : StackConfig) (s : ThreadState) : Prop := StackInv cfg s.root s.objects

variable {s : ThreadState}

/-- Leaving an object or a scope: the objects `left`, before `objects`. -/
theorem StackInv.leave (h : StackInv cfg root (scope ++ objects)) (how : Exit) :
    ∃ root', scope.foldlM (runCleanup cfg how) root = some root' ∧
      (how = .normal ∨ (∀ o ∈ scope, o.registered = false) → StackInv cfg root' objects) ∧
      (¬ (how = .normal ∨ ∀ o ∈ scope, o.registered = false) →
        ¬ Registers root' (Live objects)) := by
  cases how with
  | normal =>
    rcases h.runCleanups_normal with ⟨root', hrun, hinv⟩
    exact ⟨root', hrun, fun _ => hinv, fun hnot => absurd (Or.inl rfl) hnot⟩
  | unwinding =>
    have hcleanup : ∀ o ∈ scope, o.cleanup = .normalCleanup :=
      fun o ho => h.cleanups o (List.mem_append_left _ ho)
    refine ⟨root, runCleanups_unwinding hcleanup, ?_, ?_⟩
    · rintro (hhow | hreg)
      · exact absurd hhow (by decide)
      · exact h.unwindAll hreg
    · intro hnot
      rw [not_or] at hnot
      rcases hnot with ⟨-, hnot⟩
      simp only [not_forall, Bool.not_eq_false] at hnot
      rcases hnot with ⟨o, ho, hreg⟩
      exact h.not_registers ho hreg

theorem clean_of_unwound {ev : Event} (h : unwound s ev = []) : Clean s ev := by
  intro o ho
  rw [h] at ho
  exact absurd ho List.not_mem_nil

/-- Events that leave are clean if they leave normally, or no registered object. -/
theorem clean_leaveObject (how : Exit) :
    Clean s (.leaveObject how) ↔
      how = .normal ∨ ∀ o ∈ (s.scopes.headD []).take 1, o.registered = false := by
  cases how <;> simp [Clean, unwound]

theorem clean_leaveScope (how : Exit) :
    Clean s (.leaveScope how) ↔ how = .normal ∨ ∀ o ∈ s.scopes.headD [], o.registered = false := by
  cases how <;> simp [Clean, unwound]

/-- One event succeeds. It keeps the invariant if unwinding leaves no registered
object, and else the tree has more than the live objects. -/
theorem ThreadState.Inv.step (h : s.Inv cfg) {ev : Event} (hfresh : Fresh cfg s ev) :
    ∃ s', s.step cfg ev = some s' ∧ (Clean s ev → s'.Inv cfg) ∧ (¬ Clean s ev → ¬ s'.Matches) := by
  rcases s with ⟨root, scopes⟩
  cases ev with
  | enterScope =>
    have hclean : Clean ⟨root, scopes⟩ .enterScope := clean_of_unwound rfl
    exact ⟨⟨root, [] :: scopes⟩, rfl, fun _ => h, (absurd hclean ·)⟩
  | declare D address =>
    have hclean : Clean ⟨root, scopes⟩ (.declare D address) := clean_of_unwound rfl
    -- a variable without hooks is not registered
    cases hemit : emitAutoVarDecl cfg D with
    | none => exact ⟨⟨root, scopes⟩, by simp [step, hemit], fun _ => h, (absurd hclean ·)⟩
    | some hooks =>
      obtain ⟨root', hrun, hinv⟩ := StackInv.declare h hemit (hfresh (by simp [hemit]))
      refine ⟨_, by simp [step, hemit, hrun]; rfl, fun _ => ?_, (absurd hclean ·)⟩
      unfold Inv objects
      rw [flatten_declareIn]
      exact hinv
  | jumpPast D address =>
    have hclean : Clean ⟨root, scopes⟩ (.jumpPast D address) := clean_of_unwound rfl
    cases hemit : emitAutoVarDecl cfg D with
    | none => exact ⟨⟨root, scopes⟩, by simp [step, hemit], fun _ => h, (absurd hclean ·)⟩
    | some hooks =>
      refine ⟨_, by simp [step, hemit]; rfl, fun _ => ?_, (absurd hclean ·)⟩
      unfold Inv objects
      rw [flatten_declareIn]
      exact StackInv.jumpPast h hemit (hfresh (by simp [hemit]))
  | leaveObject how =>
    rw [clean_leaveObject]
    -- objects leave in the order in which their cleanups are run
    match scopes with
    | [] => exact ⟨⟨root, []⟩, rfl, fun _ => h, by simp⟩
    | [] :: scopes => exact ⟨⟨root, [] :: scopes⟩, rfl, fun _ => h, by simp⟩
    | (o :: scope) :: scopes =>
      have hobjects : StackInv cfg root ([o] ++ (scope :: scopes).flatten) := h
      rcases hobjects.leave how with ⟨root', hrun, hinv, hnot⟩
      simp only [List.foldlM_cons, List.foldlM_nil, bind_pure] at hrun
      exact ⟨⟨root', scope :: scopes⟩, by simp [step, hrun], hinv, hnot⟩
  | leaveScope how =>
    rw [clean_leaveScope]
    match scopes with
    | [] => exact ⟨⟨root, []⟩, rfl, fun _ => h, by simp⟩
    | scope :: scopes =>
      have hobjects : StackInv cfg root (scope ++ scopes.flatten) := h
      rcases hobjects.leave how with ⟨root', hrun, hinv, hnot⟩
      exact ⟨⟨root', scopes⟩, by simp [step, hrun], hinv, hnot⟩

/-- Executions from a state with the invariant. -/
theorem ThreadState.Inv.run (h : s.Inv cfg) {es : List Event}
    (hfresh : Along cfg (Fresh cfg) s es) :
    (∀ pre, pre <+: es → ∃ s', s.run cfg pre = some s' ∧ s'.Matches) ↔
      Along cfg (fun s ev => Clean s ev) s es := by
  induction es generalizing s with
  | nil =>
    refine iff_of_true ?_ trivial
    intro pre hpre
    rw [List.prefix_nil] at hpre
    exact ⟨s, by rw [hpre]; rfl, h.registers⟩
  | cons ev es ih =>
    rcases hfresh with ⟨hev, hrest⟩
    rcases h.step hev with ⟨s₁, hstep, hkeep, hbreak⟩
    have hrun : ∀ pre, s.run cfg (ev :: pre) = s₁.run cfg pre := by
      intro pre
      unfold ThreadState.run
      rw [List.foldlM_cons, hstep]
      rfl
    constructor
    · intro hall
      -- the state after this event matches, so the event is clean
      have hclean : Clean s ev := by
        by_contra hnot
        obtain ⟨s', hs', hmatches⟩ := hall [ev] (by simp)
        rw [hrun, ThreadState.run, List.foldlM_nil] at hs'
        cases hs'
        exact hbreak hnot hmatches
      refine ⟨hclean, ?_⟩
      intro s' hs'
      rw [hstep] at hs'
      cases hs'
      refine (ih (hkeep hclean) (hrest s₁ hstep)).mp ?_
      intro pre hpre
      rw [← hrun]
      exact hall (ev :: pre) (List.cons_prefix_cons.mpr ⟨rfl, hpre⟩)
    · rintro ⟨hclean, hall⟩ pre hpre
      rcases List.prefix_cons_iff.mp hpre with rfl | ⟨pre', rfl, hpre'⟩
      · exact ⟨s, rfl, h.registers⟩
      · rw [hrun]
        exact (ih (hkeep hclean) (hrest s₁ hstep)).mpr (hall s₁ hstep) pre' hpre'

/-- In all states that an execution reaches, the tree has the registered objects
of the active scopes and no others, exactly if no registered object is left by
unwinding. -/
theorem registry_matches_iff (cfg : StackConfig) (h : Heap Node) (x : Execution cfg h) :
    (∀ pre, pre <+: x.events → ∃ s, (ThreadState.start h).run cfg pre = some s ∧ s.Matches) ↔
      Along cfg Clean (ThreadState.start h) x.events := by
  have hinv : (ThreadState.start h).Inv cfg := StackInv.start h
  exact hinv.run x.fresh

/-- Full instrumentation. -/
def plainStack : StackConfig := ⟨true, true, fun _ => false, {}, Malloc.bump⟩

/-- `struct S { long x; }; S s;` with its type table at `0x400000`. -/
def plainLocal : AutoVarDecl :=
  ⟨false, false, 8, some ⟨true, false, some 0x400000, "_ZTI1S"⟩⟩

/-- A scope with one object, left by an exception. -/
def unwoundScope : Execution plainStack Heap.empty where
  events := [.enterScope, .declare plainLocal 0x7ffe0010, .leaveScope .unwinding]
  fresh := by
    refine ⟨trivial, ?_⟩
    intro s hs
    cases hs
    refine ⟨?_, fun _ _ => ⟨trivial, fun _ _ => trivial⟩⟩
    intro _ o ho
    exact absurd ho List.not_mem_nil

/-- The object of the unwound scope stays in the tree. -/
theorem unwound_entry_remains :
    ∃ s, (ThreadState.start Heap.empty).run plainStack unwoundScope.events = some s ∧
      s.scopes = [] ∧ Registers s.root (fun a v => a = 0x7ffe0010 ∧ v = 0x400000) ∧
      ¬ s.Matches := by
  have hemit : emitAutoVarDecl plainStack plainLocal = some ⟨0x400000, 8, .normalCleanup⟩ := rfl
  have hstart : StackInv plainStack (some (rbtreeCreate Heap.empty)) [] := StackInv.start Heap.empty
  have hnew : ∀ o ∈ ([] : List StackObject), o.address ≠ 0x7ffe0010 := by simp
  rcases hstart.declare hemit hnew with ⟨root, hrun, hinv⟩
  refine ⟨⟨root, []⟩, ?_, rfl, ?_, ?_⟩
  · simp only [ThreadState.run, unwoundScope, ThreadState.start, List.foldlM_cons, List.foldlM_nil,
      ThreadState.step, hemit, declareIn]
    simp [hrun, runCleanup_unwinding]
  · apply hinv.registers.congr
    intro a v
    rw [live_cons]
    constructor
    · rintro (⟨-, ha, hv⟩ | ⟨o, ho, -⟩)
      · exact ⟨ha.symm, hv.symm⟩
      · exact absurd ho List.not_mem_nil
    · rintro ⟨rfl, rfl⟩
      exact Or.inl ⟨rfl, rfl, rfl⟩
  · -- all objects of the state after the declaration are unwound
    rw [← List.append_nil [_]] at hinv
    exact hinv.not_registers List.mem_cons_self rfl

end Caver.CodeGen
