import Caver.Passes.PruneStack
import Caver.Runtime.CastTransparency
import Caver.Runtime.Variables

/-!
# Caver.Passes.PrunedRuns — what the pruned program answers

A thread executes the functions of a module, and calls the hooks that are in their
bodies. The outside of the module calls hooks, too.

* `Execution M`: calls and returns along the call graph. Objects are entered and exited
  by the function that they are local to, and no two of them overlap.
* `Thread.run`: the verdicts of the casts, with the thread's tree and the verdict cache.
* `prune_preserves_verdicts_iff`: the verdicts are the same exactly if nothing unknown
  can be reached from what the pass prunes.
-/

namespace Caver.Passes

open Relation Caver.Core Caver.Runtime Caver.Sanitizer

/-! ## Threads -/

/-- A cast, and what it reads besides the tree of the thread. -/
structure StackCast where
  data : CastHookArgs
  beforePtr : Uptr
  afterPtr : Uptr
  stackBottom : Uptr
  stackTop : Uptr
  heap : HeapState
  globals : RbTree

/-- What a thread does; `none` is a function outside of the module. -/
inductive Action where
  | call (n : Option String)
  | ret
  | enter (v : Var)
  | exit (v : Var)
  | cast (c : StackCast)

/-- A thread: the active functions, its tree, the verdict cache and the verdicts so far. -/
structure Thread where
  functions : List (Option String)
  root : Option RbTree
  cache : Cache
  verdicts : List Verdict

/-- The function that is active has a call of the hook. -/
def hasHook (M : Module) (hook : String) : List (Option String) → Bool
  | some f :: _ => (M.body f).contains ⟨true, some hook⟩
  | _ => true

def StackCast.withTree (c : StackCast) (root : Option RbTree) : Cast :=
  ⟨⟨some ⟨c.stackBottom, c.stackTop, root⟩, c.heap, c.globals⟩, c.data, c.beforePtr, c.afterPtr⟩

def Thread.step (cfg : CastConfig) (malloc : Malloc) (M : Module) (t : Thread) :
    Action → Option Thread
  | .call n => some { t with functions := n :: t.functions }
  | .ret => some { t with functions := t.functions.tail }
  | .enter v =>
    if hasHook M sStackEnter t.functions then do
      let root ← handleStackEnter cfg.flags malloc v.typeTable v.address v.allocSize t.root
      return { t with root := root }
    else some t
  | .exit v =>
    if hasHook M sStackExit t.functions then do
      let root ← handleStackExit cfg.flags malloc v.address t.root
      return { t with root := root }
    else some t
  | .cast c => do
    let (verdict, cache) ← (c.withTree t.root).run cfg t.cache
    return { t with cache := cache, verdicts := verdict :: t.verdicts }

def Thread.run (cfg : CastConfig) (malloc : Malloc) (M : Module) (t : Thread)
    (as : List Action) : Option Thread :=
  as.foldlM (Thread.step cfg malloc M) t

/-- A thread that starts in the function, with no object. -/
def Thread.start (n : Option String) (h : Heap Node) (cache : Cache) : Thread :=
  ⟨[n], some (rbtreeCreate h), cache, []⟩

/-! ## Executions -/

/-- An active function with its objects. -/
structure Frame where
  function : Option String
  objects : List Var

/-- The objects of all active functions. -/
def objects (st : List Frame) : List Var := st.flatMap (·.objects)

/-- One action of a thread that executes the module. Before a function returns it has
exited its objects. -/
inductive Executes (M : Module) : List Frame → Action → List Frame → Prop
  | call {fr : Frame} {st : List Frame} {n : Option String} : Calls M fr.function n →
      Executes M (fr :: st) (.call n) (⟨n, []⟩ :: fr :: st)
  | ret {n : Option String} {st : List Frame} : Executes M (⟨n, []⟩ :: st) .ret st
  | enter {n : Option String} {vs : List Var} {st : List Frame} {v : Var} :
      hasHook M sStackEnter [n] = true → v.Ok →
      (∀ v' ∈ objects (⟨n, vs⟩ :: st), v.Apart v') →
      Executes M (⟨n, vs⟩ :: st) (.enter v) (⟨n, v :: vs⟩ :: st)
  | exit {n : Option String} {vs : List Var} {st : List Frame} {v : Var} :
      hasHook M sStackExit [n] = true → v ∈ vs →
      Executes M (⟨n, vs⟩ :: st) (.exit v) (⟨n, vs.erase v⟩ :: st)
  | cast {n : Option String} {vs : List Var} {st : List Frame} (c : StackCast) :
      CallsCast M n → Executes M (⟨n, vs⟩ :: st) (.cast c) (⟨n, vs⟩ :: st)

inductive Execution (M : Module) : List Frame → List Action → Prop
  | nil (st : List Frame) : Execution M st []
  | cons {st st' : List Frame} {a : Action} {as : List Action} : Executes M st a st' →
      Execution M st' as → Execution M st (a :: as)

/-! ## The active functions -/

variable {M : Module} {fs : List String} {cfg : CastConfig} {malloc : Malloc}
  {vs : List Var} {v : Var} {st st' : List Frame} {t t' : Thread} {n : Option String}
  {r r' : RbTree}

/-- A cast reads no more of the tree than lookups. -/
theorem run_congr (hr : HoldsVars r vs) (hr' : HoldsVars r' vs) (c : StackCast)
    (cache : Cache) :
    (c.withTree (some r)).run cfg cache = (c.withTree (some r')).run cfg cache := by
  have hlocated : (c.withTree (some r)).located cfg = (c.withTree (some r')).located cfg := by
    unfold Cast.located StackCast.withTree locate
    dsimp only
    by_cases haddr : ThreadStack.addrIsInStack ⟨c.stackBottom, c.stackTop, some r⟩
        c.beforePtr = true
    · have haddr' : ThreadStack.addrIsInStack ⟨c.stackBottom, c.stackTop, some r'⟩
          c.beforePtr = true := haddr
      simp only [Option.filter_some, haddr, haddr', if_true, locateStack]
      cases cfg.flags.noStack with
      | true => rfl
      | false => simp only [hr.lookup_congr hr']
    · have haddr' : ¬ ThreadStack.addrIsInStack ⟨c.stackBottom, c.stackTop, some r'⟩
          c.beforePtr = true := haddr
      simp only [Option.filter_some, if_neg haddr, if_neg haddr']
  rw [Cast.run_eq, Cast.run_eq, hlocated]
  rfl

/-- The pass erases the hooks of the function. -/
def erased (fs : List String) (n : Option String) : Bool := n.any fs.contains

/-- The objects of the functions that keep their hooks. -/
def kept (fs : List String) (st : List Frame) : List Var :=
  objects (st.filter fun fr => !erased fs fr.function)

theorem objects_cons (fr : Frame) (st : List Frame) :
    objects (fr :: st) = fr.objects ++ objects st := rfl

theorem kept_cons_erased (h : erased fs n = true) (vs : List Var) (st : List Frame) :
    kept fs (⟨n, vs⟩ :: st) = kept fs st := by
  simp [kept, h]

theorem kept_cons (h : erased fs n = false) (vs : List Var) (st : List Frame) :
    kept fs (⟨n, vs⟩ :: st) = vs ++ kept fs st := by
  simp [kept, h, objects_cons]

theorem kept_sublist (fs : List String) (st : List Frame) :
    (kept fs st).Sublist (objects st) := by
  induction st with
  | nil => exact List.Sublist.slnil
  | cons fr st ih =>
    rcases fr with ⟨n, vs⟩
    rw [objects_cons]
    cases h : erased fs n with
    | true =>
      rw [kept_cons_erased h]
      exact ih.trans (List.sublist_append_right vs _)
    | false =>
      rw [kept_cons h]
      exact ih.append_left vs

theorem kept_eq (h : ∀ fr ∈ st, fr.objects ≠ [] → erased fs fr.function = false) :
    kept fs st = objects st := by
  induction st with
  | nil => rfl
  | cons fr st ih =>
    rcases fr with ⟨n, vs⟩
    rw [List.forall_mem_cons] at h
    rw [objects_cons, ← ih h.2]
    cases hn : erased fs n with
    | true =>
      have hnil : vs = [] := by
        by_contra hvs
        exact absurd (h.1 hvs) (by simp [hn])
      rw [kept_cons_erased hn, hnil]
      rfl
    | false => exact kept_cons hn vs st

/-- Each active function is called by the one below it, has a call of the hook if it has
an object, and the objects are in place. -/
structure StackOk (M : Module) (st : List Frame) : Prop where
  chain : (st.map (·.function)).IsChain fun n m => Calls M m n
  entered : ∀ fr ∈ st, fr.objects ≠ [] → hasHook M sStackEnter [fr.function] = true
  vars : VarsOk (objects st)

/-- The function on top is entered from all the others. -/
theorem reaches_top {ns : List (Option String)} {m : Option String}
    (h : (n :: ns).IsChain fun n m => Calls M m n) (hm : m ∈ n :: ns) :
    ReflTransGen (Calls M) m n := by
  induction ns generalizing n with
  | nil =>
    rw [List.mem_singleton] at hm
    rw [hm]
  | cons k ns ih =>
    rw [List.isChain_cons_cons] at h
    rcases List.mem_cons.mp hm with rfl | hm
    · exact ReflTransGen.refl
    · exact (ih h.2 hm).tail h.1

theorem objects_enter (n : Option String) (v : Var) (vs : List Var)
    (st : List Frame) : objects (⟨n, v :: vs⟩ :: st) = v :: objects (⟨n, vs⟩ :: st) := rfl

theorem objects_erase (hv : v ∈ vs) :
    objects (⟨n, vs.erase v⟩ :: st) = (objects (⟨n, vs⟩ :: st)).erase v := by
  rw [objects_cons, objects_cons, List.erase_append_left _ hv]

/-- A step keeps the stack in order. -/
theorem StackOk.step {a : Action} (h : StackOk M st) (hstep : Executes M st a st') :
    StackOk M st' := by
  cases hstep with
  | call hcall =>
    refine ⟨List.isChain_cons_cons.mpr ⟨hcall, h.chain⟩, ?_, h.vars⟩
    exact List.forall_mem_cons.mpr ⟨fun hnil => absurd rfl hnil, h.entered⟩
  | ret => exact ⟨h.chain.tail, (List.forall_mem_cons.mp h.entered).2, h.vars⟩
  | enter hhook hok hapart =>
    refine ⟨h.chain, ?_, ?_⟩
    · exact List.forall_mem_cons.mpr ⟨fun _ => hhook, (List.forall_mem_cons.mp h.entered).2⟩
    · rw [objects_enter]
      exact h.vars.cons hok hapart
  | exit _ hv =>
    have hentered := List.forall_mem_cons.mp h.entered
    refine ⟨h.chain, ?_, ?_⟩
    · exact List.forall_mem_cons.mpr ⟨fun _ => hentered.1 (List.ne_nil_of_mem hv), hentered.2⟩
    · rw [objects_erase hv]
      exact h.vars.sublist List.erase_sublist
  | cast => exact h

/-- While a cast is made, no function with an object is active whose hooks are erased. -/
theorem not_erased_of_cast
    (hfs : ∀ f ∈ fs, ⟨true, some sStackEnter⟩ ∈ M.body f → ¬ MayCast M f) {fr : Frame}
    (h : StackOk M (fr :: st)) (hcast : CallsCast M fr.function) :
    ∀ fr' ∈ fr :: st, fr'.objects ≠ [] → erased fs fr'.function = false := by
  intro fr' hfr' hobjects
  have hreach := reaches_top h.chain (List.mem_map_of_mem (f := fun x => x.function) hfr')
  have hhook := h.entered fr' hfr' hobjects
  cases hf : fr'.function with
  | none => rfl
  | some f =>
    rw [hf] at hreach hhook
    by_contra hmem
    refine hfs f ?_ ?_ ⟨_, hreach, hcast⟩
    · simpa [erased] using hmem
    · simpa [hasHook] using hhook

/-! ## The two programs -/

/-- Erasing takes both hooks from the functions of `fs`, and none from the others. -/
theorem hasHook_erase {hook : String} (hhook : hook = sStackEnter ∨ hook = sStackExit)
    (n : Option String) (ns : List (Option String)) :
    hasHook (M.erase fs) hook (n :: ns) = (hasHook M hook [n] && !erased fs n) := by
  cases n with
  | none => rfl
  | some f =>
    have hcall : isStackCall ⟨true, some hook⟩ = true := by
      rcases hhook with rfl | rfl
      · rfl
      · rfl
    show ((M.erase fs).body f).contains _ = ((M.body f).contains _ && !fs.contains f)
    rw [M.body_erase]
    by_cases hf : f ∈ fs
    · simp [hf, eraseStackCalls, hcall]
    · simp [hf]

/-- The threads of a program and of what the pass makes of it. -/
structure Sim (cfg : CastConfig) (fs : List String) (st : List Frame) (t t' : Thread) : Prop where
  functions : t.functions = st.map (·.function)
  functions' : t'.functions = st.map (·.function)
  cache : t'.cache = t.cache
  verdicts : t'.verdicts = t.verdicts
  tree : ThreadHolds cfg.flags t.root (objects st)
  tree' : ThreadHolds cfg.flags t'.root (kept fs st)

/-- An object of a function that keeps its hooks is entered in both, another one in the
unpruned program. -/
theorem Sim.enter (hsim : Sim cfg fs (⟨n, vs⟩ :: st) t t')
    (hhook : hasHook M sStackEnter [n] = true) (hvars : VarsOk (v :: objects (⟨n, vs⟩ :: st))) :
    ∃ u u', t.step cfg malloc M (.enter v) = some u ∧
      t'.step cfg malloc (M.erase fs) (.enter v) = some u' ∧
      Sim cfg fs (⟨n, v :: vs⟩ :: st) u u' := by
  have hhook₁ : hasHook M sStackEnter t.functions = true := by
    rw [hsim.functions, ← hhook]
    cases n <;> rfl
  have hhook₂ : hasHook (M.erase fs) sStackEnter t'.functions = !erased fs n := by
    rw [hsim.functions', List.map_cons, hasHook_erase (Or.inl rfl), hhook, Bool.true_and]
  rcases handleStackEnter_holds malloc hsim.tree hvars with ⟨root, hrun, hroot⟩
  have hleft : t.step cfg malloc M (.enter v) = some { t with root := root } := by
    simp [Thread.step, hhook₁, hrun]
  cases hn : erased fs n with
  | true =>
    refine ⟨_, t', hleft, by simp [Thread.step, hhook₂, hn], ?_⟩
    have hkept := hsim.tree'
    rw [kept_cons_erased hn, ← kept_cons_erased hn (v :: vs) st] at hkept
    exact ⟨hsim.functions, hsim.functions', hsim.cache, hsim.verdicts, hroot, hkept⟩
  | false =>
    have hvars' := hvars.sublist ((kept_sublist fs (⟨n, vs⟩ :: st)).cons_cons v)
    rcases handleStackEnter_holds malloc hsim.tree' hvars' with ⟨root', hrun', hroot'⟩
    refine ⟨_, { t' with root := root' }, hleft, by simp [Thread.step, hhook₂, hn, hrun'], ?_⟩
    rw [kept_cons hn, ← List.cons_append, ← kept_cons hn] at hroot'
    exact ⟨hsim.functions, hsim.functions', hsim.cache, hsim.verdicts, hroot, hroot'⟩

/-- The same for an object that is exited. -/
theorem Sim.exit (hsim : Sim cfg fs (⟨n, vs⟩ :: st) t t')
    (hhook : hasHook M sStackExit [n] = true) (hv : v ∈ vs) :
    ∃ u u', t.step cfg malloc M (.exit v) = some u ∧
      t'.step cfg malloc (M.erase fs) (.exit v) = some u' ∧
      Sim cfg fs (⟨n, vs.erase v⟩ :: st) u u' := by
  have hhook₁ : hasHook M sStackExit t.functions = true := by
    rw [hsim.functions, ← hhook]
    cases n <;> rfl
  have hhook₂ : hasHook (M.erase fs) sStackExit t'.functions = !erased fs n := by
    rw [hsim.functions', List.map_cons, hasHook_erase (Or.inr rfl), hhook, Bool.true_and]
  have hmem : v ∈ objects (⟨n, vs⟩ :: st) := List.mem_append_left _ hv
  rcases handleStackExit_holds malloc hsim.tree hmem with ⟨root, hrun, hroot⟩
  rw [← objects_erase hv] at hroot
  have hleft : t.step cfg malloc M (.exit v) = some { t with root := root } := by
    simp [Thread.step, hhook₁, hrun]
  cases hn : erased fs n with
  | true =>
    refine ⟨_, t', hleft, by simp [Thread.step, hhook₂, hn], ?_⟩
    have hkept := hsim.tree'
    rw [kept_cons_erased hn, ← kept_cons_erased hn (vs.erase v) st] at hkept
    exact ⟨hsim.functions, hsim.functions', hsim.cache, hsim.verdicts, hroot, hkept⟩
  | false =>
    have hmem' : v ∈ kept fs (⟨n, vs⟩ :: st) := by
      rw [kept_cons hn]
      exact List.mem_append_left _ hv
    rcases handleStackExit_holds malloc hsim.tree' hmem' with ⟨root', hrun', hroot'⟩
    refine ⟨_, { t' with root := root' }, hleft, by simp [Thread.step, hhook₂, hn, hrun'], ?_⟩
    rw [kept_cons hn, List.erase_append_left _ hv, ← kept_cons hn] at hroot'
    exact ⟨hsim.functions, hsim.functions', hsim.cache, hsim.verdicts, hroot, hroot'⟩

/-- A cast that has all objects in both trees gives one verdict. -/
theorem Sim.cast (hsim : Sim cfg fs st t t') (hall : kept fs st = objects st)
    (c : StackCast) :
    (c.withTree t.root).run cfg t.cache = (c.withTree t'.root).run cfg t'.cache := by
  rw [hsim.cache]
  have htree' := hsim.tree'
  rw [hall] at htree'
  rcases hsim.tree with hcheck | ⟨r, hroot, hr⟩
  · rw [Cast.run_eq, Cast.run_eq]
    simp only [Cast.located, hcheck, Bool.true_or, if_true, Option.bind_some]
  · rcases htree' with hcheck | ⟨r', hroot', hr'⟩
    · rw [Cast.run_eq, Cast.run_eq]
      simp only [Cast.located, hcheck, Bool.true_or, if_true, Option.bind_some]
    · rw [hroot, hroot']
      exact run_congr hr hr' c t.cache

/-- One step of both threads. -/
theorem Sim.step {a : Action} (malloc : Malloc)
    (hfs : ∀ f ∈ fs, ⟨true, some sStackEnter⟩ ∈ M.body f → ¬ MayCast M f) (hok : StackOk M st)
    (hsim : Sim cfg fs st t t') (hstep : Executes M st a st') :
    (t.step cfg malloc M a = none ∧ t'.step cfg malloc (M.erase fs) a = none) ∨
      ∃ u u', t.step cfg malloc M a = some u ∧ t'.step cfg malloc (M.erase fs) a = some u' ∧
        Sim cfg fs st' u u' := by
  have hok' := hok.step hstep
  cases hstep with
  | @call fr st n _ =>
    refine Or.inr ⟨_, _, rfl, rfl, ?_⟩
    -- a new frame has no objects, whether or not its hooks are left
    have hkept : kept fs (⟨n, []⟩ :: fr :: st) = kept fs (fr :: st) := by
      cases hn : erased fs n with
      | true => exact kept_cons_erased hn [] _
      | false => exact kept_cons hn [] _
    refine ⟨congrArg (n :: ·) hsim.functions, congrArg (n :: ·) hsim.functions', hsim.cache,
      hsim.verdicts, hsim.tree, ?_⟩
    rw [hkept]
    exact hsim.tree'
  | @ret n =>
    refine Or.inr ⟨_, _, rfl, rfl, ?_⟩
    have hkept : kept fs (⟨n, []⟩ :: st') = kept fs st' := by
      cases hn : erased fs n with
      | true => exact kept_cons_erased hn [] _
      | false => exact kept_cons hn [] _
    refine ⟨congrArg List.tail hsim.functions, congrArg List.tail hsim.functions', hsim.cache,
      hsim.verdicts, hsim.tree, ?_⟩
    rw [← hkept]
    exact hsim.tree'
  | enter hhook _ _ => exact Or.inr (hsim.enter hhook hok'.vars)
  | exit hhook hv => exact Or.inr (hsim.exit hhook hv)
  | cast c hcast =>
    -- no function on the stack has lost its hooks, so both trees are the same
    have hall := kept_eq (not_erased_of_cast hfs hok hcast)
    have hrun := hsim.cast hall c
    cases hcase : (c.withTree t.root).run cfg t.cache with
    | none =>
      rw [hcase] at hrun
      exact Or.inl ⟨by simp [Thread.step, hcase], by simp [Thread.step, ← hrun]⟩
    | some r =>
      rcases r with ⟨verdict, cache⟩
      rw [hcase] at hrun
      refine Or.inr ⟨_, _, by simp only [Thread.step, hcase]; rfl,
        by simp only [Thread.step, ← hrun]; rfl, ?_⟩
      exact ⟨hsim.functions, hsim.functions', rfl, congrArg (verdict :: ·) hsim.verdicts,
        hsim.tree, hsim.tree'⟩

/-- The whole executions. -/
theorem Sim.run {as : List Action}
    (hfs : ∀ f ∈ fs, ⟨true, some sStackEnter⟩ ∈ M.body f → ¬ MayCast M f)
    (hex : Execution M st as) (hok : StackOk M st) (hsim : Sim cfg fs st t t') :
    (t'.run cfg malloc (M.erase fs) as).map (·.verdicts) =
      (t.run cfg malloc M as).map (·.verdicts) := by
  induction hex generalizing t t' with
  | nil => exact congrArg some hsim.verdicts
  | cons hstep _ ih =>
    unfold Thread.run
    rw [List.foldlM_cons, List.foldlM_cons]
    rcases hsim.step malloc hfs hok hstep with ⟨hl, hr⟩ | ⟨u, u', hl, hr, hu⟩
    · rw [hl, hr]
      rfl
    · rw [hl, hr]
      exact ih (hok.step hstep) hu

/-- What is erased is not missed, if no cast is reached from it. -/
theorem erase_preserves_verdicts
    (hfs : ∀ f ∈ fs, ⟨true, some sStackEnter⟩ ∈ M.body f → ¬ MayCast M f) {as : List Action}
    (hex : Execution M [⟨n, []⟩] as) (h : Heap Node) (cache : Cache) :
    ((Thread.start n h cache).run cfg malloc (M.erase fs) as).map (·.verdicts) =
      ((Thread.start n h cache).run cfg malloc M as).map (·.verdicts) := by
  have hempty : kept fs [⟨n, []⟩] = [] := List.sublist_nil.mp (kept_sublist fs [⟨n, []⟩])
  refine Sim.run hfs hex ⟨List.isChain_singleton _, ?_, ?_⟩ ?_
  · intro fr hfr hobjects
    rw [List.mem_singleton.mp hfr] at hobjects
    exact absurd rfl hobjects
  · exact VarsOk.nil
  · refine ⟨rfl, rfl, rfl, rfl, ThreadHolds.create cfg.flags h, ?_⟩
    rw [hempty]
    exact ThreadHolds.create cfg.flags h

/-! ## What is missed otherwise -/

/-- A path of direct calls is an execution. -/
theorem execution_calls {f g : String} (hpath : ReflTransGen (DirectCall M) f g) :
    ∃ ns : List (Option String), ∀ as : List Action,
      (∀ vs st, Execution M (⟨some g, vs⟩ :: st) as) →
        ∀ vs st, Execution M (⟨some f, vs⟩ :: st) (ns.map .call ++ as) := by
  induction hpath using ReflTransGen.head_induction_on with
  | refl => exact ⟨[], fun as h => h⟩
  | @head f k hstep _ ih =>
    rcases ih with ⟨ns, hns⟩
    refine ⟨some k :: ns, fun as h vs st => ?_⟩
    exact .cons (.call (.direct hstep)) (hns as h [] _)

/-- Calls leave all but the active functions as it was. -/
theorem run_calls (cfg : CastConfig) (malloc : Malloc) (M : Module) (t : Thread)
    (ns : List (Option String)) (as : List Action) :
    t.run cfg malloc M (ns.map .call ++ as) =
      Thread.run cfg malloc M { t with functions := ns.reverse ++ t.functions } as := by
  induction ns generalizing t with
  | nil => rfl
  | cons n ns ih =>
    have hcons : t.run cfg malloc M ((n :: ns).map .call ++ as) =
        Thread.run cfg malloc M { t with functions := n :: t.functions } (ns.map .call ++ as) := rfl
    rw [hcons, ih]
    simp

/-- A `T` on the stack. -/
def missedVar : Var := ⟨0x7000, 0x500200, 4⟩

/-- `static_cast<U *>` of its address. -/
def missedCast : StackCast :=
  ⟨⟨"missed.cc", 0x500100, 0x2000⟩, 0x7000, 0x7000, 0x5000, 0x8000, smallHeap ⟨12, 0x500000, 0⟩,
    rbtreeCreate .empty⟩

/-- The cast is reported if the object is registered, and only then. -/
theorem missedCast_verdict :
    (handleStackEnter {} .bump missedVar.typeTable missedVar.address missedVar.allocSize
        (some (rbtreeCreate .empty))).bind (fun root =>
          ((missedCast.withTree root).run containerConfig Cache.empty).map (·.1)) =
      some ⟨unknownCastRet, some ⟨"missed.cc", "U", "T", 0x7000⟩⟩ ∧
    ((missedCast.withTree (some (rbtreeCreate .empty))).run containerConfig Cache.empty).map (·.1) =
      some ⟨unknownCastRet, none⟩ :=
  ⟨rfl, rfl⟩

theorem run_callback (cfg : CastConfig) (malloc : Malloc) (M : Module) (t : Thread)
    (c : StackCast) : (t.run cfg malloc M [.call none, .cast c]).map (·.verdicts) =
      (((c.withTree t.root).run cfg t.cache).map (·.1)).map (· :: t.verdicts) := by
  have hrun : t.run cfg malloc M [.call none, .cast c] =
      ((c.withTree t.root).run cfg t.cache).map fun r =>
        ⟨none :: t.functions, t.root, r.2, r.1 :: t.verdicts⟩ := by
    show (((c.withTree t.root).run cfg t.cache).bind _).bind _ = _
    cases (c.withTree t.root).run cfg t.cache with
    | none => rfl
    | some r => rfl
  rw [hrun, Option.map_map, Option.map_map]
  rfl

/-- What can be reached can cast the object, whose hook is erased: the report is missing. -/
theorem erase_misses {f : String} (hf : f ∈ fs)
    (hhook : ⟨true, some sStackEnter⟩ ∈ M.body f) (hunknown : ReachesUnknown M f) :
    ∃ as report, Execution M [⟨some f, []⟩] as ∧
      ((Thread.start (some f) .empty Cache.empty).run containerConfig .bump M as).map
          (·.verdicts) = some [⟨unknownCastRet, some report⟩] ∧
      ((Thread.start (some f) .empty Cache.empty).run containerConfig .bump (M.erase fs) as).map
          (·.verdicts) = some [⟨unknownCastRet, none⟩] := by
  rcases hunknown with ⟨g, hpath, hleave⟩
  rcases execution_calls hpath with ⟨ns, hns⟩
  have hhas : hasHook M sStackEnter [some f] = true := by simpa [hasHook] using hhook
  have herased : hasHook (M.erase fs) sStackEnter [some f] = false := by
    rw [hasHook_erase (Or.inl rfl)]
    simp [erased, hf]
  refine ⟨.enter missedVar :: (ns.map .call ++ [.call none, .cast missedCast]),
    ⟨"missed.cc", "U", "T", 0x7000⟩, ?_, ?_, ?_⟩
  · refine .cons (.enter hhas ⟨by decide, by decide⟩ fun v hv => absurd hv List.not_mem_nil)
      (hns _ (fun vs st => ?_) _ _)
    exact .cons (.call hleave) (.cons (.cast _ trivial) (.nil _))
  · -- the object is registered before the pass
    obtain ⟨root, henter, hreported⟩ := Option.bind_eq_some_iff.mp missedCast_verdict.1
    have hstep : (Thread.start (some f) .empty Cache.empty).step containerConfig .bump M
        (.enter missedVar) =
          some { Thread.start (some f) .empty Cache.empty with root := root } := by
      refine (if_pos hhas).trans ?_
      show Option.bind (handleStackEnter {} .bump missedVar.typeTable missedVar.address
        missedVar.allocSize (some (rbtreeCreate .empty))) _ = _
      rw [henter]
      rfl
    unfold Thread.run
    rw [List.foldlM_cons, hstep]
    show Option.map _ (Thread.run _ _ _ _ _) = _
    rw [run_calls, run_callback]
    show Option.map _ (Option.map _ ((missedCast.withTree root).run containerConfig
      Cache.empty)) = _
    rw [hreported]
    rfl
  · -- and it is not after it
    have hstep : (Thread.start (some f) .empty Cache.empty).step containerConfig .bump
        (M.erase fs) (.enter missedVar) = some (Thread.start (some f) .empty Cache.empty) :=
      if_neg (by simp [Thread.start, herased])
    unfold Thread.run
    rw [List.foldlM_cons, hstep]
    show Option.map _ (Thread.run _ _ _ _ _) = _
    rw [run_calls, run_callback]
    show Option.map _ (Option.map _ ((missedCast.withTree (some (rbtreeCreate .empty))).run
      containerConfig Cache.empty)) = _
    rw [missedCast_verdict.2]
    rfl

theorem runPass_disabled (M : Module) (sccs : List (List (Option String))) :
    runPass true M sccs = some M := by
  induction sccs with
  | nil => rfl
  | cons scc sccs ih =>
    rw [runPass] at ih ⊢
    rw [List.foldlM_cons]
    exact ih

/-- The pass changes no verdict of any execution exactly if nothing unknown can be reached
from a function whose object it does not register any more. From such a function an execution
reports a bad cast before the pass and not after it. -/
theorem prune_preserves_verdicts_iff (clDisable : Bool) (M : Module)
    (sccs : List (List (Option String))) :
    ∃ M', runPass clDisable M sccs = some M' ∧
      ((∀ (n : Option String) (cfg : CastConfig) (malloc : Malloc) (h : Heap Node)
          (cache : Cache) (as : List Action), Execution M [⟨n, []⟩] as →
          ((Thread.start n h cache).run cfg malloc M' as).map (·.verdicts) =
            ((Thread.start n h cache).run cfg malloc M as).map (·.verdicts)) ↔
        clDisable = true ∨ ∀ f, some f ∈ sccs.flatten → Prunable M f →
          ⟨true, some sStackEnter⟩ ∈ M.body f → ¬ ReachesUnknown M f) ∧
      (clDisable = false → ∀ f, some f ∈ sccs.flatten → Prunable M f →
        ⟨true, some sStackEnter⟩ ∈ M.body f → ReachesUnknown M f →
        ∃ cfg malloc h cache as report, Execution M [⟨some f, []⟩] as ∧
          ((Thread.start (some f) h cache).run cfg malloc M as).map (·.verdicts) =
            some [⟨unknownCastRet, some report⟩] ∧
          ((Thread.start (some f) h cache).run cfg malloc M' as).map (·.verdicts) =
            some [⟨unknownCastRet, none⟩]) := by
  cases clDisable with
  | true =>
    exact ⟨M, runPass_disabled M sccs, iff_of_true (fun _ _ _ _ _ _ _ => rfl) (Or.inl rfl),
      fun h => Bool.noConfusion h⟩
  | false =>
    rcases runPass_eq M sccs with ⟨fs, hrun, hfs⟩
    refine ⟨M.erase fs, hrun, ?_, ?_⟩
    · constructor
      · intro hall
        refine Or.inr fun f hf hprune hhook hunknown => ?_
        -- an execution that reports a bad cast only before the pass
        rcases erase_misses ((hfs f).mpr ⟨hf, hprune⟩) hhook hunknown with
          ⟨as, report, hex, hbefore, hafter⟩
        have hsame := hall (some f) containerConfig Malloc.bump Heap.empty Cache.empty as hex
        rw [hbefore, hafter] at hsame
        cases hsame
      · intro hknown n cfg malloc h cache as hex
        replace hknown := hknown.resolve_left Bool.false_ne_true
        refine erase_preserves_verdicts (fun f hf hhook hmay => ?_) hex h cache
        rcases (hfs f).mp hf with ⟨hscc, hprune⟩
        -- a pruned function that may cast reaches a cast or something unknown
        rcases (mayCast_iff M f).mp hmay with hcast | hunknown
        · exact hprune.2 hcast
        · exact hknown f hscc hprune hhook hunknown
    · intro _ f hf hprune hhook hunknown
      rcases erase_misses ((hfs f).mpr ⟨hf, hprune⟩) hhook hunknown with
        ⟨as, report, hex, hbefore, hafter⟩
      exact ⟨containerConfig, Malloc.bump, Heap.empty, Cache.empty, as, report, hex, hbefore,
        hafter⟩

end Caver.Passes
