import Caver.Runtime.HeapCast
import Caver.Runtime.Variables

/-!
# Caver.Runtime.ObjectStore — what the runtime knows of the program's objects

The whole runtime against a store of typed objects. Only the main thread has a
`CverThread`, and with it a tree.

* `Store`: the live objects of a program. `Store.Locates`: the object that a pointer
  is in, which is a block, a local variable of the main thread or a global one.
* `Runs`: what the program does, with the state of the runtime and the store.
* `runtime_locates`: a cast is judged against the object of the store.
-/

namespace Caver.Runtime

open Caver.Core Caver.Sanitizer

/-! ## The store -/

/-- The objects of a program. `mainStack` are the bounds of the main thread's stack
while that thread is known. -/
structure Store where
  blocks : Ledger
  mainStack : Option (Uptr × Uptr)
  locals : List Var
  globals : List Var

/-- What a cast learns of an object with a variable. -/
def Var.located (v : Var) : Option Located :=
  if v.typeTable = 0 then none else some ⟨v.typeTable, 0, 0, v.address⟩

/-- The main thread asks for an address of its stack. -/
def Store.OnStack (S : Store) (onMain : Bool) (p : Uptr) : Prop :=
  onMain = true ∧ ∃ b ∈ S.mainStack, b.1 ≤ p ∧ p < b.2

/-- What is known of the object that a pointer is in. Nothing is said of pointers into
chunks that have never been handed out. -/
inductive Store.Locates (S : Store) (flags : Flags) (onMain : Bool) (p : Uptr) :
    Option Located → Prop
  | onStack {v : Var} : S.OnStack onMain p → flags.noStack = false → v ∈ S.locals →
      v.Contains p → S.Locates flags onMain p v.located
  | noLocal : S.OnStack onMain p → (flags.noStack = false → ∀ v ∈ S.locals, ¬ v.Contains p) →
      S.Locates flags onMain p none
  | live {b : Uptr} {md : Metadata} : ¬ S.OnStack onMain p → pointerIsMine b = true →
      S.blocks b = .live md → InBlock b p → S.Locates flags onMain p (md.located b)
  | freed {b : Uptr} : ¬ S.OnStack onMain p → pointerIsMine b = true → S.blocks b = .freed →
      InBlock b p → S.Locates flags onMain p none
  | global {v : Var} : ¬ S.OnStack onMain p → pointerIsMine p = false →
      flags.noGlobal = false → v ∈ S.globals → v.Contains p → S.Locates flags onMain p v.located
  | noGlobal : ¬ S.OnStack onMain p → pointerIsMine p = false →
      (flags.noGlobal = false → ∀ v ∈ S.globals, ¬ v.Contains p) → S.Locates flags onMain p none

/-! ## The runtime -/

/-- The state of the runtime, verdict cache apart. -/
structure RuntimeState where
  heap : HeapState
  mainThread : Option ThreadStack
  globals : RbTree

/-- What a cast reads. `GetCurrentThread` is null in all threads but the main one. -/
def RuntimeState.objects (s : RuntimeState) (onMain : Bool) : Objects :=
  ⟨if onMain then s.mainThread else none, s.heap, s.globals⟩

/-- `destroy` is `CverThread::Destroy` of the main thread. -/
inductive Event where
  | heap (call : Call) (choice : Choice)
  | grow (c : ℕ)
  | write (a v : Uptr)
  | enter (onMain : Bool) (v : Var)
  | exit (onMain : Bool) (v : Var)
  | globalVar (v : Var)
  | destroy

/-- A hook with the tree of the thread, as `GetCurrentThreadRbtreeRoot` finds it. -/
def RuntimeState.withTree (s : RuntimeState) (onMain : Bool)
    (hook : Option RbTree → Option (Option RbTree)) : Option RuntimeState :=
  match if onMain then s.mainThread else none with
  | none => (hook none).map fun _ => s
  | some t => (hook t.rbtreeRoot).map fun root =>
    { s with mainThread := some { t with rbtreeRoot := root } }

/-- The result of an event that gives none is null. -/
def RuntimeState.step (flags : Flags) (malloc : Malloc) (s : RuntimeState) :
    Event → Option (Uptr × RuntimeState)
  | .heap call choice => (call.run flags choice s.heap).map fun r => (r.1, { s with heap := r.2 })
  | .grow c => (populate c s.heap).map fun r => (0, { s with heap := r.2 })
  | .write a v => some (0, { s with heap := { s.heap with mem := Function.update s.heap.mem a v } })
  | .enter onMain v => (s.withTree onMain
      (handleStackEnter flags malloc v.typeTable v.address v.allocSize)).map fun s => (0, s)
  | .exit onMain v => (s.withTree onMain (handleStackExit flags malloc v.address)).map
      fun s => (0, s)
  | .globalVar v => (handleGlobalVar flags malloc v.address v.typeTable v.allocSize s.globals).map
      fun root => (0, { s with globals := root })
  | .destroy => some (0, { s with mainThread := none })

/-- The store after an event with the result `r`. -/
def Store.step (flags : Flags) (r : Uptr) (S : Store) : Event → Store
  | .heap call _ => { S with blocks := call.record flags S.blocks r }
  | .grow _ => S
  | .write _ _ => S
  | .enter onMain v => if onMain then { S with locals := v :: S.locals } else S
  | .exit onMain v => if onMain then { S with locals := S.locals.erase v } else S
  | .globalVar v => if v.address = 0 then S else { S with globals := v :: S.globals }
  | .destroy => { S with mainStack := none }

/-- What the program does not do: register a block that is not live, write to
metadata, have two variables in one place, or leave a variable it has not entered. -/
def Event.Ok (s : RuntimeState) (S : Store) : Event → Prop
  | .heap call _ => call.Ok S.blocks
  | .grow _ => True
  | .write a _ => ¬ InMeta s.heap.regions a
  | .enter onMain v => onMain = true → VarsOk (v :: S.locals)
  | .exit onMain v => onMain = true → v ∈ S.locals
  | .globalVar v => v.address ≠ 0 → VarsOk (v :: S.globals)
  | .destroy => True

/-- After `InitCverIfNecessary`. -/
def RuntimeState.init (mem : Uptr → Uptr) (mayReturnNull : Bool) (stack : Uptr × Uptr)
    (local_ global_ : Heap Node) : RuntimeState :=
  ⟨initialHeap mem mayReturnNull, some ⟨stack.1, stack.2, some (rbtreeCreate local_)⟩,
    rbtreeCreate global_⟩

/-- The states and stores of a program. -/
inductive Runs (flags : Flags) (malloc : Malloc) : RuntimeState → Store → Prop
  | init (mem : Uptr → Uptr) (mayReturnNull : Bool) (stack : Uptr × Uptr) (l g : Heap Node) :
      Runs flags malloc (.init mem mayReturnNull stack l g) ⟨fun _ => .never, some stack, [], []⟩
  | step {s s' : RuntimeState} {S : Store} {e : Event} {r : Uptr} : Runs flags malloc s S →
      e.Ok s S → s.step flags malloc e = some (r, s') → Runs flags malloc s' (S.step flags r e)

variable {flags : Flags} {malloc : Malloc} {s s' : RuntimeState} {S : Store} {e : Event}
  {onMain : Bool} {p r : Uptr} {o : Option Located}

/-! ## The runtime and the store -/

/-- The thread has the bounds and the objects of the store. -/
inductive MainAgrees (flags : Flags) : Option ThreadStack → Option (Uptr × Uptr) → List Var → Prop
  | gone (vs : List Var) : MainAgrees flags none none vs
  | alive {t : ThreadStack} {vs : List Var} : ThreadHolds flags t.rbtreeRoot vs →
      MainAgrees flags (some t) (some (t.stackBottom, t.stackTop)) vs

structure Agrees (flags : Flags) (s : RuntimeState) (S : Store) : Prop where
  heap : Inv s.heap S.blocks
  main : MainAgrees flags s.mainThread S.mainStack S.locals
  globals : GlobalHolds flags s.globals S.globals

theorem Agrees.init (flags : Flags) (mem : Uptr → Uptr) (mayReturnNull : Bool)
    (stack : Uptr × Uptr) (l g : Heap Node) :
    Agrees flags (.init mem mayReturnNull stack l g) ⟨fun _ => .never, some stack, [], []⟩ where
  heap := .initial mem mayReturnNull
  main := .alive (ThreadHolds.create flags l)
  globals := Or.inr (Or.inr (HoldsVars.create g))

/-- A hook that takes trees of some objects to trees of others does so with the thread's. -/
theorem Agrees.withTree (h : Agrees flags s S) (hook : Option RbTree → Option (Option RbTree))
    {vs : List Var} (hhook : ∀ root, ThreadHolds flags root S.locals →
      ∃ root', hook root = some root' ∧ ThreadHolds flags root' vs)
    (hnull : hook none = some none) :
    ∃ s', s.withTree true hook = some s' ∧ Agrees flags s' { S with locals := vs } := by
  have hmain := h.main
  unfold RuntimeState.withTree
  rw [if_pos rfl]
  generalize ht : s.mainThread = t at hmain
  generalize hb : S.mainStack = b at hmain
  cases hmain with
  | gone =>
    refine ⟨s, by simp [hnull], h.heap, ?_, h.globals⟩
    rw [ht]
    exact .gone vs
  | @alive t _ htree =>
    rcases hhook _ htree with ⟨root', hrun, hroot'⟩
    refine ⟨{ s with mainThread := some { t with rbtreeRoot := root' } }, by simp [hrun],
      h.heap, ?_, h.globals⟩
    exact .alive hroot'

/-- Other threads have no tree. -/
theorem withTree_other {hook : Option RbTree → Option (Option RbTree)}
    (hnull : hook none = some none) : s.withTree false hook = some s := by
  simp [RuntimeState.withTree, hnull]

theorem handleStackEnter_null (flags : Flags) (malloc : Malloc) (t p n : Uptr) :
    handleStackEnter flags malloc t p n none = some none := by
  unfold handleStackEnter
  split <;> rfl

theorem handleStackExit_null (flags : Flags) (malloc : Malloc) (p : Uptr) :
    handleStackExit flags malloc p none = some none := by
  unfold handleStackExit
  split <;> rfl

/-- The hooks of variables do not fail. -/
theorem Agrees.hook (h : Agrees flags s S) (hok : e.Ok s S)
    (he : (∃ onMain v, e = .enter onMain v ∨ e = .exit onMain v) ∨ ∃ v, e = .globalVar v) :
    ∃ s', s.step flags malloc e = some (0, s') ∧ Agrees flags s' (S.step flags 0 e) := by
  rcases he with ⟨onMain, v, rfl | rfl⟩ | ⟨v, rfl⟩
  · cases onMain with
    | true =>
      rcases h.withTree (handleStackEnter flags malloc v.typeTable v.address v.allocSize)
        (fun root hroot => handleStackEnter_holds malloc hroot (hok rfl))
        (handleStackEnter_null _ _ _ _ _) with ⟨s', hrun, hs'⟩
      exact ⟨s', by simp [RuntimeState.step, hrun], hs'⟩
    | false =>
      exact ⟨s, by simp [RuntimeState.step, withTree_other (handleStackEnter_null _ _ _ _ _)], h⟩
  · cases onMain with
    | true =>
      rcases h.withTree (handleStackExit flags malloc v.address)
        (fun root hroot => handleStackExit_holds malloc hroot (hok rfl))
        (handleStackExit_null _ _ _) with ⟨s', hrun, hs'⟩
      exact ⟨s', by simp [RuntimeState.step, hrun], hs'⟩
    | false =>
      exact ⟨s, by simp [RuntimeState.step, withTree_other (handleStackExit_null _ _ _)], h⟩
  · by_cases hv : v.address = 0
    · refine ⟨s, ?_, ?_⟩
      · simp [RuntimeState.step, handleGlobalVar, hv]
      · simpa [Store.step, hv] using h
    · rcases handleGlobalVar_holds malloc h.globals (hok hv) hv with ⟨root, hrun, hroot⟩
      refine ⟨{ s with globals := root }, by simp [RuntimeState.step, hrun], ?_⟩
      rw [Store.step, if_neg hv]
      exact ⟨h.heap, h.main, hroot⟩

/-- Every event keeps the runtime and the store in agreement. -/
theorem Agrees.step (h : Agrees flags s S) (hok : e.Ok s S)
    (hrun : s.step flags malloc e = some (r, s')) : Agrees flags s' (S.step flags r e) := by
  -- hooks return in every state, and only their trees change
  have hhook : ((∃ onMain v, e = .enter onMain v ∨ e = .exit onMain v) ∨ ∃ v, e = .globalVar v) →
      Agrees flags s' (S.step flags r e) := by
    intro he
    rcases h.hook hok he with ⟨s'', hrun', h'⟩
    rw [hrun, Option.some.injEq, Prod.mk.injEq] at hrun'
    rcases hrun' with ⟨rfl, rfl⟩
    exact h'
  cases e with
  | heap call choice =>
    simp only [RuntimeState.step, Option.map_eq_some_iff, Prod.mk.injEq] at hrun
    rcases hrun with ⟨⟨r, heap⟩, hcall, rfl, rfl⟩
    exact ⟨(h.heap.call hok choice).elim hcall, h.main, h.globals⟩
  | grow c =>
    simp only [RuntimeState.step, Option.map_eq_some_iff, Prod.mk.injEq] at hrun
    rcases hrun with ⟨⟨u, heap⟩, hgrow, rfl, rfl⟩
    exact ⟨(h.heap.populate c).elim hgrow, h.main, h.globals⟩
  | write a v =>
    simp only [RuntimeState.step, Option.some.injEq, Prod.mk.injEq] at hrun
    rcases hrun with ⟨rfl, rfl⟩
    refine ⟨h.heap.of_mem fun x hx => Function.update_of_ne ?_ _ _, h.main, h.globals⟩
    rintro rfl
    exact hok hx
  | enter onMain v => exact hhook (Or.inl ⟨onMain, v, Or.inl rfl⟩)
  | exit onMain v => exact hhook (Or.inl ⟨onMain, v, Or.inr rfl⟩)
  | globalVar v => exact hhook (Or.inr ⟨v, rfl⟩)
  | destroy =>
    simp only [RuntimeState.step, Option.some.injEq, Prod.mk.injEq] at hrun
    rcases hrun with ⟨rfl, rfl⟩
    exact ⟨h.heap, .gone _, h.globals⟩

theorem Runs.agrees (h : Runs flags malloc s S) : Agrees flags s S := by
  induction h with
  | init mem mayReturnNull stack l g => exact Agrees.init flags mem mayReturnNull stack l g
  | step _ hok hrun ih => exact ih.step hok hrun

/-! ## Casts -/

/-- The thread that a stack pointer is looked up in. -/
theorem Agrees.onStack (h : Agrees flags s S) (hp : S.OnStack onMain p) :
    ∃ t, (s.objects onMain).thread.filter (·.addrIsInStack p) = some t ∧
      ThreadHolds flags t.rbtreeRoot S.locals := by
  rcases hp with ⟨rfl, b, hb, hlo, hhi⟩
  have hmain := h.main
  rw [Option.mem_def.mp hb] at hmain
  unfold RuntimeState.objects
  rw [if_pos rfl]
  generalize ht : s.mainThread = t at hmain
  cases hmain with
  | @alive t _ htree =>
    refine ⟨t, ?_, htree⟩
    have hin : t.addrIsInStack p = true := by
      unfold ThreadStack.addrIsInStack
      rw [Bool.and_eq_true, decide_eq_true_eq, decide_eq_true_eq]
      exact ⟨hlo, hhi⟩
    rw [Option.filter_some, if_pos hin]

theorem Agrees.notOnStack (h : Agrees flags s S) (hp : ¬ S.OnStack onMain p) :
    NotOnStack (s.objects onMain) p := by
  intro t ht
  cases onMain with
  | false => exact absurd ht (by simp [RuntimeState.objects])
  | true =>
    replace ht : s.mainThread = some t := ht
    have hmain := h.main
    rw [ht] at hmain
    generalize hb : S.mainStack = b at hmain
    cases hmain with
    | alive =>
      by_contra hin
      rw [Bool.not_eq_false, ThreadStack.addrIsInStack, Bool.and_eq_true, decide_eq_true_eq,
        decide_eq_true_eq] at hin
      exact hp ⟨rfl, _, hb, hin⟩

/-- A block that has been given back is not known. -/
theorem Inv.locate_freed {h : HeapState} {l : Ledger} {b : Uptr} {o : Objects} (hinv : Inv h l)
    (hm : pointerIsMine b = true) (hl : l b = .freed) (ho : o.heap = h) (hp : InBlock b p)
    (hstack : NotOnStack o p) : Runtime.locate flags o p = some none := by
  have hblock := hinv.blocks b hm
  rw [hl] at hblock
  rcases hblock with ⟨c, i, hc, hb, hrec⟩
  rcases locateHeap_carved hinv.regions hc hb hp with ⟨hmine, hloc⟩
  rw [locate_mine hstack hmine, ho, hloc, Metadata.located, if_pos hrec]

theorem locate_globals {o : Objects} (hstack : NotOnStack o p) (hm : pointerIsMine p = false) :
    locate flags o p = if flags.noGlobal then some none else lookupObject o.globals p := by
  unfold locate
  simp only [hstack.filter, hm, Bool.false_eq_true, if_false]

theorem Agrees.locate (h : Agrees flags s S) (hcheck : flags.noCheck = false)
    (hl : S.Locates flags onMain p o) : Runtime.locate flags (s.objects onMain) p = some o := by
  cases hl with
  -- the tree of the main thread holds its local variables
  | onStack hp hstack hv hc =>
    rcases h.onStack hp with ⟨t, ht, htree⟩
    rcases htree.resolve_left (by simp [hcheck]) with ⟨r, hroot, hr⟩
    unfold Runtime.locate locateStack
    simp only [ht, hstack, hroot]
    exact hr.lookup hv hc
  | noLocal hp hnone =>
    rcases h.onStack hp with ⟨t, ht, htree⟩
    rcases htree.resolve_left (by simp [hcheck]) with ⟨r, hroot, hr⟩
    unfold Runtime.locate locateStack
    simp only [ht, hroot]
    cases hstack : flags.noStack with
    | true => rfl
    | false => exact hr.lookup_none (hnone hstack)
  | live hp hm hb hin => exact h.heap.locate hm hb rfl hin (h.notOnStack hp)
  | freed hp hm hb hin => exact h.heap.locate_freed hm hb rfl hin (h.notOnStack hp)
  | global hp hm hglobal hv hc =>
    have hr : HoldsVars s.globals S.globals :=
      (h.globals.resolve_left (by simp [hcheck])).resolve_left (by simp [hglobal])
    rw [locate_globals (h.notOnStack hp) hm, if_neg (by simp [hglobal])]
    exact hr.lookup hv hc
  | noGlobal hp hm hnone =>
    rw [locate_globals (h.notOnStack hp) hm]
    cases hglobal : flags.noGlobal with
    | true => rfl
    | false =>
      have hr : HoldsVars s.globals S.globals :=
        (h.globals.resolve_left (by simp [hcheck])).resolve_left (by simp [hglobal])
      exact hr.lookup_none (hnone hglobal)

/-- In every state that a run leads to, casts are judged against the objects of the
store, and the hooks of variables succeed. -/
theorem runtime_locates (h : Runs flags malloc s S) (hcheck : flags.noCheck = false) :
    (∀ onMain p o, S.Locates flags onMain p o →
      locate flags (s.objects onMain) p = some o) ∧
    ∀ e : Event, e.Ok s S →
      ((∃ onMain v, e = .enter onMain v ∨ e = .exit onMain v) ∨ ∃ v, e = .globalVar v) →
      ∃ s', s.step flags malloc e = some (0, s') ∧ Runs flags malloc s' (S.step flags 0 e) := by
  refine ⟨fun onMain p o hl => h.agrees.locate hcheck hl, fun e hok he => ?_⟩
  rcases h.agrees.hook hok he with ⟨s', hrun, -⟩
  exact ⟨s', hrun, h.step hok hrun⟩

/-- The start of a run, with the main thread's stack from 0x5000 to 0x8000. -/
theorem smallRun (flags : Flags) (malloc : Malloc) :
    Runs flags malloc (.init (fun _ => 0) false (0x5000, 0x8000) .empty .empty)
      ⟨fun _ => .never, some (0x5000, 0x8000), [], []⟩ :=
  .init _ _ _ _ _

/-- A local variable and a global one are registered; the main thread asks for both. -/
theorem runtime_locates_variables :
    ∃ s, Runs {} .bump s ⟨fun _ => .never, some (0x5000, 0x8000), [⟨0x7000, 0x500200, 4⟩],
        [⟨0x600000, 0x500100, 8⟩]⟩ ∧
      locate {} (s.objects true) 0x7002 = some (some ⟨0x500200, 0, 0, 0x7000⟩) ∧
      locate {} (s.objects false) 0x600004 = some (some ⟨0x500100, 0, 0, 0x600000⟩) := by
  have hvar : ∀ v : Var, v.Ok → VarsOk [v] := fun v hv =>
    VarsOk.nil.cons hv fun _ h => absurd h List.not_mem_nil
  rcases (runtime_locates (smallRun {} .bump) rfl).2 (.enter true ⟨0x7000, 0x500200, 4⟩)
    (fun _ => hvar _ ⟨by decide, by decide⟩) (Or.inl ⟨true, _, Or.inl rfl⟩) with ⟨s₁, -, h₁⟩
  rcases (runtime_locates h₁ rfl).2 (.globalVar ⟨0x600000, 0x500100, 8⟩)
    (fun _ => hvar _ ⟨by decide, by decide⟩) (Or.inr ⟨_, rfl⟩) with ⟨s₂, -, h₂⟩
  refine ⟨s₂, h₂, ?_, ?_⟩
  · have hin : (⟨0x7000, 0x500200, 4⟩ : Var).Contains 0x7002 := by decide
    exact (runtime_locates h₂ rfl).1 true 0x7002 _
      (.onStack ⟨rfl, _, rfl, by decide⟩ rfl List.mem_cons_self hin)
  · have hin : (⟨0x600000, 0x500100, 8⟩ : Var).Contains 0x600004 := by decide
    have hm : pointerIsMine 0x600004 = false := by decide
    exact (runtime_locates h₂ rfl).1 false 0x600004 _
      (.global (fun h => absurd h.1 (by decide)) hm rfl List.mem_cons_self hin)

end Caver.Runtime
