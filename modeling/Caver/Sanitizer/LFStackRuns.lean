import Caver.Sanitizer.LFStack

/-!
# Caver.Sanitizer.LFStackRuns — the stack under any interleaving

Any number of threads push and pop, and clients write to the nodes that they hold.

* `contents`: the abstract stack. A successful exchange pushes to it or pops from it.
* `CounterHolds`: no `Pop` sleeps while the counter goes all the way around. It is
  the one assumption, and the one that the counter is there for.
* `inv`: the nodes in memory are the abstract stack in every state of a run.
-/

namespace Caver.Sanitizer.LFStack

open Caver.Core

/-! ## What a step does -/

/-- A successful exchange. -/
inductive Event where
  | pushed (p : Uptr)
  | popped (p : Uptr)
deriving DecidableEq, Repr

/-- The effect of a step on the stack. -/
def event (s : State) (m : Move) : Option Event :=
  match s.pc m.thread with
  | .pushSwap p cmp => if s.swaps m cmp then some (.pushed p) else none
  | .popSwap cmp _ => if s.swaps m cmp then some (.popped (pointer cmp)) else none
  | _ => none

/-- The step loads the head. -/
def loads (s : State) (m : Move) : Bool :=
  match s.pc m.thread with
  | .pushLoad _ => true
  | .pushSwap _ cmp => !s.swaps m cmp
  | .popLoad => true
  | .popSwap cmp _ => !s.swaps m cmp
  | _ => false

namespace PC

/-- The node that is being pushed. -/
def node : PC → Option Uptr
  | pushLoad p => some p
  | pushLink p _ => some p
  | pushSwap p _ => some p
  | _ => none

/-- The head as the thread has loaded it. -/
def seen : PC → Option UInt64
  | pushLink _ cmp => some cmp
  | pushSwap _ cmp => some cmp
  | popNext cmp => some cmp
  | popSwap cmp _ => some cmp
  | _ => none

end PC

/-- All that a step can do. -/
inductive Moved (s : State) (m : Move) : Option Event → State → Prop
  /-- A call that its client may not make. -/
  | refused : s.pc m.thread = .idle → Moved s m none s
  | push (p : Uptr) : s.pc m.thread = .idle → p ∈ s.held →
      Moved s m none ({ s with held := s.held.erase p }.setPc m.thread (.pushLoad p))
  | store (p v : Uptr) : s.pc m.thread = .idle → p ∈ s.held →
      Moved s m none { s with next := Function.update s.next p v }
  | link (p : Uptr) (cmp : UInt64) : s.pc m.thread = .pushLink p cmp →
      Moved s m none ({ s with next := Function.update s.next p (pointer cmp) }.setPc m.thread
        (.pushSwap p cmp))
  /-- The head is loaded, for the first time or after a failure. -/
  | load (pc : PC) : loads s m = true → pc.seen = some s.head →
      pc.node = (s.pc m.thread).node → (∀ p cmp, pc ≠ .pushSwap p cmp) →
      (∀ cmp nxt, pc ≠ .popSwap cmp nxt) → Moved s m none (s.setPc m.thread pc)
  /-- A pop starts or ends. -/
  | outside (pc : PC) : (s.pc m.thread).node = none → loads s m = false → pc.node = none →
      pc.seen = none → Moved s m none (s.setPc m.thread pc)
  | read (cmp : UInt64) : s.pc m.thread = .popNext cmp → pointer cmp ≠ 0 →
      Moved s m none (s.setPc m.thread (.popSwap cmp (s.next (pointer cmp))))
  | pushed (p : Uptr) (cmp : UInt64) : s.pc m.thread = .pushSwap p cmp → s.swaps m cmp = true →
      Moved s m (some (.pushed p)) ({ s with head := pushWord p cmp }.setPc m.thread .idle)
  | popped (cmp : UInt64) (nxt : Uptr) : s.pc m.thread = .popSwap cmp nxt → s.swaps m cmp = true →
      Moved s m (some (.popped (pointer cmp)))
        ({ s with head := popWord nxt cmp, held := pointer cmp :: s.held }.setPc m.thread
          (.popped (pointer cmp)))

theorem swaps_head {s : State} {m : Move} {cmp : UInt64} (h : s.swaps m cmp = true) :
    s.head = cmp := by
  simp only [State.swaps, Bool.and_eq_true, beq_iff_eq] at h
  exact h.1

/-- A step that loads the head does not change it. -/
theorem event_of_loads {s : State} {m : Move} (h : loads s m = true) : event s m = none := by
  unfold loads at h
  unfold event
  cases hpc : s.pc m.thread with
  | pushSwap p cmp =>
    rw [hpc] at h
    have hno : s.swaps m cmp = false := (Bool.not_eq_true' _).mp h
    exact if_neg (ne_true_of_eq_false hno)
  | popSwap cmp nxt =>
    rw [hpc] at h
    have hno : s.swaps m cmp = false := (Bool.not_eq_true' _).mp h
    exact if_neg (ne_true_of_eq_false hno)
  | _ => rfl

theorem step_moved (s : State) (m : Move) : Moved s m (event s m) (step s m) := by
  unfold step event
  cases hpc : s.pc m.thread with
  | idle =>
    cases hcall : m.call with
    | push p =>
      by_cases hp : p ∈ s.held
      · simpa [State.call, hp] using Moved.push p hpc hp
      · simpa [State.call, hp] using Moved.refused hpc
    | pop => exact Moved.outside _ (by rw [hpc]; rfl) (by simp [loads, hpc]) rfl rfl
    | store p v =>
      by_cases hp : p ∈ s.held
      · simpa [State.call, hp] using Moved.store p v hpc hp
      · simpa [State.call, hp] using Moved.refused hpc
  | pushLoad p =>
    refine Moved.load _ (by simp [loads, hpc]) rfl (by rw [hpc]; rfl) ?_ ?_ <;> simp
  | pushLink p cmp => exact Moved.link p cmp hpc
  | pushSwap p cmp =>
    -- an exchange that fails loads the head again
    by_cases hs : s.swaps m cmp = true
    · simpa [hs] using Moved.pushed p cmp hpc hs
    · simp only [hs]
      refine Moved.load _ (by simp [loads, hpc, hs]) rfl (by rw [hpc]; rfl) ?_ ?_ <;> simp
  | popLoad => refine Moved.load _ (by simp [loads, hpc]) rfl (by rw [hpc]; rfl) ?_ ?_ <;> simp
  | popNext cmp =>
    by_cases hz : pointer cmp = 0
    · simpa [hz] using
        Moved.outside (.popped 0) (by rw [hpc]; rfl) (by simp [loads, hpc]) rfl rfl
    · simpa [hz] using Moved.read cmp hpc hz
  | popSwap cmp nxt =>
    by_cases hs : s.swaps m cmp = true
    · simpa [hs] using Moved.popped cmp nxt hpc hs
    · simp only [hs]
      refine Moved.load _ (by simp [loads, hpc, hs]) rfl (by rw [hpc]; rfl) ?_ ?_ <;> simp
  | popped cur => exact Moved.outside _ (by rw [hpc]; rfl) (by simp [loads, hpc]) rfl rfl

/-! ## Runs -/

section Runs

variable (N : Nodes) (next : Uptr → Uptr) (sched : ℕ → Move)

/-- The states of an interleaving. -/
def run (n : ℕ) : State := runFrom step (start N next) sched n

/-- The successful exchange of move `n`. -/
def eventAt (n : ℕ) : Option Event := event (run N next sched n) (sched n)

/-- What an event does to a stack. -/
def effect : Option Event → List Uptr → List Uptr
  | some (.pushed p), xs => p :: xs
  | some (.popped _), xs => xs.tail
  | none, xs => xs

/-- The abstract stack. -/
def contents : ℕ → List Uptr
  | 0 => []
  | n + 1 => effect (eventAt N next sched n) (contents n)

/-- Pushes are counted. -/
def tally : Option Event → ℕ → ℕ
  | some (.pushed _), k => k + 1
  | _, k => k

/-- The pushes that have succeeded. -/
def pushes : ℕ → ℕ
  | 0 => 0
  | n + 1 => tally (eventAt N next sched n) (pushes n)

/-- When the thread has loaded the head last. -/
def loadedAt (t n : ℕ) : ℕ :=
  latest (fun k => (sched k).thread == t && loads (run N next sched k) (sched k)) n

/-- Fewer than `2 ^ 17` pushes succeed between the load of a `Pop` and its exchange. -/
def CounterHolds : Prop :=
  ∀ n cmp nxt, (run N next sched n).pc (sched n).thread = .popSwap cmp nxt →
    pushes N next sched n < pushes N next sched (loadedAt N next sched (sched n).thread n) + 2 ^ 17

end Runs

variable {N : Nodes} {next : Uptr → Uptr} {sched : ℕ → Move} {s : State} {m : Move}
  {e : Option Event} {s' : State} {xs : List Uptr} {n t : ℕ} {cmp : UInt64}

theorem run_succ (n : ℕ) :
    run N next sched (n + 1) = step (run N next sched n) (sched n) := rfl

theorem run_succ_moved (N : Nodes) (next : Uptr → Uptr) (sched : ℕ → Move) (n : ℕ) :
    Moved (run N next sched n) (sched n) (eventAt N next sched n) (run N next sched (n + 1)) :=
  step_moved _ _

/-- A step of another thread leaves this one where it is. -/
theorem Moved.pc_ne (h : Moved s m e s') {u : ℕ} (hu : u ≠ m.thread) : s'.pc u = s.pc u := by
  cases h <;> simp [hu]

/-- What a thread has seen of the head, it sees now or has seen before. -/
theorem Moved.seen (h : Moved s m e s') (hseen : (s'.pc m.thread).seen = some cmp) :
    (loads s m = true ∧ cmp = s.head) ∨
      (loads s m = false ∧ (s.pc m.thread).seen = some cmp ∧ e = none) := by
  cases h with
  | refused hpc => simp [hpc, PC.seen] at hseen
  | push p hpc hp => simp [PC.seen] at hseen
  | store p v hpc hp =>
    have hnone : (s.pc m.thread).seen = some cmp := hseen
    simp [hpc, PC.seen] at hnone
  | link p cmp' hpc =>
    refine Or.inr ⟨by simp [loads, hpc], ?_, rfl⟩
    simpa [hpc, PC.seen] using hseen
  | load pc hl hpcseen _ _ _ =>
    refine Or.inl ⟨hl, ?_⟩
    rw [setPc_pc_self, hpcseen] at hseen
    exact (Option.some.inj hseen).symm
  | outside pc _ _ _ hpcseen =>
    rw [setPc_pc_self, hpcseen] at hseen
    exact absurd hseen (by simp)
  | read cmp' hpc hne =>
    refine Or.inr ⟨by simp [loads, hpc], ?_, rfl⟩
    simpa [hpc, PC.seen] using hseen
  | pushed p cmp' hpc hswap => simp [PC.seen] at hseen
  | popped cmp' nxt hpc hswap => simp [PC.seen] at hseen

/-! ## Loads -/

/-- A step of another thread, or one that loads nothing, does not count as a load. -/
theorem loadedAt_succ_of_ne (h : (sched n).thread ≠ t) :
    loadedAt N next sched t (n + 1) = loadedAt N next sched t n := by
  refine latest_succ_of_false ?_
  simp [h]

theorem loadedAt_succ_of_quiet (h : loads (run N next sched n) (sched n) = false) :
    loadedAt N next sched t (n + 1) = loadedAt N next sched t n := by
  refine latest_succ_of_false ?_
  simp [h]

theorem loadedAt_succ_of_loads (h : loads (run N next sched n) (sched n) = true) :
    loadedAt N next sched (sched n).thread (n + 1) = n := by
  refine latest_succ_of_true ?_
  simp [h]

theorem loadedAt_le (t n : ℕ) : loadedAt N next sched t n ≤ n := latest_le _ n

/-- What a thread has seen of the head is what was there at its last load. Since then
it has known that, and has not changed the stack. -/
theorem seen_loaded (h : ((run N next sched n).pc t).seen = some cmp) :
    cmp = (run N next sched (loadedAt N next sched t n)).head ∧
      (∀ k, loadedAt N next sched t n < k → k ≤ n →
        ((run N next sched k).pc t).seen = some cmp) ∧
      ∀ k, loadedAt N next sched t n ≤ k → k < n → (sched k).thread = t →
        eventAt N next sched k = none := by
  induction n with
  | zero => exact absurd h (by simp [run, runFrom, start, PC.seen])
  | succ n ih =>
    -- only the thread itself loads, and only its loads change what it has seen
    by_cases ht : (sched n).thread = t
    · subst ht
      rcases (run_succ_moved N next sched n).seen h with ⟨hl, hcmp⟩ | ⟨hq, hold, hnone⟩
      · rw [loadedAt_succ_of_loads hl]
        refine ⟨hcmp, fun k hk hkn => ?_, fun k hk hkn _ => ?_⟩
        · obtain rfl : k = n + 1 := by omega
          exact h
        · obtain rfl : k = n := by omega
          exact event_of_loads hl
      -- no load: the last one is still the last
      · rcases ih hold with ⟨hcmp, hknown, hev⟩
        rw [loadedAt_succ_of_quiet hq]
        refine ⟨hcmp, fun k hk hkn => ?_, fun k hk hkn hkt => ?_⟩
        · rcases Nat.le_succ_iff.mp hkn with hle | rfl
          · exact hknown k hk hle
          · exact h
        · rcases Nat.lt_succ_iff_lt_or_eq.mp hkn with hlt | rfl
          · exact hev k hk hlt hkt
          · exact hnone
    · have hpc := (run_succ_moved N next sched n).pc_ne (Ne.symm ht)
      rcases ih (hpc ▸ h) with ⟨hcmp, hknown, hev⟩
      rw [loadedAt_succ_of_ne ht]
      refine ⟨hcmp, fun k hk hkn => ?_, fun k hk hkn hkt => ?_⟩
      · rcases Nat.le_succ_iff.mp hkn with hle | rfl
        · exact hknown k hk hle
        · exact h
      · rcases Nat.lt_succ_iff_lt_or_eq.mp hkn with hlt | rfl
        · exact hev k hk hlt hkt
        · exact absurd hkt ht

/-! ## Places -/

/-- A node is held by the clients, or on the stack, or being pushed by one thread. -/
structure Places (N : Nodes) (s : State) (xs : List Uptr) : Prop where
  nodup : (s.held ++ xs).Nodup
  node_apart : ∀ t p, (s.pc t).node = some p → p ∉ s.held ++ xs
  node_inj : ∀ t u p, (s.pc t).node = some p → (s.pc u).node = some p → t = u
  mem_iff : ∀ p, p ∈ N.list ↔ p ∈ s.held ++ xs ∨ ∃ t, (s.pc t).node = some p

theorem places_start (N : Nodes) (next : Uptr → Uptr) : Places N (start N next) [] where
  nodup := by simpa [start] using N.nodup
  node_apart := by simp [start, PC.node]
  node_inj := by simp [start, PC.node]
  mem_iff := by simp [start, PC.node]

/-- The places depend on the nodes of the threads only. -/
theorem Places.congr (h : Places N s xs) (hheld : s'.held = s.held)
    (hnode : ∀ t, (s'.pc t).node = (s.pc t).node) : Places N s' xs where
  nodup := hheld ▸ h.nodup
  node_apart t p hp := hheld ▸ h.node_apart t p (hnode t ▸ hp)
  node_inj t u p ht hu := h.node_inj t u p (hnode t ▸ ht) (hnode u ▸ hu)
  mem_iff p := by
    rw [hheld, h.mem_iff p]
    simp only [hnode]

/-- A step that keeps the node of its thread keeps all of them. -/
theorem setPc_node {pc : PC} (hpc : pc.node = (s.pc t).node) (u : ℕ) :
    ((s.setPc t pc).pc u).node = (s.pc u).node := by
  by_cases hu : u = t
  · rw [hu, setPc_pc_self, hpc]
  · rw [setPc_pc_ne _ _ hu]

/-- A client takes a node to push it. -/
theorem Places.take (h : Places N s xs) {p : Uptr} (hp : p ∈ s.held)
    (hpc : (s.pc t).node = none) :
    Places N ({ s with held := s.held.erase p }.setPc t (.pushLoad p)) xs := by
  have hnodup := List.nodup_append.mp h.nodup
  have hmem : ∀ x, x ∈ s.held.erase p ↔ x ≠ p ∧ x ∈ s.held := fun x =>
    hnodup.1.mem_erase_iff
  have hpxs : p ∉ xs := fun hx => hnodup.2.2 p hp p hx rfl
  constructor
  · exact h.nodup.sublist ((List.erase_sublist).append_right xs)
  · intro u q hq
    -- the thread has `p`; the others have what they had
    by_cases hu : u = t
    · rw [hu, setPc_pc_self] at hq
      obtain rfl : p = q := Option.some.inj hq
      simp [hmem, hpxs]
    · rw [setPc_pc_ne _ _ hu] at hq
      have hold := h.node_apart u q hq
      simp only [setPc_held, List.mem_append, hmem] at hold ⊢
      tauto
  · intro u v q hq hq'
    -- two threads with one node: it was held, so no thread had it
    by_cases hu : u = t <;> by_cases hv : v = t
    · rw [hu, hv]
    · rw [hu, setPc_pc_self] at hq
      rw [setPc_pc_ne _ _ hv] at hq'
      obtain rfl : p = q := Option.some.inj hq
      exact absurd (List.mem_append_left xs hp) (h.node_apart v p hq')
    · rw [hv, setPc_pc_self] at hq'
      rw [setPc_pc_ne _ _ hu] at hq
      obtain rfl : p = q := Option.some.inj hq'
      exact absurd (List.mem_append_left xs hp) (h.node_apart u p hq)
    · rw [setPc_pc_ne _ _ hu] at hq
      rw [setPc_pc_ne _ _ hv] at hq'
      exact h.node_inj u v q hq hq'
  -- `p` has moved from the clients to a thread
  · intro q
    rw [h.mem_iff q]
    simp only [setPc_held, List.mem_append, hmem]
    constructor
    · rintro (hq | ⟨u, hu⟩)
      · by_cases hqp : q = p
        · exact Or.inr ⟨t, by rw [setPc_pc_self, hqp]; rfl⟩
        · tauto
      · refine Or.inr ⟨u, ?_⟩
        have hut : u ≠ t := by
          intro hut
          rw [hut, hpc] at hu
          exact absurd hu (by simp)
        rw [setPc_pc_ne _ _ hut]
        exact hu
    · rintro (hq | ⟨u, hu⟩)
      · tauto
      · by_cases hut : u = t
        · rw [hut, setPc_pc_self] at hu
          obtain rfl : p = q := Option.some.inj hu
          exact Or.inl (Or.inl hp)
        · rw [setPc_pc_ne _ _ hut] at hu
          exact Or.inr ⟨u, hu⟩

/-- A node that was being pushed is on the stack. -/
theorem Places.pushed (h : Places N s xs) {p : Uptr} (hpc : (s.pc t).node = some p)
    (w : UInt64) : Places N ({ s with head := w }.setPc t .idle) (p :: xs) := by
  have hp := h.node_apart t p hpc
  constructor
  · exact (List.perm_middle.nodup_iff).mpr (List.nodup_cons.mpr ⟨hp, h.nodup⟩)
  · intro u q hq
    by_cases hu : u = t
    · rw [hu, setPc_pc_self] at hq
      exact absurd hq (by simp [PC.node])
    · rw [setPc_pc_ne _ _ hu] at hq
      have hold := h.node_apart u q hq
      -- no other thread had `p`, so the nodes of the others are still apart from the stack
      have hqp : q ≠ p := fun hqp => hu (h.node_inj u t p (hqp ▸ hq) hpc)
      simp only [setPc_held, List.mem_append, List.mem_cons] at hold ⊢
      tauto
  · intro u v q hq hq'
    by_cases hu : u = t
    · rw [hu, setPc_pc_self] at hq
      exact absurd hq (by simp [PC.node])
    · by_cases hv : v = t
      · rw [hv, setPc_pc_self] at hq'
        exact absurd hq' (by simp [PC.node])
      · rw [setPc_pc_ne _ _ hu] at hq
        rw [setPc_pc_ne _ _ hv] at hq'
        exact h.node_inj u v q hq hq'
  · intro q
    rw [h.mem_iff q]
    simp only [setPc_held, List.mem_append, List.mem_cons]
    constructor
    -- `p` has moved from its thread to the stack
    · rintro (hq | ⟨u, hu⟩)
      · tauto
      · by_cases hut : u = t
        · rw [hut, hpc] at hu
          obtain rfl : p = q := Option.some.inj hu
          tauto
        · refine Or.inr ⟨u, ?_⟩
          rw [setPc_pc_ne _ _ hut]
          exact hu
    · rintro ((hq | hq | hq) | ⟨u, hu⟩)
      · tauto
      · exact Or.inr ⟨t, hq ▸ hpc⟩
      · tauto
      · by_cases hut : u = t
        · rw [hut, setPc_pc_self] at hu
          exact absurd hu (by simp [PC.node])
        · rw [setPc_pc_ne _ _ hut] at hu
          exact Or.inr ⟨u, hu⟩

/-- The node on top of the stack is back with the clients. -/
theorem Places.popped {p : Uptr} (h : Places N s (p :: xs)) (hpc : (s.pc t).node = none)
    (w : UInt64) :
    Places N ({ s with head := w, held := p :: s.held }.setPc t (.popped p)) xs := by
  have hperm : (s.held ++ p :: xs).Perm (p :: s.held ++ xs) := List.perm_middle
  have hmoved : Places N { s with head := w, held := p :: s.held } xs := by
    constructor
    · exact hperm.nodup_iff.mp h.nodup
    · intro u q hq hmem
      exact h.node_apart u q hq (hperm.mem_iff.mpr hmem)
    · exact h.node_inj
    · intro q
      rw [h.mem_iff q, hperm.mem_iff]
  refine hmoved.congr rfl ?_
  intro u
  exact setPc_node (by exact hpc.symm) u

/-! ## Memory -/

/-- The stack in memory is `xs` after `k` pushes, and thread `t` has loaded the head
after `f t` of them. What a `Pop` has read counts while there was no push and its
node is on the stack. -/
structure Shape (s : State) (xs : List Uptr) (k : ℕ) (f : ℕ → ℕ) : Prop where
  chain : Linked s.next 0 (pointer s.head) xs
  counted : counter s.head = k % 2 ^ 17
  seen_counted : ∀ t cmp, (s.pc t).seen = some cmp → counter cmp = f t % 2 ^ 17 ∧ f t ≤ k
  linked : ∀ t p cmp, s.pc t = .pushSwap p cmp → s.next p = pointer cmp
  read : ∀ t cmp nxt, s.pc t = .popSwap cmp nxt →
    pointer cmp ≠ 0 ∧ (f t = k → pointer cmp ∈ xs → s.next (pointer cmp) = nxt)

theorem shape_start (N : Nodes) (next : Uptr → Uptr) (f : ℕ → ℕ) :
    Shape (start N next) [] 0 f where
  chain := (by decide : pointer 0 = 0)
  counted := (by decide : counter 0 = 0 % 2 ^ 17)
  seen_counted := by simp [start, PC.seen]
  linked := by simp [start]
  read := by simp [start]

variable {k : ℕ} {f f' : ℕ → ℕ}

/-- A thread moves on, with what it knows now. -/
theorem Shape.setPc (h : Shape s xs k f) {pc : PC} (hf : ∀ u, u ≠ t → f' u = f u)
    (hseen : ∀ cmp, pc.seen = some cmp → counter cmp = f' t % 2 ^ 17 ∧ f' t ≤ k)
    (hlinked : ∀ p cmp, pc = .pushSwap p cmp → s.next p = pointer cmp)
    (hread : ∀ cmp nxt, pc = .popSwap cmp nxt →
      pointer cmp ≠ 0 ∧ (f' t = k → pointer cmp ∈ xs → s.next (pointer cmp) = nxt)) :
    Shape (s.setPc t pc) xs k f' := by
  refine ⟨h.chain, h.counted, ?_, ?_, ?_⟩ <;> intro u
  · by_cases hu : u = t
    · rw [hu, setPc_pc_self]
      exact hseen
    · rw [setPc_pc_ne _ _ hu, hf u hu]
      exact h.seen_counted u
  · by_cases hu : u = t
    · rw [hu, setPc_pc_self]
      exact hlinked
    · rw [setPc_pc_ne _ _ hu]
      exact h.linked u
  · by_cases hu : u = t
    · rw [hu, setPc_pc_self]
      exact hread
    · rw [setPc_pc_ne _ _ hu, hf u hu]
      exact h.read u

/-- A write to a node that nobody depends on. -/
theorem Shape.write (h : Shape s xs k f) {p : Uptr} (v : Uptr) (hp : p ∉ xs)
    (hfree : ∀ t q cmp, s.pc t = .pushSwap q cmp → q ≠ p) :
    Shape { s with next := Function.update s.next p v } xs k f where
  chain := h.chain.update hp
  counted := h.counted
  seen_counted := h.seen_counted
  linked t q cmp hpc := by
    show Function.update s.next p v q = _
    rw [Function.update_of_ne (hfree t q cmp hpc)]
    exact h.linked t q cmp hpc
  read t cmp nxt hpc := by
    rcases h.read t cmp nxt hpc with ⟨hne, hnext⟩
    refine ⟨hne, fun hk hmem => ?_⟩
    have hcp : pointer cmp ≠ p := fun hcp => hp (hcp ▸ hmem)
    show Function.update s.next p v (pointer cmp) = nxt
    rw [Function.update_of_ne hcp]
    exact hnext hk hmem

/-- A push of a node that is linked to the top of the stack. -/
theorem Shape.pushed (h : Shape s xs k f) {p : Uptr} (hp : p ≠ 0 ∧ p.toNat < 2 ^ 47)
    (hnext : s.next p = pointer s.head) :
    Shape { s with head := pushWord p s.head } (p :: xs) (k + 1) f where
  chain := by
    rw [pushWord_pointer hp.2]
    refine ⟨rfl, hp.1, ?_⟩
    rw [hnext]
    exact h.chain
  counted := by
    rw [pushWord_counter hp.2, h.counted]
    omega
  seen_counted t cmp hseen := by
    rcases h.seen_counted t cmp hseen with ⟨hc, hle⟩
    exact ⟨hc, Nat.le_succ_of_le hle⟩
  linked := h.linked
  read t cmp nxt hpc := by
    rcases h.read t cmp nxt hpc with ⟨hne, _⟩
    refine ⟨hne, fun hk _ => ?_⟩
    -- the thread has loaded the head before this push
    have hle := (h.seen_counted t cmp (by rw [hpc]; rfl)).2
    omega

/-- A pop that puts the second node on top. -/
theorem Shape.popped {p : Uptr} (h : Shape s (p :: xs) k f)
    (hnodes : ∀ x ∈ xs, x.toNat < 2 ^ 47) (held : List Uptr) :
    Shape { s with head := popWord (s.next p) s.head, held := held } xs k f := by
  have hnxt : (s.next p).toNat < 2 ^ 47 := by
    have hrest := h.chain.2.2
    by_cases hz : s.next p = 0
    · rw [hz]
      decide
    · rcases hrest.eq_cons hz with ⟨rest, hxs, _⟩
      exact hnodes _ (hxs ▸ List.mem_cons_self)
  refine ⟨?_, ?_, h.seen_counted, h.linked, ?_⟩
  · rw [popWord_pointer hnxt]
    exact h.chain.2.2
  · rw [popWord_counter hnxt]
    exact h.counted
  · intro t cmp nxt hpc
    rcases h.read t cmp nxt hpc with ⟨hne, hnext⟩
    exact ⟨hne, fun hk hmem => hnext hk (List.mem_cons_of_mem p hmem)⟩

/-! ## The invariant -/

/-- One step keeps the places and the shape, where a `Pop` exchanges only what no
push has come between. -/
theorem Moved.keeps (h : Moved s m e s') (hp : Places N s xs) (hs : Shape s xs k f)
    (hquiet : loads s m = false → f' = f)
    (hload : loads s m = true → f' m.thread = k ∧ ∀ u, u ≠ m.thread → f' u = f u)
    (hfresh : ∀ cmp nxt, s.pc m.thread = .popSwap cmp nxt → s.head = cmp → f m.thread = k) :
    Places N s' (effect e xs) ∧ Shape s' (effect e xs) (tally e k) f' := by
  have hnodes : ∀ x ∈ xs, x.toNat < 2 ^ 47 := fun x hx =>
    (N.user_space x ((hp.mem_iff x).mpr (Or.inl (List.mem_append_right _ hx)))).2
  cases h with
  | refused hpc =>
    rw [hquiet (by simp [loads, hpc])]
    exact ⟨hp, hs⟩
  | push p hpc hmem =>
    rw [hquiet (by simp [loads, hpc])]
    refine ⟨hp.take hmem (by rw [hpc]; rfl), ?_⟩
    -- a held node is on no list, so the chain is as it was
    have htaken : Shape { s with held := s.held.erase p } xs k f := ⟨hs.1, hs.2, hs.3, hs.4, hs.5⟩
    refine htaken.setPc (fun _ _ => rfl) ?_ ?_ ?_ <;> simp [PC.seen]
  | store p v hpc hmem =>
    rw [hquiet (by simp [loads, hpc])]
    refine ⟨hp.congr rfl fun _ => rfl, ?_⟩
    have hxs : p ∉ xs := fun hx => (List.nodup_append.mp hp.nodup).2.2 p hmem p hx rfl
    refine hs.write v hxs ?_
    -- a node that is being pushed is not one that a client holds
    intro t q cmp hq hqp
    exact hp.node_apart t q (by rw [hq]; rfl) (List.mem_append_left xs (hqp ▸ hmem))
  | link p cmp hpc =>
    have hnode : (s.pc m.thread).node = some p := by rw [hpc]; rfl
    rw [hquiet (by simp [loads, hpc])]
    refine ⟨hp.congr rfl fun u => setPc_node (by rw [hpc]; rfl) u, ?_⟩
    have hxs : p ∉ xs := fun hx => hp.node_apart _ p hnode (List.mem_append_right _ hx)
    -- the word written is that of the node being pushed, which is not on the list
    have hfree : ∀ t q cmp, s.pc t = .pushSwap q cmp → q ≠ p := by
      intro t q cmp' hq hqp
      have ht := hp.node_inj t m.thread p (by rw [hq, ← hqp]; rfl) hnode
      rw [ht, hpc] at hq
      exact absurd hq (by simp)
    refine (hs.write (pointer cmp) hxs hfree).setPc (fun _ _ => rfl) ?_ ?_ ?_
    · intro c hc
      exact hs.seen_counted m.thread c (by rw [hpc]; exact hc)
    · intro q c hq
      rcases PC.pushSwap.inj hq with ⟨rfl, rfl⟩
      exact Function.update_self _ _ _
    · simp
  | load pc hl hseen hnode hnoswap hnopop =>
    rcases hload hl with ⟨hself, hother⟩
    refine ⟨hp.congr rfl fun u => setPc_node hnode u, ?_⟩
    refine hs.setPc hother ?_ ?_ ?_
    · intro c hc
      -- what the thread has loaded is the head of now, with the counter of now
      obtain rfl : s.head = c := Option.some.inj (hseen.symm.trans hc)
      rw [hself]
      exact ⟨hs.counted, Nat.le_refl k⟩
    · exact fun q c hpc => absurd hpc (hnoswap q c)
    · exact fun c nxt hpc => absurd hpc (hnopop c nxt)
  | outside pc hnode hl hpcnode hpcseen =>
    rw [hquiet hl]
    refine ⟨hp.congr rfl fun u => setPc_node (hpcnode.trans hnode.symm) u, ?_⟩
    refine hs.setPc (fun _ _ => rfl) ?_ ?_ ?_
    -- the thread is outside of a loop and has seen nothing
    · exact fun c hc => absurd (hpcseen.symm.trans hc) (by simp)
    · exact fun q c hpc => absurd (hpc ▸ hpcseen) (by simp [PC.seen])
    · exact fun c nxt hpc => absurd (hpc ▸ hpcseen) (by simp [PC.seen])
  | read cmp hpc hne =>
    rw [hquiet (by simp [loads, hpc])]
    refine ⟨hp.congr rfl fun u => setPc_node (by rw [hpc]; rfl) u, ?_⟩
    refine hs.setPc (fun _ _ => rfl) ?_ ?_ ?_
    · intro c hc
      exact hs.seen_counted m.thread c (by rw [hpc]; exact hc)
    · simp
    · intro c nxt hc
      -- the next node is read while the head that was loaded may still be the top
      rcases PC.popSwap.inj hc with ⟨rfl, rfl⟩
      exact ⟨hne, fun _ _ => rfl⟩
  | pushed p cmp hpc hswap =>
    have hnode : (s.pc m.thread).node = some p := by rw [hpc]; rfl
    -- the exchange has succeeded: the node that was linked is the new top
    have huser := N.user_space p ((hp.mem_iff p).mpr (Or.inr ⟨_, hnode⟩))
    obtain rfl := swaps_head hswap
    rw [hquiet (by simp [loads, hpc, hswap])]
    refine ⟨hp.pushed hnode _, ?_⟩
    refine (hs.pushed huser (hs.linked _ _ _ hpc)).setPc (fun _ _ => rfl) ?_ ?_ ?_ <;>
      simp [PC.seen]
  | popped cmp nxt hpc hswap =>
    obtain rfl := swaps_head hswap
    rw [hquiet (by simp [loads, hpc, hswap])]
    rcases hs.read _ _ _ hpc with ⟨hne, hread⟩
    -- the head is the top of the stack, and what was read of it is still there
    rcases hs.chain.eq_cons hne with ⟨rest, rfl, _⟩
    have hnxt := hread (hfresh _ _ hpc rfl) List.mem_cons_self
    refine ⟨hp.popped (by rw [hpc]; rfl) _, ?_⟩
    subst hnxt
    refine (hs.popped (fun x hx => hnodes x (List.mem_cons_of_mem _ hx)) _).setPc
      (fun _ _ => rfl) ?_ ?_ ?_ <;> simp [PC.seen]

/-- In every state of a run, every node has one place, and the nodes in memory are
the abstract stack. -/
theorem inv (h : CounterHolds N next sched) (n : ℕ) :
    Places N (run N next sched n) (contents N next sched n) ∧
      Shape (run N next sched n) (contents N next sched n) (pushes N next sched n)
        (fun t => pushes N next sched (loadedAt N next sched t n)) := by
  induction n with
  | zero => exact ⟨places_start N next, shape_start N next _⟩
  | succ n ih =>
    refine (run_succ_moved N next sched n).keeps ih.1 ih.2 ?_ ?_ ?_
    · intro hl
      funext t
      rw [loadedAt_succ_of_quiet hl]
    · intro hl
      refine ⟨by rw [loadedAt_succ_of_loads hl], fun u hu => ?_⟩
      rw [loadedAt_succ_of_ne (Ne.symm hu)]
    · intro cmp nxt hpc hhead
      -- the counters agree, and less than a whole turn lies between them
      have hbound := h n cmp nxt hpc
      rcases ih.2.seen_counted _ cmp (by rw [hpc]; rfl) with ⟨hseen, hle⟩
      have hnow := ih.2.counted
      rw [hhead, hseen] at hnow
      omega

end Caver.Sanitizer.LFStack
