import Caver.Sanitizer.LFStackRuns

/-!
# Caver.Sanitizer.LFStackHistories — what callers of the stack can rely on

* `stack_linearizable`: every `Pop` returns what was on top of the stack at some
  moment of the call, or null when there was nothing.
* `nodes_conserved`: no node is lost, and none is in two places.
* `lock_free`: while a thread takes four steps of an operation, some operation ends.
* `exchange_fails`: an exchange that fails for a reason fails because of another thread.
-/

namespace Caver.Sanitizer.LFStack

open Caver.Core

variable {N : Nodes} {next : Uptr → Uptr} {sched : ℕ → Move} {s : State} {m : Move}
  {n t : ℕ} {cmp : UInt64} {p : Uptr}

/-! ## Schedules -/

/-- The counter suffices where there are few pushes altogether. -/
theorem counterHolds_of_few (h : ∀ n, pushes N next sched n < 2 ^ 17) :
    CounterHolds N next sched := by
  intro n cmp nxt _
  have hn := h n
  omega

theorem pushes_succ_le (n : ℕ) :
    pushes N next sched (n + 1) ≤ pushes N next sched n + 1 := by
  rw [pushes]
  unfold tally
  split <;> omega

/-- Two nodes in a region of the primary space. -/
def twoNodes : Nodes where
  list := [0x600000001000, 0x600000002000]
  nodup := by decide
  user_space := by
    intro p hp
    rcases List.mem_pair.mp hp with rfl | rfl <;> exact ⟨by decide, by decide⟩

/-- While thread `1` is in `Pop`, thread `0` pops the same node and pushes it back:
the pointer is the old one, and the counter is not. Thread `2` rests. -/
def backAgain (n : ℕ) : Move :=
  if n < 4 then ⟨0, .push 0x600000001000, false⟩
  else if n < 8 then ⟨0, .push 0x600000002000, false⟩
  else if n < 11 then ⟨1, .pop, false⟩
  else if n < 16 then ⟨0, .pop, false⟩
  else if n < 20 then ⟨0, .push 0x600000002000, false⟩
  else if n < 23 then ⟨1, .pop, false⟩
  else ⟨2, .store 0 0, false⟩

theorem backAgain_rests {n : ℕ} (h : 23 ≤ n) : backAgain n = ⟨2, .store 0 0, false⟩ := by
  unfold backAgain
  repeat rw [if_neg (by omega)]

theorem backAgain_thread {n : ℕ} (h : n < 23) : (backAgain n).thread ≠ 2 := by
  revert n
  decide

theorem backAgain_idle (n : ℕ) : (run twoNodes id backAgain n).pc 2 = .idle := by
  induction n with
  | zero => rfl
  | succ n ih =>
    rcases Nat.lt_or_ge n 23 with hlt | hge
    · rw [(run_succ_moved _ _ _ n).pc_ne (backAgain_thread hlt).symm]
      exact ih
    · rw [run_succ, backAgain_rests hge]
      by_cases hp : (0 : Uptr) ∈ (run twoNodes id backAgain n).held <;>
        simp [step, ih, State.call, hp]

theorem backAgain_counterHolds : CounterHolds twoNodes id backAgain := by
  refine counterHolds_of_few fun n => ?_
  have hle : pushes twoNodes id backAgain n ≤ min n 23 := by
    induction n with
    | zero => exact Nat.le_refl 0
    | succ n ih =>
      rcases Nat.lt_or_ge n 23 with hlt | hge
      · have hone : pushes twoNodes id backAgain (n + 1) ≤ pushes twoNodes id backAgain n + 1 :=
          pushes_succ_le n
        omega
      · have hnone : eventAt twoNodes id backAgain n = none := by
          have hidle := backAgain_idle n
          simp [eventAt, event, backAgain_rests hge, hidle]
        rw [pushes, hnone]
        simp only [tally]
        omega
  omega

/-! ## Linearization -/

/-- A thread that has loaded the head is in a call. -/
theorem loads_pc_ne_idle (h : loads s m = true) : s.pc m.thread ≠ .idle := by
  intro hidle
  simp [loads, hidle] at h

theorem seen_pc_ne_idle {pc : PC} (h : pc.seen = some cmp) : pc ≠ .idle := by
  intro hidle
  simp [hidle, PC.seen] at h

/-- A thread that has seen the head is in the call that has loaded it. -/
theorem seen_in_call (h : ((run N next sched n).pc t).seen = some cmp) :
    loadedAt N next sched t n < n ∧
      ∀ k, loadedAt N next sched t n ≤ k → k ≤ n → (run N next sched k).pc t ≠ .idle := by
  induction n with
  | zero => exact absurd h (by simp [run, runFrom, start, PC.seen])
  | succ n ih =>
    have hnow := seen_pc_ne_idle h
    by_cases ht : (sched n).thread = t
    · subst ht
      rcases (run_succ_moved N next sched n).seen h with ⟨hl, _⟩ | ⟨hq, hold, _⟩
      · rw [loadedAt_succ_of_loads hl]
        refine ⟨Nat.lt_succ_self n, fun k hk hkn => ?_⟩
        rcases Nat.le_succ_iff.mp hkn with hle | rfl
        · obtain rfl : k = n := by omega
          exact loads_pc_ne_idle hl
        · exact hnow
      · rw [loadedAt_succ_of_quiet hq]
        refine ⟨Nat.lt_succ_of_lt (ih hold).1, fun k hk hkn => ?_⟩
        rcases Nat.le_succ_iff.mp hkn with hle | rfl
        · exact (ih hold).2 k hk hle
        · exact hnow
    · have hpc := (run_succ_moved N next sched n).pc_ne (Ne.symm ht)
      rw [loadedAt_succ_of_ne ht]
      refine ⟨Nat.lt_succ_of_lt (ih (hpc ▸ h)).1, fun k hk hkn => ?_⟩
      rcases Nat.le_succ_iff.mp hkn with hle | rfl
      · exact (ih (hpc ▸ h)).2 k hk hle
      · exact hnow

/-- The moment of a call at which it takes effect. -/
structure PopTakesEffect (N : Nodes) (next : Uptr → Uptr) (sched : ℕ → Move) (t : ℕ) (p : Uptr)
    (k n : ℕ) : Prop where
  before : k < n
  in_call : ∀ j, k ≤ j → j ≤ n → (run N next sched j).pc t ≠ .idle
  empty : p = 0 → contents N next sched k = []
  top : p ≠ 0 → (sched k).thread = t ∧ eventAt N next sched k = some (.popped p) ∧
    contents N next sched k = p :: contents N next sched (k + 1)

theorem PopTakesEffect.later {k : ℕ} (h : PopTakesEffect N next sched t p k n)
    (hpc : (run N next sched (n + 1)).pc t ≠ .idle) :
    PopTakesEffect N next sched t p k (n + 1) where
  before := Nat.lt_succ_of_lt h.before
  in_call j hkj hjn := by
    rcases Nat.le_succ_iff.mp hjn with hle | rfl
    · exact h.in_call j hkj hle
    · exact hpc
  empty := h.empty
  top := h.top

theorem event_pc_ne_idle {e : Event} (h : event s m = some e) : s.pc m.thread ≠ .idle := by
  intro hidle
  simp [event, hidle] at h

/-- A node is popped by an exchange of the head that points to it. -/
theorem event_popped (h : event s m = some (.popped p)) :
    ∃ nxt, s.pc m.thread = .popSwap s.head nxt ∧ pointer s.head = p := by
  unfold event at h
  cases hpc : s.pc m.thread with
  | popSwap cmp nxt =>
    rw [hpc] at h
    by_cases hs : s.swaps m cmp = true
    · simp only [hs, if_true, Option.some.injEq, Event.popped.injEq] at h
      rw [swaps_head hs]
      exact ⟨nxt, rfl, h⟩
    · simp [hs] at h
  | pushSwap q cmp =>
    rw [hpc] at h
    by_cases hs : s.swaps m cmp = true <;> simp [hs] at h
  | _ => simp [hpc] at h

/-- The exchange of a `Pop` takes the top of the stack. -/
theorem popped_event (h : CounterHolds N next sched)
    (hev : eventAt N next sched n = some (.popped p)) :
    contents N next sched n = p :: contents N next sched (n + 1) ∧ p ≠ 0 := by
  have hinv := (inv h n).2
  have hrest : contents N next sched (n + 1) = (contents N next sched n).tail := by
    rw [contents, hev]
    rfl
  rcases event_popped hev with ⟨nxt, hpc, hp⟩
  have hne := (hinv.read _ _ _ hpc).1
  rcases hinv.chain.eq_cons hne with ⟨rest, hxs, _⟩
  rw [hrest, hxs, ← hp]
  exact ⟨rfl, hne⟩

/-- How a `Pop` returns. -/
theorem popped_cases (h : (step s m).pc m.thread = .popped p) :
    (p = 0 ∧ ∃ cmp, (s.pc m.thread).seen = some cmp ∧ pointer cmp = 0) ∨
      event s m = some (.popped p) := by
  unfold step at h
  unfold event
  cases hpc : s.pc m.thread with
  | popNext cmp =>
    rw [hpc] at h
    by_cases hz : pointer cmp = 0
    · simp only [hz, if_true, setPc_pc_self, PC.popped.injEq] at h
      exact Or.inl ⟨h.symm, cmp, rfl, hz⟩
    · simp [hz] at h
  | popSwap cmp nxt =>
    rw [hpc] at h
    by_cases hs : s.swaps m cmp = true
    · simp only [hs, if_true, setPc_pc_self, PC.popped.injEq] at h
      exact Or.inr (by simp [hs, h])
    · simp [hs] at h
  | pushSwap q cmp =>
    rw [hpc] at h
    by_cases hs : s.swaps m cmp = true <;> simp [hs] at h
  | idle =>
    rw [hpc] at h
    cases hcall : m.call with
    | push q => by_cases hq : q ∈ s.held <;> simp [hcall, State.call, hq, hpc] at h
    | pop => simp [hcall, State.call] at h
    | store q v => by_cases hq : q ∈ s.held <;> simp [hcall, State.call, hq, hpc] at h
  | _ => simp [hpc] at h

theorem pop_takes_effect (h : CounterHolds N next sched)
    (hpc : (run N next sched n).pc t = .popped p) :
    ∃ k, PopTakesEffect N next sched t p k n := by
  induction n with
  | zero => exact absurd hpc (by simp [run, runFrom, start])
  | succ n ih =>
    have hbusy : (run N next sched (n + 1)).pc t ≠ .idle := by simp [hpc]
    by_cases ht : (sched n).thread = t
    · subst ht
      rcases popped_cases hpc with ⟨rfl, cmp, hseen, hz⟩ | hev
      · -- null: the load found the stack empty
        rcases seen_in_call hseen with ⟨hlt, hcall⟩
        refine ⟨_, PopTakesEffect.later ⟨hlt, hcall, fun _ => ?_, fun hne => absurd rfl hne⟩ hbusy⟩
        have hload := (seen_loaded hseen).1
        exact (inv h _).2.chain.eq_nil_iff.mpr (hload ▸ hz)
      · -- a node: the exchange took it
        rcases popped_event h hev with ⟨htop, hne⟩
        refine ⟨n, Nat.lt_succ_self n, fun j hnj hjn => ?_, fun hz => absurd hz hne,
          fun _ => ⟨rfl, hev, htop⟩⟩
        rcases Nat.le_succ_iff.mp hjn with hle | rfl
        · obtain rfl : j = n := by omega
          exact event_pc_ne_idle hev
        · exact hbusy
    · rw [(run_succ_moved N next sched n).pc_ne (Ne.symm ht)] at hpc
      rcases ih hpc with ⟨k, hk⟩
      exact ⟨k, hk.later hbusy⟩

/-- The nodes in memory are the abstract stack, and every `Pop` that returns has
taken effect on it at one moment of its call. -/
theorem stack_linearizable (h : CounterHolds N next sched) (n : ℕ) :
    Linked (run N next sched n).next 0 (pointer (run N next sched n).head)
        (contents N next sched n) ∧
      ∀ t p, (run N next sched n).pc t = .popped p →
        ∃ k, PopTakesEffect N next sched t p k n :=
  ⟨(inv h n).2.chain, fun _ _ hpc => pop_takes_effect h hpc⟩

theorem stack_linearizable_back_again :
    Linked (run twoNodes id backAgain 23).next 0
        (pointer (run twoNodes id backAgain 23).head) (contents twoNodes id backAgain 23) ∧
      ∀ t p, (run twoNodes id backAgain 23).pc t = .popped p →
        ∃ k, PopTakesEffect twoNodes id backAgain t p k 23 :=
  stack_linearizable backAgain_counterHolds 23

/-- However the threads interleave, every node is held by the clients, or linked into
the stack in memory, or being pushed by one thread, and in one of these places only. -/
theorem nodes_conserved (h : CounterHolds N next sched) (n : ℕ) :
    ∃ xs, Linked (run N next sched n).next 0 (pointer (run N next sched n).head) xs ∧
      Places N (run N next sched n) xs :=
  ⟨_, (inv h n).2.chain, (inv h n).1⟩

theorem nodes_conserved_back_again :
    ∃ xs, Linked (run twoNodes id backAgain 20).next 0
        (pointer (run twoNodes id backAgain 20).head) xs ∧
      Places twoNodes (run twoNodes id backAgain 20) xs :=
  nodes_conserved backAgain_counterHolds 20

/-! ## Progress -/

theorem head_changes (hne : (step s m).head ≠ s.head) : event s m ≠ none := by
  intro hnone
  have hmoved := step_moved s m
  rw [hnone] at hmoved
  generalize step s m = s' at hmoved hne
  cases hmoved <;> exact hne rfl

/-- An exchange that fails, and not for no reason, fails because another thread has
changed the stack since the head was loaded. -/
theorem exchange_fails (hseen : ((run N next sched n).pc t).seen = some cmp)
    (hstale : (run N next sched n).head ≠ cmp) :
    ∃ k, loadedAt N next sched t n ≤ k ∧ k < n ∧ (sched k).thread ≠ t ∧
      eventAt N next sched k ≠ none := by
  rcases seen_loaded hseen with ⟨hcmp, _, hown⟩
  have hle : loadedAt N next sched t n ≤ n := loadedAt_le t n
  rcases exists_change (fun k => (run N next sched k).head) hle (hcmp ▸ hstale.symm) with
    ⟨k, hk, hkn, hchange⟩
  have hev : eventAt N next sched k ≠ none := head_changes hchange
  exact ⟨k, hk, hkn, fun ht => hev (hown k hk hkn ht), hev⟩

/-- The steps that are left of an operation if the head stays as it is. -/
def PC.rank (head : UInt64) : PC → ℕ
  | .idle => 0
  | .pushLoad _ => 3
  | .pushLink _ cmp => if cmp = head then 2 else 4
  | .pushSwap _ cmp => if cmp = head then 1 else 3
  | .popLoad => 3
  | .popNext cmp => if cmp = head then 2 else 4
  | .popSwap cmp _ => if cmp = head then 1 else 3
  | .popped _ => 0

theorem rank_le (head : UInt64) (pc : PC) : pc.rank head ≤ 4 := by
  cases pc <;> simp only [PC.rank] <;> (try split) <;> omega

/-- A step of an operation that does not end it leaves one step less. -/
theorem rank_step (hspurious : m.spurious = false) (hpos : 0 < (s.pc m.thread).rank s.head)
    (hev : event s m = none) (hnull : (step s m).pc m.thread ≠ .popped 0) :
    0 < ((step s m).pc m.thread).rank s.head ∧
      ((step s m).pc m.thread).rank s.head + 1 = (s.pc m.thread).rank s.head := by
  unfold step at hnull ⊢
  unfold event at hev
  cases hpc : s.pc m.thread with
  | idle => simp [hpc, PC.rank] at hpos
  | pushLoad p => simp [PC.rank]
  | pushLink p cmp => by_cases hc : cmp = s.head <;> simp [PC.rank, hc]
  | pushSwap p cmp =>
    rw [hpc] at hev
    by_cases hc : s.head = cmp
    · simp [State.swaps, hc, hspurious] at hev
    · simp [State.swaps, hc, PC.rank, Ne.symm hc]
  | popLoad => simp [PC.rank]
  | popNext cmp =>
    rw [hpc] at hnull
    by_cases hz : pointer cmp = 0
    · simp [hz] at hnull
    · simp only [hz, if_false, setPc_pc_self, PC.rank]
      split <;> omega
  | popSwap cmp nxt =>
    rw [hpc] at hev
    by_cases hc : s.head = cmp
    · simp [State.swaps, hc, hspurious] at hev
    · simp [State.swaps, hc, PC.rank, Ne.symm hc]
  | popped cur => simp [hpc, PC.rank] at hpos

/-- The steps that a thread takes before move `n`. -/
def steps (sched : ℕ → Move) (t n : ℕ) : ℕ := Nat.count (fun k => (sched k).thread = t) n

theorem steps_succ (n : ℕ) :
    steps sched t (n + 1) = steps sched t n + if (sched n).thread = t then 1 else 0 :=
  Nat.count_succ _ n

/-- An operation ends at move `k`: an exchange succeeds, or a `Pop` finds nothing. -/
def Completes (N : Nodes) (next : Uptr → Uptr) (sched : ℕ → Move) (k : ℕ) : Prop :=
  eventAt N next sched k ≠ none ∨ (run N next sched (k + 1)).pc (sched k).thread = .popped 0

/-- While no operation ends, every step of a thread brings it closer to the end. -/
theorem rank_falls {n' : ℕ} (hle : n ≤ n')
    (hpos : 0 < ((run N next sched n).pc t).rank (run N next sched n).head)
    (hspurious : ∀ k, n ≤ k → k < n' → (sched k).thread = t → (sched k).spurious = false)
    (hnone : ∀ k, n ≤ k → k < n' → ¬ Completes N next sched k) :
    0 < ((run N next sched n').pc t).rank (run N next sched n').head ∧
      ((run N next sched n').pc t).rank (run N next sched n').head + steps sched t n' =
        ((run N next sched n).pc t).rank (run N next sched n).head + steps sched t n := by
  induction n', hle using Nat.le_induction with
  | base => exact ⟨hpos, rfl⟩
  | succ k hk ih =>
    have ih := ih (fun i hi hik => hspurious i hi (Nat.lt_succ_of_lt hik))
      (fun i hi hik => hnone i hi (Nat.lt_succ_of_lt hik))
    have hend := not_or.mp (hnone k hk (Nat.lt_succ_self k))
    have hev : eventAt N next sched k = none := not_not.mp hend.1
    have hhead : (run N next sched (k + 1)).head = (run N next sched k).head := by
      by_contra hne
      exact head_changes hne hev
    rw [hhead, steps_succ]
    by_cases ht : (sched k).thread = t
    · subst ht
      have hstep := rank_step (hspurious k hk (Nat.lt_succ_self k) rfl) ih.1 hev hend.2
      have hsum := ih.2
      rw [if_pos rfl, run_succ]
      exact ⟨hstep.1, by omega⟩
    · rw [(run_succ_moved N next sched k).pc_ne (Ne.symm ht), if_neg ht, Nat.add_zero]
      exact ih

/-- While a thread takes four steps of an operation, none of which fails for no
reason, some operation ends: its own, or one of another thread. -/
theorem lock_free {n' : ℕ} (hle : n ≤ n') (hbusy : (run N next sched n).pc t ≠ .idle)
    (hcall : ∀ p, (run N next sched n).pc t ≠ .popped p)
    (hsteps : steps sched t n + 4 ≤ steps sched t n')
    (hspurious : ∀ k, n ≤ k → k < n' → (sched k).thread = t → (sched k).spurious = false) :
    ∃ k, n ≤ k ∧ k < n' ∧ Completes N next sched k := by
  by_contra hnone
  have hnone : ∀ k, n ≤ k → k < n' → ¬ Completes N next sched k := fun k hk hkn hc =>
    hnone ⟨k, hk, hkn, hc⟩
  have hpos : 0 < ((run N next sched n).pc t).rank (run N next sched n).head := by
    cases hpc : (run N next sched n).pc t with
    | idle => exact absurd hpc hbusy
    | popped p => exact absurd hpc (hcall p)
    | _ =>
      simp only [PC.rank]
      try split
      all_goals omega
  rcases rank_falls hle hpos hspurious hnone with ⟨hleft, hsum⟩
  have hmax := rank_le (run N next sched n).head ((run N next sched n).pc t)
  omega

theorem lock_free_back_again : ∃ k, 1 ≤ k ∧ k < 5 ∧ Completes twoNodes id backAgain k := by
  refine lock_free (t := 0) (by decide) (by decide) ?_ (by decide) (by decide)
  intro p hp
  have hpc : (run twoNodes id backAgain 1).pc 0 = .pushLoad 0x600000001000 := by decide
  rw [hpc] at hp
  exact PC.noConfusion hp

end Caver.Sanitizer.LFStack
