import Caver.Basic
import Caver.Core.Interleaving
import Caver.Core.Linked

/-!
# Caver.Sanitizer.LFStack — the lock-free stack of batches

`LFStack` keeps a pointer to the first node and a counter in one word, and
changes it by compare-and-exchange only. Nodes are linked through their first
word, which belongs to whoever holds the node while it is not in the stack.

* `step`: one atomic access of one thread, in any order with the others. Accesses
  to one word happen one after the other.
* `Push`, `Pop`: what the operations do when nothing else runs; `push_alone` and
  `pop_alone` say that the loops do this.
* `pushWord_counter`, `popWord_counter`: a push counts, and a pop does not.
-/

namespace Caver.Sanitizer.LFStack

open Caver.Core

/-! ## The head word -/

/-- `kPtrMask`, with `kCounterBits` of 17. -/
def kPtrMask : UInt64 := ((0 : UInt64) - 1) >>> 17

def kCounterMask : UInt64 := ~~~kPtrMask

def kCounterInc : UInt64 := kPtrMask + 1

/-- The pointer in a head word. -/
def pointer (cmp : UInt64) : Uptr := cmp &&& kPtrMask

/-- The word that `Push` wants to store. -/
def pushWord (p : Uptr) (cmp : UInt64) : UInt64 := p ||| ((cmp &&& kCounterMask) + kCounterInc)

/-- The word that `Pop` wants to store. -/
def popWord (nxt : Uptr) (cmp : UInt64) : UInt64 := nxt ||| (cmp &&& kCounterMask)

/-- The counter in a head word. -/
def counter (cmp : UInt64) : ℕ := cmp.toNat / 2 ^ 47

theorem pointer_toNat (cmp : UInt64) : (pointer cmp).toNat = cmp.toNat % 2 ^ 47 := by
  have hmask : kPtrMask.toNat = 2 ^ 47 - 1 := by decide
  rw [pointer, UInt64.toNat_and, hmask, Nat.and_two_pow_sub_one_eq_mod]

theorem counterBits_toNat (cmp : UInt64) :
    (cmp &&& kCounterMask).toNat = 2 ^ 47 * counter cmp := by
  have hptr := pointer_toNat cmp
  have hsplit := Nat.div_add_mod cmp.toNat (2 ^ 47)
  unfold pointer at hptr
  rw [kCounterMask, toNat_and_not, hptr, counter]
  omega

/-- A pointer below the counter bits is added to them. -/
theorem or_counterBits {p c : UInt64} {k : ℕ} (hp : p.toNat < 2 ^ 47)
    (hc : c.toNat = 2 ^ 47 * k) : (p ||| c).toNat = 2 ^ 47 * k + p.toNat := by
  rw [UInt64.toNat_or, hc, Nat.or_comm, ← Nat.two_pow_add_eq_or_of_lt hp]

theorem pushBits_toNat (cmp : UInt64) :
    ((cmp &&& kCounterMask) + kCounterInc).toNat = 2 ^ 47 * ((counter cmp + 1) % 2 ^ 17) := by
  have hinc : kCounterInc.toNat = 2 ^ 47 := by decide
  rw [UInt64.toNat_add, counterBits_toNat, hinc]
  omega

section

variable {p : Uptr} (hp : p.toNat < 2 ^ 47) (cmp : UInt64)
include hp

theorem pushWord_toNat :
    (pushWord p cmp).toNat = 2 ^ 47 * ((counter cmp + 1) % 2 ^ 17) + p.toNat :=
  or_counterBits hp (pushBits_toNat cmp)

theorem popWord_toNat : (popWord p cmp).toNat = 2 ^ 47 * counter cmp + p.toNat :=
  or_counterBits hp (counterBits_toNat cmp)

theorem pushWord_pointer : pointer (pushWord p cmp) = p := by
  refine UInt64.toNat_inj.mp ?_
  rw [pointer_toNat, pushWord_toNat hp]
  omega

theorem popWord_pointer : pointer (popWord p cmp) = p := by
  refine UInt64.toNat_inj.mp ?_
  rw [pointer_toNat, popWord_toNat hp]
  omega

/-- A push counts, in 17 bits. -/
theorem pushWord_counter : counter (pushWord p cmp) = (counter cmp + 1) % 2 ^ 17 := by
  rw [counter, pushWord_toNat hp]
  omega

/-- A pop keeps the counter. -/
theorem popWord_counter : counter (popWord p cmp) = counter cmp := by
  rw [counter, popWord_toNat hp]
  omega

end

/-! ## Threads -/

/-- Where a thread is. -/
inductive PC where
  | idle
  /-- In `Push`: load the head. -/
  | pushLoad (p : Uptr)
  /-- Write `p->next`. -/
  | pushLink (p : Uptr) (cmp : UInt64)
  /-- Exchange the head. -/
  | pushSwap (p : Uptr) (cmp : UInt64)
  /-- In `Pop`: load the head. -/
  | popLoad
  /-- Return null, or read `cur->next`. -/
  | popNext (cmp : UInt64)
  /-- Exchange the head. -/
  | popSwap (cmp : UInt64) (nxt : Uptr)
  /-- `Pop` has returned. -/
  | popped (cur : Uptr)
deriving DecidableEq, Repr

/-- What the client of an idle thread does next. -/
inductive Call where
  | push (p : Uptr)
  | pop
  /-- Write to the first word of a node. -/
  | store (p v : Uptr)
deriving DecidableEq, Repr

/-- A move of a schedule. A weak exchange may fail for no reason. -/
structure Move where
  thread : ℕ
  call : Call
  spurious : Bool
deriving DecidableEq, Repr

/-- The stack, the first words of all nodes, the nodes that clients hold, and the
threads. -/
structure State where
  head : UInt64
  next : Uptr → Uptr
  held : List Uptr
  pc : ℕ → PC

/-- The exchange of the thread succeeds. -/
def State.swaps (s : State) (m : Move) (cmp : UInt64) : Bool := s.head == cmp && !m.spurious

def State.setPc (s : State) (t : ℕ) (pc : PC) : State :=
  { s with pc := Function.update s.pc t pc }

/-- A client pushes and writes only what it holds. -/
def State.call (s : State) (t : ℕ) : Call → State
  | .push p =>
    if p ∈ s.held then { s with held := s.held.erase p }.setPc t (.pushLoad p) else s
  | .pop => s.setPc t .popLoad
  | .store p v => if p ∈ s.held then { s with next := Function.update s.next p v } else s

/-- One atomic access of a thread. A failed exchange loads the head again. -/
def step (s : State) (m : Move) : State :=
  match s.pc m.thread with
  | .idle => s.call m.thread m.call
  | .pushLoad p => s.setPc m.thread (.pushLink p s.head)
  | .pushLink p cmp =>
    { s with next := Function.update s.next p (pointer cmp) }.setPc m.thread (.pushSwap p cmp)
  | .pushSwap p cmp =>
    if s.swaps m cmp then { s with head := pushWord p cmp }.setPc m.thread .idle
    else s.setPc m.thread (.pushLink p s.head)
  | .popLoad => s.setPc m.thread (.popNext s.head)
  | .popNext cmp =>
    if pointer cmp = 0 then s.setPc m.thread (.popped 0)
    else s.setPc m.thread (.popSwap cmp (s.next (pointer cmp)))
  | .popSwap cmp nxt =>
    if s.swaps m cmp then
      { s with head := popWord nxt cmp, held := pointer cmp :: s.held }.setPc m.thread
        (.popped (pointer cmp))
    else s.setPc m.thread (.popNext s.head)
  | .popped _ => s.setPc m.thread .idle

/-- The nodes of the clients before anything is pushed. -/
structure Nodes where
  list : List Uptr
  nodup : list.Nodup
  user_space : ∀ p ∈ list, p ≠ 0 ∧ p.toNat < 2 ^ 47

/-- The stack after `Clear`. -/
def start (N : Nodes) (next : Uptr → Uptr) : State := ⟨0, next, N.list, fun _ => .idle⟩

/-! ## One thread alone -/

/-- `Push`, when nothing else runs. -/
def Push (p : Uptr) (head : UInt64) (next : Uptr → Uptr) : UInt64 × (Uptr → Uptr) :=
  (pushWord p head, Function.update next p (pointer head))

/-- `Pop`, when nothing else runs. -/
def Pop (head : UInt64) (next : Uptr → Uptr) : Uptr × UInt64 :=
  if pointer head = 0 then (0, head) else (pointer head, popWord (next (pointer head)) head)

/-- Moves of one thread, without spurious failures. -/
def alone (t : ℕ) (call : Call) : ℕ → Move := fun _ => ⟨t, call, false⟩

@[simp] theorem setPc_pc_self (s : State) (t : ℕ) (pc : PC) : (s.setPc t pc).pc t = pc := by
  simp [State.setPc]

@[simp] theorem setPc_pc_ne (s : State) {t u : ℕ} (pc : PC) (h : u ≠ t) :
    (s.setPc t pc).pc u = s.pc u := by
  simp [State.setPc, h]

@[simp] theorem setPc_head (s : State) (t : ℕ) (pc : PC) : (s.setPc t pc).head = s.head := rfl

@[simp] theorem setPc_next (s : State) (t : ℕ) (pc : PC) : (s.setPc t pc).next = s.next := rfl

@[simp] theorem setPc_held (s : State) (t : ℕ) (pc : PC) : (s.setPc t pc).held = s.held := rfl

/-- Four accesses push a node. -/
theorem push_alone {s : State} {t : ℕ} {p : Uptr} (hidle : s.pc t = .idle) (hp : p ∈ s.held) :
    ((runFrom step s (alone t (.push p)) 4).head, (runFrom step s (alone t (.push p)) 4).next) =
        Push p s.head s.next ∧
      (runFrom step s (alone t (.push p)) 4).pc t = .idle := by
  simp [runFrom, step, alone, hidle, State.call, hp, State.swaps, Push]

/-- Four accesses pop a node; three find the stack empty. -/
theorem pop_alone {s : State} {t : ℕ} (hidle : s.pc t = .idle) :
    (pointer s.head = 0 → (runFrom step s (alone t .pop) 3).pc t = .popped 0 ∧
      (runFrom step s (alone t .pop) 3).head = (Pop s.head s.next).2) ∧
    (pointer s.head ≠ 0 →
      (runFrom step s (alone t .pop) 4).pc t = .popped (Pop s.head s.next).1 ∧
      (runFrom step s (alone t .pop) 4).head = (Pop s.head s.next).2) := by
  constructor
  · intro hzero
    simp [runFrom, step, alone, hidle, State.call, hzero, Pop]
  · intro hne
    simp [runFrom, step, alone, hidle, State.call, hne, State.swaps, Pop]

end Caver.Sanitizer.LFStack
