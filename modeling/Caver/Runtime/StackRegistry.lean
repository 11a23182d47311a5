import Caver.Runtime.HeapAllocator
import Caver.Runtime.RbTreeMap

/-!
# Caver.Runtime.StackRegistry — the hooks of stack objects

`__cver_handle_stack_enter` and `__cver_handle_stack_exit`, and what they do to
the pairs of an address and a type table in the thread's tree.

* `Registers root P`: the tree has the pairs of `P` and no others.
* `handleStackEnter_spec`, `handleStackExit_spec`: a pair more, an address less.
-/

namespace Caver.Runtime

open Caver.Core Caver.Core.RedBlackTree

variable {s : RbTree} {h : Heap Node} {par : Ref} {t t' : RedBlackTree Cell} {m m' : Entries}
  {flags : Flags} {root : Option RbTree} {P Q : Uptr → Uptr → Prop}

/-! ## A state holds one tree -/

theorem Rep.unique (hr : Rep h par t) (hr' : Rep h par t') (href : ref t = ref t') : t = t' := by
  induction t generalizing par t' with
  | nil =>
    cases t' with
    | nil => rfl
    | node => exact absurd href (by simp)
  | node c l x r ihl ihr =>
    cases t' with
    | nil => exact absurd href (by simp)
    | node c' l' x' r' =>
      rcases hr with ⟨hx, hl, hr⟩
      rcases hr' with ⟨hx', hl', hr'⟩
      rw [ref_node, ref_node, Option.some.injEq] at href
      -- the two roots are one node, with the same links
      rw [← href] at hx' hl' hr'
      rw [hx, Option.some.injEq, Node.mk.injEq] at hx'
      rcases hx' with ⟨hkey, hvalue, hleft, hright, -, hcolor⟩
      have hcell : x = x' := by
        cases x
        cases x'
        cases href
        cases hkey
        cases hvalue
        rfl
      rw [hcolor, hcell, ihl hl hl' hleft, ihr hr hr' hright]

theorem Tracks.unique (hm : Tracks s m) (hm' : Tracks s m') : m = m' := by
  rcases hm with ⟨T, hT, -, hL⟩
  rcases hm' with ⟨T', hT', -, hL'⟩
  have href : ref T = ref T' := hT.ctx.symm.trans hT'.ctx
  have hT : T = T' := hT.focus.unique hT'.focus href
  subst hT
  funext a
  apply Option.ext
  intro e
  exact (hL.mem_iff a e.1 e.2).trans (hL'.mem_iff a e.1 e.2).symm

/-! ## The hooks -/

/-- `__cver_handle_stack_enter`. The number of elements is only printed. -/
def handleStackEnter (flags : Flags) (malloc : Malloc) (typeTable pointer allocSize : Uptr)
    (root : Option RbTree) : Option (Option RbTree) :=
  if flags.noCheck then some root
  else match root with
    | none => some none
    | some t => (runOp malloc t (.insert ⟨pointer, allocSize⟩ typeTable)).map some

/-- `__cver_handle_stack_exit`. The type table is only printed. -/
def handleStackExit (flags : Flags) (malloc : Malloc) (pointer : Uptr) (root : Option RbTree) :
    Option (Option RbTree) :=
  if flags.noCheck then some root
  else match root with
    | none => some none
    | some t => (runOp malloc t (.delete ⟨pointer, 0⟩)).map some

/-- The thread has a tree, and its pairs of address and type table are those of `P`. -/
def Registers (root : Option RbTree) (P : Uptr → Uptr → Prop) : Prop :=
  ∃ t m, root = some t ∧ Tracks t m ∧ ∀ a v, (m a).map (·.2) = some v ↔ P a v

theorem Registers.create (h : Heap Node) :
    Registers (some (rbtreeCreate h)) fun _ _ => False := by
  refine ⟨rbtreeCreate h, fun _ => none, rfl, Tracks.create h, ?_⟩
  simp

theorem Registers.congr (hP : Registers root P) (hiff : ∀ a v, P a v ↔ Q a v) :
    Registers root Q := by
  rcases hP with ⟨t, m, hroot, hm, hmem⟩
  exact ⟨t, m, hroot, hm, fun a v => (hmem a v).trans (hiff a v)⟩

/-- What is registered is determined by the tree. -/
theorem Registers.unique (hP : Registers root P) (hQ : Registers root Q) (a v : Uptr) :
    P a v ↔ Q a v := by
  rcases hP with ⟨t, m, rfl, hm, hmem⟩
  rcases hQ with ⟨t', m', hroot, hm', hmem'⟩
  rw [Option.some.injEq] at hroot
  subst hroot
  rw [← hmem, ← hmem', hm.unique hm']

/-- A new pair. -/
theorem handleStackEnter_spec (malloc : Malloc) (hcheck : flags.noCheck = false)
    {typeTable pointer : Uptr} (allocSize : Uptr) (hP : Registers root P) :
    ∃ root', handleStackEnter flags malloc typeTable pointer allocSize root = some root' ∧
      Registers root' fun a v => if a = pointer then v = typeTable else P a v := by
  rcases hP with ⟨t, m, rfl, hm, hmem⟩
  rcases runOp_spec malloc (.insert ⟨pointer, allocSize⟩ typeTable) hm with ⟨t', hrun, hm'⟩
  refine ⟨some t', by simp [handleStackEnter, hcheck, hrun], t', _, rfl, hm', ?_⟩
  intro a v
  unfold Op.apply
  by_cases ha : a = pointer
  · simp [ha, eq_comm]
  · simpa [ha] using hmem a v

/-- An address without a pair. -/
theorem handleStackExit_spec (malloc : Malloc) (hcheck : flags.noCheck = false) (pointer : Uptr)
    (hP : Registers root P) :
    ∃ root', handleStackExit flags malloc pointer root = some root' ∧
      Registers root' fun a v => a ≠ pointer ∧ P a v := by
  rcases hP with ⟨t, m, rfl, hm, hmem⟩
  rcases runOp_spec malloc (.delete ⟨pointer, 0⟩) hm with ⟨t', hrun, hm'⟩
  refine ⟨some t', by simp [handleStackExit, hcheck, hrun], t', _, rfl, hm', ?_⟩
  intro a v
  unfold Op.apply
  by_cases ha : a = pointer
  · simp [ha]
  · simpa [ha] using hmem a v

end Caver.Runtime
