import Mathlib.Data.List.Basic

/-!
# Caver.Passes.IR — types and instructions

* `Ty`: the types that the passes compare.
* `Opcode`: the kinds of instructions, with operands of any kind.
-/

namespace Caver.Passes

inductive Ty where
  | void
  | integer (bits : ℕ)
  | pointer (addrSpace : ℕ) (pointee : Ty)
  | struct (name : String)
deriving DecidableEq, Repr

/-- `getIntegerBitWidth`, which without assertions reads what a type keeps beside its kind. -/
def Ty.getIntegerBitWidth : Ty → ℕ
  | .integer bits => bits
  | .pointer addrSpace _ => addrSpace
  | _ => 0

def Ty.isPointer : Ty → Bool
  | .pointer _ _ => true
  | _ => false

def Ty.pointee : Ty → Option Ty
  | .pointer _ pointee => some pointee
  | _ => none

def Ty.isInteger : Ty → Bool
  | .integer _ => true
  | _ => false

section Opcode

variable {α : Type}

inductive Opcode (α : Type) where
  | alloca
  | load (ptr : α)
  | store (value ptr : α)
  | bitCast (value : α)
  | ptrToInt (value : α)
  | getElementPtr (ptr : α) (indices : List α)
  | phi (incoming : List α)
  | select (condition trueValue falseValue : α)
  | ret (value : Option α)
  | call (operands : List α)
  | invoke (operands : List α)
  | other (operands : List α)
deriving DecidableEq, Repr

def Opcode.operands : Opcode α → List α
  | .alloca => []
  | .load ptr => [ptr]
  | .store value ptr => [value, ptr]
  | .bitCast value => [value]
  | .ptrToInt value => [value]
  | .getElementPtr ptr indices => ptr :: indices
  | .phi incoming => incoming
  | .select condition trueValue falseValue => [condition, trueValue, falseValue]
  | .ret value => value.toList
  | .call operands => operands
  | .invoke operands => operands
  | .other operands => operands

/-- Branches are among the other instructions. -/
def Opcode.mayTerminate : Opcode α → Bool
  | .ret _ | .invoke _ | .other _ => true
  | _ => false

def Opcode.map {β : Type} (f : α → β) : Opcode α → Opcode β
  | .alloca => .alloca
  | .load ptr => .load (f ptr)
  | .store value ptr => .store (f value) (f ptr)
  | .bitCast value => .bitCast (f value)
  | .ptrToInt value => .ptrToInt (f value)
  | .getElementPtr ptr indices => .getElementPtr (f ptr) (indices.map f)
  | .phi incoming => .phi (incoming.map f)
  | .select condition trueValue falseValue => .select (f condition) (f trueValue) (f falseValue)
  | .ret value => .ret (value.map f)
  | .call operands => .call (operands.map f)
  | .invoke operands => .invoke (operands.map f)
  | .other operands => .other (operands.map f)

end Opcode

end Caver.Passes
