import Mathlib.Data.List.Nodup
import Caver.Passes.IR

/-!
# Caver.Passes.IRFunctions — functions that are edited

* `IRFunction`: blocks of instructions, which refer to one another by their names.
* `getNextInstruction`, `setIncomingValue`, `replaceInstWithInst`, `eraseFromParent`: the steps and
  edits of a pass.
* `WellFormed`: what the verifier asks of a function, as far as such edits touch it.
-/

namespace Caver.Passes

/-! ## Functions -/

inductive Constant where
  | int (value : ℕ) (type : Ty)
  | null (type : Ty)
  | globalVariable (name : String) (type : Ty)
  | bitCast (value : Constant) (type : Ty)
  | ptrToInt (value : Constant) (type : Ty)
deriving DecidableEq, Repr

def Constant.type : Constant → Ty
  | .int _ type | .null type | .globalVariable _ type | .bitCast _ type | .ptrToInt _ type => type

inductive Operand where
  | argument (number : ℕ) (type : Ty)
  | constant (c : Constant)
  | instruction (name : ℕ)
deriving DecidableEq, Repr

def Operand.isConstant : Operand → Bool
  | .constant _ => true
  | _ => false

/-- The name stands for the object: no two instructions have the same. -/
structure IRInstruction where
  name : ℕ
  op : Opcode Operand
  type : Ty
  metadata : List String
deriving DecidableEq, Repr

namespace IRInstruction

def getMetadata (i : IRInstruction) (kind : String) : Bool := i.metadata.contains kind

def isCall (i : IRInstruction) : Bool :=
  match i.op with
  | .call _ => true
  | _ => false

/-- `PHINode::setIncomingValue`. -/
def setIncomingValue (i : IRInstruction) (k : ℕ) (v : Operand) : IRInstruction :=
  match i.op with
  | .phi incoming => { i with op := .phi (incoming.set k v) }
  | _ => i

def replaceUsesOf (i : IRInstruction) (name : ℕ) (v : Operand) : IRInstruction :=
  { i with op := i.op.map fun w => if w = .instruction name then v else w }

end IRInstruction

structure IRFunction where
  blocks : List (List IRInstruction)
deriving DecidableEq, Repr

/-- The instruction after the one of this name. -/
def nextAfter (name : ℕ) : List IRInstruction → Option IRInstruction
  | [] => none
  | i :: rest => if i.name = name then rest.head? else nextAfter name rest

namespace IRFunction

def instructions (F : IRFunction) : List IRInstruction := F.blocks.flatten

def names (F : IRFunction) : List ℕ := F.instructions.map (·.name)

def find (F : IRFunction) (name : ℕ) : Option IRInstruction :=
  F.instructions.find? (·.name == name)

def typeOf (F : IRFunction) : Operand → Option Ty
  | .argument _ type => some type
  | .constant c => some c.type
  | .instruction name => (F.find name).map (·.type)

/-- `getNextInstruction`. At the end of a block there is none, and the pass reads past it. -/
def getNextInstruction (F : IRFunction) (name : ℕ) : Option IRInstruction :=
  F.blocks.findSome? (nextAfter name)

def freshName (F : IRFunction) : ℕ := F.names.foldr max 0 + 1

/-! ## Edits -/

def mapInstructions (f : IRInstruction → IRInstruction) (F : IRFunction) : IRFunction :=
  ⟨F.blocks.map (·.map f)⟩

def setIncomingValue (F : IRFunction) (phi k : ℕ) (v : Operand) : IRFunction :=
  F.mapInstructions fun i => if i.name = phi then i.setIncomingValue k v else i

def insertBefore (F : IRFunction) (name : ℕ) (new : IRInstruction) : IRFunction :=
  ⟨F.blocks.map (·.flatMap fun i => if i.name = name then [new, i] else [i])⟩

def replaceAllUsesWith (F : IRFunction) (name : ℕ) (v : Operand) : IRFunction :=
  F.mapInstructions (·.replaceUsesOf name v)

def eraseFromParent (F : IRFunction) (name : ℕ) : IRFunction :=
  ⟨F.blocks.map (·.filter (·.name ≠ name))⟩

/-- `ReplaceInstWithInst`. -/
def replaceInstWithInst (F : IRFunction) (name : ℕ) (new : IRInstruction) : IRFunction :=
  ((F.insertBefore name new).replaceAllUsesWith name (.instruction new.name)).eraseFromParent name

/-! ## The verifier -/

/-- `visitPtrToIntInst`, for scalars. -/
def visitPtrToIntInst (F : IRFunction) (value : Operand) (type : Ty) : Bool :=
  (F.typeOf value).any Ty.isPointer && type.isInteger

/-- `visitPHINode`. -/
def visitPHINode (F : IRFunction) (incoming : List Operand) (type : Ty) : Bool :=
  incoming.all fun v => F.typeOf v = some type

/-- Every operand is in the function. -/
def visitInstruction (F : IRFunction) (i : IRInstruction) : Bool :=
  i.op.operands.all fun v => (F.typeOf v).isSome

def visit (F : IRFunction) (i : IRInstruction) : Bool :=
  F.visitInstruction i &&
    match i.op with
    | .ptrToInt value => F.visitPtrToIntInst value i.type
    | .phi incoming => F.visitPHINode incoming i.type
    | _ => true

structure WellFormed (F : IRFunction) : Prop where
  nodup : F.names.Nodup
  terminated : ∀ block ∈ F.blocks, block.getLast?.any (·.op.mayTerminate) = true
  visited : ∀ i ∈ F.instructions, F.visit i = true

end IRFunction

/-! ## What an edit keeps -/

/-- An incoming value that is set changes neither the name, nor the metadata, nor the kind. -/
theorem IRInstruction.setIncomingValue_keeps (i : IRInstruction) (phi k : ℕ) (v : Operand) :
    (if i.name = phi then i.setIncomingValue k v else i).name = i.name ∧
      (if i.name = phi then i.setIncomingValue k v else i).metadata = i.metadata ∧
      (if i.name = phi then i.setIncomingValue k v else i).isCall = i.isCall := by
  unfold setIncomingValue isCall
  by_cases hname : i.name = phi
  · rw [if_pos hname]
    split
    · rename_i hop
      refine ⟨rfl, rfl, ?_⟩
      rw [hop]
    · exact ⟨rfl, rfl, rfl⟩
  · rw [if_neg hname]
    exact ⟨rfl, rfl, rfl⟩

namespace IRFunction

variable {F : IRFunction} {i j new : IRInstruction} {name : ℕ} {f : IRInstruction → IRInstruction}

theorem find_some (h : F.find name = some i) : i ∈ F.instructions ∧ i.name = name := by
  constructor
  · exact List.mem_of_find?_eq_some h
  · simpa using List.find?_some h

theorem eq_of_find (hnodup : F.names.Nodup) (h : F.find name = some j) (hi : i ∈ F.instructions)
    (hname : i.name = name) : i = j := by
  rcases find_some h with ⟨hj, hjname⟩
  exact List.inj_on_of_nodup_map hnodup hi hj (hname.trans hjname.symm)

theorem instructions_mapInstructions :
    (F.mapInstructions f).instructions = F.instructions.map f := by
  rw [instructions, mapInstructions, instructions, List.map_flatten]

theorem find_mapInstructions (hf : ∀ i, (f i).name = i.name) :
    (F.mapInstructions f).find name = (F.find name).map f := by
  have hname : (fun i : IRInstruction => i.name == name) ∘ f = fun i => i.name == name := by
    funext i
    rw [Function.comp_apply, hf i]
  rw [find, instructions_mapInstructions, List.find?_map, hname, find]

theorem find_setIncomingValue (phi k : ℕ) (v : Operand) :
    (F.setIncomingValue phi k v).find name =
      (F.find name).map fun i => if i.name = phi then i.setIncomingValue k v else i :=
  find_mapInstructions fun i => (i.setIncomingValue_keeps phi k v).1

theorem mem_setIncomingValue (phi k : ℕ) (v : Operand) (h : i ∈ F.instructions) :
    ∃ i' ∈ (F.setIncomingValue phi k v).instructions,
      i'.name = i.name ∧ i'.metadata = i.metadata ∧ i'.isCall = i.isCall := by
  refine ⟨_, ?_, i.setIncomingValue_keeps phi k v⟩
  rw [setIncomingValue, instructions_mapInstructions]
  exact List.mem_map_of_mem h

theorem mapInstructions_eq_self (h : ∀ i ∈ F.instructions, f i = i) : F.mapInstructions f = F := by
  have hblock : ∀ block ∈ F.blocks, block.map f = block := by
    intro block hblock
    rw [List.map_congr_left fun i hi => h i (List.mem_flatten_of_mem hblock hi), List.map_id']
  rw [mapInstructions, List.map_congr_left hblock, List.map_id']

theorem mem_insertBefore (hj : j ∈ F.instructions) (hname : j.name = name) :
    new ∈ (F.insertBefore name new).instructions := by
  rcases List.mem_flatten.mp hj with ⟨block, hblock, hjblock⟩
  apply List.mem_flatten.mpr
  refine ⟨_, List.mem_map_of_mem hblock, List.mem_flatMap.mpr ⟨j, hjblock, ?_⟩⟩
  rw [if_pos hname]
  exact List.mem_cons_self

theorem mem_eraseFromParent :
    i ∈ (F.eraseFromParent name).instructions ↔ i ∈ F.instructions ∧ i.name ≠ name := by
  rw [instructions, eraseFromParent, ← List.filter_flatten, List.mem_filter, decide_eq_true_eq,
    instructions]

/-- A conversion of a constant that is put in the place of an instruction is there. -/
theorem mem_replaceInstWithInst {c : Constant} (hj : j ∈ F.instructions) (hname : j.name = name)
    (hop : new.op = .ptrToInt (.constant c)) (hnew : new.name ≠ name) :
    new ∈ (F.replaceInstWithInst name new).instructions := by
  have hsame : new.replaceUsesOf name (.instruction new.name) = new := by
    rw [IRInstruction.replaceUsesOf, hop, Opcode.map, if_neg (by simp), ← hop]
  apply mem_eraseFromParent.mpr
  constructor
  · rw [replaceAllUsesWith, instructions_mapInstructions]
    exact List.mem_map.mpr ⟨new, mem_insertBefore hj hname, hsame⟩
  · exact hnew

theorem lt_freshName (hi : i ∈ F.instructions) : i.name < F.freshName := by
  have hle : ∀ l : List ℕ, ∀ n ∈ l, n ≤ l.foldr max 0 := by
    intro l
    induction l with
    | nil =>
      intro n hn
      cases hn
    | cons a l ih =>
      intro n hn
      rw [List.foldr_cons]
      rcases List.mem_cons.mp hn with rfl | hmem
      · exact Nat.le_max_left _ _
      · exact Nat.le_trans (ih n hmem) (Nat.le_max_right _ _)
  exact Nat.lt_succ_of_le (hle _ _ (List.mem_map_of_mem hi))

/-! ## The next instruction -/

theorem nextAfter_map (hf : ∀ i, (f i).name = i.name) (l : List IRInstruction) :
    nextAfter name (l.map f) = (nextAfter name l).map f := by
  induction l with
  | nil => rfl
  | cons i l ih =>
    rw [List.map_cons, nextAfter, nextAfter, hf i]
    by_cases hname : i.name = name
    · rw [if_pos hname, if_pos hname, List.head?_map]
    · rw [if_neg hname, if_neg hname, ih]

theorem nextAfter_append {l : List IRInstruction} (h : name ∉ l.map (·.name))
    (rest : List IRInstruction) : nextAfter name (l ++ rest) = nextAfter name rest := by
  induction l with
  | nil => rfl
  | cons i l ih =>
    rw [List.map_cons, List.mem_cons, not_or] at h
    rw [List.cons_append, nextAfter, if_neg (Ne.symm h.1), ih h.2]

theorem getNextInstruction_mapInstructions (hf : ∀ i, (f i).name = i.name) :
    (F.mapInstructions f).getNextInstruction name = (F.getNextInstruction name).map f := by
  rw [getNextInstruction, mapInstructions, getNextInstruction]
  induction F.blocks with
  | nil => rfl
  | cons block blocks ih =>
    rw [List.map_cons, List.findSome?_cons, List.findSome?_cons, nextAfter_map hf, ih]
    cases nextAfter name block with
    | none => rfl
    | some j => rfl

theorem mem_of_nextAfter {l : List IRInstruction} (h : nextAfter name l = some j) : j ∈ l := by
  induction l with
  | nil => cases h
  | cons i l ih =>
    rw [nextAfter] at h
    by_cases hname : i.name = name
    · rw [if_pos hname] at h
      exact List.mem_cons_of_mem _ (List.mem_of_head? h)
    · rw [if_neg hname] at h
      exact List.mem_cons_of_mem _ (ih h)

theorem mem_of_getNextInstruction (h : F.getNextInstruction name = some j) :
    j ∈ F.instructions := by
  rcases List.exists_of_findSome?_eq_some h with ⟨block, hblock, hnext⟩
  exact List.mem_flatten_of_mem hblock (mem_of_nextAfter hnext)

/-- In a function without a name twice, the next instruction is the next in its block. -/
theorem getNextInstruction_eq (hnodup : F.names.Nodup) {blocks blocks' : List (List IRInstruction)}
    {before after : List IRInstruction}
    (h : F.blocks = blocks ++ (before ++ i :: j :: after) :: blocks') :
    F.getNextInstruction i.name = some j := by
  have hnames : F.names = blocks.flatten.map (·.name) ++ (before.map (·.name) ++
      (i.name :: ((j :: after) ++ blocks'.flatten).map (·.name))) := by
    rw [names, instructions, h]
    simp
  rw [hnames, List.nodup_append] at hnodup
  have hbefore : i.name ∉ before.map (·.name) := by
    intro hmem
    exact (List.nodup_append.mp hnodup.2.1).2.2 _ hmem _ List.mem_cons_self rfl
  have hblocks : ∀ block ∈ blocks, nextAfter i.name block = none := by
    intro block hblock
    have hnot : i.name ∉ block.map (·.name) := by
      intro hmem
      rcases List.mem_map.mp hmem with ⟨k, hk, hname⟩
      refine hnodup.2.2 k.name (List.mem_map_of_mem (List.mem_flatten_of_mem hblock hk)) i.name ?_
        hname
      exact List.mem_append_right _ List.mem_cons_self
    have hnext := nextAfter_append hnot []
    rwa [List.append_nil] at hnext
  rw [getNextInstruction, h, List.findSome?_append, List.findSome?_eq_none_iff.mpr hblocks,
    Option.none_or, List.findSome?_cons, nextAfter_append hbefore, nextAfter, if_pos rfl]
  rfl

theorem getNextInstruction_setIncomingValue (phi k : ℕ) (v : Operand)
    (h : F.getNextInstruction name = some i) :
    ∃ i', (F.setIncomingValue phi k v).getNextInstruction name = some i' ∧
      i'.name = i.name ∧ i'.metadata = i.metadata ∧ i'.isCall = i.isCall := by
  refine ⟨_, ?_, i.setIncomingValue_keeps phi k v⟩
  rw [setIncomingValue,
    getNextInstruction_mapInstructions fun i => (i.setIncomingValue_keeps phi k v).1, h,
    Option.map_some]

end IRFunction

end Caver.Passes
