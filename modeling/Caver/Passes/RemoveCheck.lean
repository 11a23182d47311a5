import Caver.Passes.IRFunctions

/-!
# Caver.Passes.RemoveCheck — the removal of a check

* `emitTypeCastHelper`: the instructions of a check, as they are emitted.
* `removeNonSecurityCast`: the edits of the pass, in their order.
* `CheckedCast`: a cast with its check after it, and the PHI that yields its result.
* `CheckedCast.allOrNothing_iff`: when the removal is whole, or leaves the function alone.
-/

namespace Caver.Passes

/-! ## The emitted check -/

def intPtrTy : Ty := .integer 64

def int8PtrTy : Ty := .pointer 0 (.integer 8)

/-- An instruction that is emitted in the scope of a check. -/
def emitted (name : ℕ) (op : Opcode Operand) (type : Ty) : IRInstruction :=
  { name := name, op := op, type := type, metadata := ["cver_check"] }

/-- `EmitCheckValue` of pointers, one after the other: the conversions, and their values. The
conversion of a constant is a constant. -/
def emitCheckValues : (ℕ → ℕ) → List Operand → List IRInstruction × List Operand
  | _, [] => ([], [])
  | names, .constant c :: args =>
    let (conversions, values) := emitCheckValues names args
    (conversions, .constant (.ptrToInt c intPtrTy) :: values)
  | names, arg :: args =>
    let (conversions, values) := emitCheckValues (fun k => names (k + 1)) args
    (emitted (names 0) (.ptrToInt arg) intPtrTy :: conversions, .instruction (names 0) :: values)

/-- `EmitTypeCastHelper`: the conversions, and the call. The `k`th of these instructions is called
`names k`. -/
def emitTypeCastHelper (names : ℕ → ℕ) (infoPtr : Constant) (dynamicArgs : List Operand) :
    List IRInstruction × IRInstruction :=
  let (conversions, values) := emitCheckValues names dynamicArgs
  (conversions, emitted (names conversions.length)
    (.call (.constant (.bitCast infoPtr int8PtrTy) :: values)) (.integer 64))

/-! ## The removal -/

/-- What is put in the place of the call. -/
def voidCallInst (F : IRFunction) (callInst : IRInstruction) : IRInstruction :=
  { name := F.freshName, op := .ptrToInt (.constant (.int 1 callInst.type)),
    type := callInst.type, metadata := [] }

/-- `removeNonSecurityCast`. There is no result where it reads or writes out of bounds. -/
def removeNonSecurityCast (F : IRFunction) (inst : ℕ) : Option IRFunction :=
  match (F.find inst).map IRInstruction.op with
  | none => none
  | some (.phi []) => none
  | some (.phi [_]) => none
  | some (.phi (castedValue :: _ :: _)) =>
    -- the PHI is changed before the check is looked for
    let F := F.setIncomingValue inst 1 castedValue
    match castedValue with
    | .instruction actualCastInst => do
      let ptrtointInst ← F.getNextInstruction actualCastInst
      -- what follows is only read if this is an instruction of a check
      if !ptrtointInst.getMetadata "cver_check" then
        some F
      else do
        let callInst ← F.getNextInstruction ptrtointInst.name
        if !callInst.getMetadata "cver_check" || !callInst.isCall then
          some F
        else
          some ((F.replaceInstWithInst callInst.name (voidCallInst F callInst)).eraseFromParent
            ptrtointInst.name)
    | _ => some F
  | some _ => some F

def IRInstruction.isCheckCall (i : IRInstruction) : Bool :=
  i.getMetadata "cver_check" && i.isCall

section Removal

variable {F F' : IRFunction} {i a b : IRInstruction} {inst n : ℕ} {v : Operand}
  {others : List Operand}

/-- The conversion of an integer is not well-formed, whatever its type. -/
theorem not_wellFormed_of_voidCallInst {G : IRFunction}
    (h : voidCallInst G b ∈ F'.instructions) : ¬ F'.WellFormed := by
  intro hwell
  have hvisit := hwell.visited _ h
  rw [IRFunction.visit, Bool.and_eq_true] at hvisit
  have hconversion : F'.visitPtrToIntInst (.constant (.int 1 b.type)) b.type = true := hvisit.2
  rw [IRFunction.visitPtrToIntInst, Bool.and_eq_true] at hconversion
  rcases hconversion with ⟨hpointer, hinteger⟩
  change b.type.isPointer = true at hpointer
  cases htype : b.type with
  | integer bits =>
    rw [htype] at hpointer
    cases hpointer
  | _ =>
    rw [htype] at hinteger
    cases hinteger

/-- Two instructions after the cast are looked at, and the PHI has been changed by then. -/
theorem removeNonSecurityCast_eq (hphi : F.find inst = some i)
    (hop : i.op = .phi (.instruction n :: v :: others)) (ha : F.getNextInstruction n = some a)
    (hmeta : a.getMetadata "cver_check" = true) (hb : F.getNextInstruction a.name = some b) :
    ∃ a' b', (F.setIncomingValue inst 1 (.instruction n)).getNextInstruction n = some a' ∧
      (F.setIncomingValue inst 1 (.instruction n)).getNextInstruction a'.name = some b' ∧
      removeNonSecurityCast F inst = if b.isCheckCall then
        some (((F.setIncomingValue inst 1 (.instruction n)).replaceInstWithInst b'.name
          (voidCallInst (F.setIncomingValue inst 1 (.instruction n)) b')).eraseFromParent a'.name)
      else some (F.setIncomingValue inst 1 (.instruction n)) := by
  rcases IRFunction.getNextInstruction_setIncomingValue inst 1 (.instruction n) ha with
    ⟨a', ha', haname, hameta, -⟩
  rw [← haname] at hb
  rcases IRFunction.getNextInstruction_setIncomingValue inst 1 (.instruction n) hb with
    ⟨b', hb', -, hbmeta, hbcall⟩
  refine ⟨a', b', ha', hb', ?_⟩
  have hameta' : a'.getMetadata "cver_check" = true := by
    rw [IRInstruction.getMetadata, hameta]
    exact hmeta
  have hcheck : b'.isCheckCall = b.isCheckCall := by
    rw [IRInstruction.isCheckCall, IRInstruction.getMetadata, hbmeta, hbcall]
    rfl
  rw [removeNonSecurityCast, hphi, Option.map_some, hop]
  simp only [ha', hb', Option.bind_eq_bind, Option.bind_some, hameta', ← hcheck, Bool.not_true,
    if_neg Bool.false_ne_true]
  rw [IRInstruction.isCheckCall]
  cases b'.getMetadata "cver_check" with
  | false => rfl
  | true =>
    cases b'.isCall with
    | false => rfl
    | true => rfl

theorem removeNonSecurityCast_stops (hphi : F.find inst = some i)
    (hop : i.op = .phi (.instruction n :: v :: others)) (ha : F.getNextInstruction n = some a)
    (hmeta : a.getMetadata "cver_check" = true) (hb : F.getNextInstruction a.name = some b)
    (hcheck : b.isCheckCall = false) :
    removeNonSecurityCast F inst = some (F.setIncomingValue inst 1 (.instruction n)) := by
  rcases removeNonSecurityCast_eq hphi hop ha hmeta hb with ⟨a', b', -, -, heq⟩
  rw [heq, hcheck, if_neg Bool.false_ne_true]

/-- Where a check is recognised, what is put in its place is not well-formed. -/
theorem removeNonSecurityCast_replaces (hphi : F.find inst = some i)
    (hop : i.op = .phi (.instruction n :: v :: others)) (ha : F.getNextInstruction n = some a)
    (hmeta : a.getMetadata "cver_check" = true) (hb : F.getNextInstruction a.name = some b)
    (hcheck : b.isCheckCall = true) :
    ∃ F', removeNonSecurityCast F inst = some F' ∧ ¬ F'.WellFormed := by
  rcases removeNonSecurityCast_eq hphi hop ha hmeta hb with ⟨a', b', ha', hb', heq⟩
  rw [hcheck, if_pos rfl] at heq
  have ha'mem := IRFunction.mem_of_getNextInstruction ha'
  have hb'mem := IRFunction.mem_of_getNextInstruction hb'
  have hvoid : voidCallInst (F.setIncomingValue inst 1 (.instruction n)) b' ∈ _ :=
    IRFunction.mem_replaceInstWithInst hb'mem rfl rfl
      (Nat.ne_of_gt (IRFunction.lt_freshName hb'mem))
  refine ⟨_, heq, not_wellFormed_of_voidCallInst (IRFunction.mem_eraseFromParent.mpr ⟨hvoid, ?_⟩)⟩
  exact Nat.ne_of_gt (IRFunction.lt_freshName ha'mem)

end Removal

/-! ## Checked casts -/

/-- A PHI of a cast pointer and other values, in a function where the check of the cast has been
emitted after the pointer. -/
structure CheckedCast where
  F : IRFunction
  phi : IRInstruction
  castedValue : Operand
  others : List Operand
  names : ℕ → ℕ
  infoPtr : Constant
  dynamicArgs : List Operand
  blocks : List (List IRInstruction)
  before : List IRInstruction
  after : List IRInstruction
  blocks' : List (List IRInstruction)
  wellFormed : F.WellFormed
  phi_find : F.find phi.name = some phi
  phi_op : phi.op = .phi (castedValue :: others)
  blocks_eq : F.blocks = blocks ++ (before ++ (emitTypeCastHelper names infoPtr dynamicArgs).1 ++
    (emitTypeCastHelper names infoPtr dynamicArgs).2 :: after) :: blocks'
  actualCast : ∀ n, castedValue = .instruction n → ∃ before' i, before = before' ++ [i] ∧ i.name = n

namespace CheckedCast

variable (K : CheckedCast)

def conversions : List IRInstruction := (emitTypeCastHelper K.names K.infoPtr K.dynamicArgs).1

def callInst : IRInstruction := (emitTypeCastHelper K.names K.infoPtr K.dynamicArgs).2

/-- There is no call, the function is well-formed, and the PHI yields the cast pointer. -/
structure Removed (F' : IRFunction) : Prop where
  noCall : ¬ ∃ i ∈ F'.instructions, i.name = K.callInst.name ∧ i.isCall = true
  wellFormed : F'.WellFormed
  yields : ∃ i incoming, F'.find K.phi.name = some i ∧ i.op = .phi incoming ∧
    ∀ v ∈ incoming, v = K.castedValue

def AllOrNothing (F' : IRFunction) : Prop := K.Removed F' ∨ F' = K.F

/-- The second instruction after the cast is the call of a check: one argument is no constant, or
none is and the call of another check follows. -/
def Recognised : Prop :=
  (∃ n, K.castedValue = .instruction n) ∧
    (K.dynamicArgs.countP (!·.isConstant) = 1 ∨
      K.dynamicArgs.countP (!·.isConstant) = 0 ∧
        ∃ i, K.after.head? = some i ∧ i.isCheckCall = true)

/-- The function with nothing but the PHI changed. -/
def edited : IRFunction := K.F.setIncomingValue K.phi.name 1 K.castedValue

end CheckedCast

/-! ## What follows the cast -/

theorem emitCheckValues_length (names : ℕ → ℕ) (args : List Operand) :
    (emitCheckValues names args).1.length = args.countP (!·.isConstant) := by
  induction args generalizing names with
  | nil => rfl
  | cons arg args ih =>
    cases arg with
    | constant c =>
      rw [List.countP_cons_of_neg (by simp [Operand.isConstant])]
      exact ih names
    | argument number type =>
      rw [List.countP_cons_of_pos rfl]
      exact congrArg (· + 1) (ih _)
    | instruction name =>
      rw [List.countP_cons_of_pos rfl]
      exact congrArg (· + 1) (ih _)

theorem emitCheckValues_emitted (names : ℕ → ℕ) (args : List Operand) :
    ∀ i ∈ (emitCheckValues names args).1,
      i.getMetadata "cver_check" = true ∧ i.isCheckCall = false := by
  induction args generalizing names with
  | nil =>
    intro i hi
    cases hi
  | cons arg args ih =>
    cases arg with
    | constant c => exact ih names
    | argument number type =>
      intro i hi
      rcases List.mem_cons.mp hi with rfl | hmem
      · exact ⟨rfl, rfl⟩
      · exact ih _ i hmem
    | instruction name =>
      intro i hi
      rcases List.mem_cons.mp hi with rfl | hmem
      · exact ⟨rfl, rfl⟩
      · exact ih _ i hmem

namespace CheckedCast

variable (K : CheckedCast)

theorem conversions_length : K.conversions.length = K.dynamicArgs.countP (!·.isConstant) :=
  emitCheckValues_length K.names K.dynamicArgs

/-- The block does not end with the call. -/
theorem after_ne_nil : ∃ b rest, K.after = b :: rest := by
  cases hafter : K.after with
  | cons b rest => exact ⟨b, rest, rfl⟩
  | nil =>
    have hterminated := K.wellFormed.terminated
      (K.before ++ K.conversions ++ K.callInst :: K.after)
      (by rw [K.blocks_eq]; exact List.mem_append_right _ List.mem_cons_self)
    rw [hafter, List.getLast?_concat] at hterminated
    cases hterminated

/-- The two instructions that are looked at. -/
theorem following : ∃ a b rest, K.conversions ++ K.callInst :: K.after = a :: b :: rest ∧
    a.getMetadata "cver_check" = true ∧
    (b.isCheckCall = true ↔ K.conversions.length = 1 ∨
      K.conversions.length = 0 ∧ ∃ i, K.after.head? = some i ∧ i.isCheckCall = true) := by
  have hemitted : ∀ i ∈ K.conversions, i.getMetadata "cver_check" = true ∧
      i.isCheckCall = false := emitCheckValues_emitted K.names K.dynamicArgs
  cases hconversions : K.conversions with
  | nil =>
    rcases K.after_ne_nil with ⟨b, rest, hafter⟩
    refine ⟨K.callInst, b, rest, ?_, rfl, ?_⟩
    · rw [hafter]
      rfl
    · rw [hafter]
      simp
  | cons a conversions =>
    rw [hconversions] at hemitted
    have ha := (hemitted a List.mem_cons_self).1
    cases conversions with
    | nil => exact ⟨a, K.callInst, K.after, rfl, ha, by simp; rfl⟩
    | cons b conversions =>
      have hb := (hemitted b (List.mem_cons_of_mem _ List.mem_cons_self)).2
      refine ⟨a, b, _, rfl, ha, ?_⟩
      rw [hb]
      simp

theorem getNextInstruction (n : ℕ) (hcast : K.castedValue = .instruction n) :
    ∃ a b, K.F.getNextInstruction n = some a ∧ K.F.getNextInstruction a.name = some b ∧
      a.getMetadata "cver_check" = true ∧ (b.isCheckCall = true ↔ K.Recognised) := by
  rcases K.following with ⟨a, b, rest, hfollowing, hmeta, hcheck⟩
  rcases K.actualCast n hcast with ⟨before, i, hbefore, rfl⟩
  have hblocks : K.F.blocks = K.blocks ++ (before ++ i :: a :: b :: rest) :: K.blocks' := by
    rw [K.blocks_eq, ← hfollowing, hbefore]
    simp [conversions, callInst]
  refine ⟨a, b, IRFunction.getNextInstruction_eq K.wellFormed.nodup hblocks, ?_, hmeta, ?_⟩
  · have hblocks' : K.F.blocks = K.blocks ++ ((before ++ [i]) ++ a :: b :: rest) :: K.blocks' := by
      rw [hblocks, List.append_assoc, List.singleton_append]
    exact IRFunction.getNextInstruction_eq K.wellFormed.nodup hblocks'
  · rw [hcheck, K.conversions_length]
    constructor
    · intro h
      exact ⟨⟨_, hcast⟩, h⟩
    · intro h
      exact h.2

/-! ## What the removal does -/

theorem find_edited :
    K.edited.find K.phi.name = some (K.phi.setIncomingValue 1 K.castedValue) := by
  rw [edited, IRFunction.find_setIncomingValue, K.phi_find, Option.map_some, if_pos rfl]

/-- The PHI has been changed, unless it yields the cast pointer in the second place too. -/
theorem edited_eq_iff {v : Operand} {others : List Operand} (hothers : K.others = v :: others) :
    K.edited = K.F ↔ v = K.castedValue := by
  have hphi : K.phi.setIncomingValue 1 K.castedValue =
      { K.phi with op := .phi (K.castedValue :: K.castedValue :: others) } := by
    rw [IRInstruction.setIncomingValue, K.phi_op, hothers]
    rfl
  constructor
  · intro heq
    have hfind := K.find_edited
    rw [heq, K.phi_find, hphi, Option.some.injEq] at hfind
    have hop := K.phi_op
    rw [hothers, hfind] at hop
    injection hop with hincoming
    exact (List.cons.inj (List.cons.inj hincoming).2).1.symm
  · rintro rfl
    apply IRFunction.mapInstructions_eq_self
    intro i hi
    split
    · rename_i hname
      rw [IRFunction.eq_of_find K.wellFormed.nodup K.phi_find hi hname, hphi, ← hothers,
        ← K.phi_op]
    · rfl

/-- The call is still there. -/
theorem not_removed_edited : ¬ K.Removed K.edited := by
  intro hremoved
  have hcall : K.callInst ∈ K.F.instructions := by
    rw [IRFunction.instructions, K.blocks_eq]
    simp [callInst]
  rcases IRFunction.mem_setIncomingValue K.phi.name 1 K.castedValue hcall with
    ⟨i, hi, hname, -, hiscall⟩
  exact hremoved.noCall ⟨i, hi, hname, hiscall⟩

theorem removal_of_recognised {v : Operand} {others : List Operand}
    (hothers : K.others = v :: others) (h : K.Recognised) :
    ∃ F', removeNonSecurityCast K.F K.phi.name = some F' ∧ ¬ F'.WellFormed := by
  rcases h.1 with ⟨n, hcast⟩
  rcases K.getNextInstruction n hcast with ⟨a, b, ha, hb, hmeta, hcheck⟩
  have hop := K.phi_op
  rw [hothers, hcast] at hop
  exact removeNonSecurityCast_replaces K.phi_find hop ha hmeta hb (hcheck.mpr h)

theorem removal_of_not_recognised {v : Operand} {others : List Operand}
    (hothers : K.others = v :: others) (h : ¬ K.Recognised) :
    removeNonSecurityCast K.F K.phi.name = some K.edited := by
  have hop := K.phi_op
  rw [hothers] at hop
  cases hcast : K.castedValue with
  | instruction n =>
    rcases K.getNextInstruction n hcast with ⟨a, b, ha, hb, hmeta, hcheck⟩
    rw [hcast] at hop
    rw [edited, hcast]
    exact removeNonSecurityCast_stops K.phi_find hop ha hmeta hb
      (eq_false_of_ne_true fun hb' => h (hcheck.mp hb'))
  | argument number type =>
    rw [hcast] at hop
    rw [removeNonSecurityCast, K.phi_find, Option.map_some, hop, edited, hcast]
  | constant c =>
    rw [hcast] at hop
    rw [removeNonSecurityCast, K.phi_find, Option.map_some, hop, edited, hcast]

theorem removal_out_of_bounds (hothers : K.others = []) :
    removeNonSecurityCast K.F K.phi.name = none := by
  rw [removeNonSecurityCast, K.phi_find, Option.map_some, K.phi_op, hothers]

/-- The removal is all or nothing exactly where it is nothing: the PHI yields the cast pointer in
the second place before, and the check is not recognised. -/
theorem allOrNothing_iff :
    (∃ F', removeNonSecurityCast K.F K.phi.name = some F' ∧ K.AllOrNothing F') ↔
      K.others.head? = some K.castedValue ∧ ¬ K.Recognised := by
  cases hothers : K.others with
  | nil =>
    rw [K.removal_out_of_bounds hothers]
    simp
  | cons v others =>
    rw [List.head?_cons, Option.some.injEq]
    by_cases hrecognised : K.Recognised
    · rcases K.removal_of_recognised hothers hrecognised with ⟨F', hremoval, hill⟩
      constructor
      · rintro ⟨F'', hremoval', hall⟩
        rw [hremoval, Option.some.injEq] at hremoval'
        subst hremoval'
        rcases hall with hremoved | rfl
        · exact absurd hremoved.wellFormed hill
        · exact absurd K.wellFormed hill
      · intro h
        exact absurd hrecognised h.2
    · have hremoval := K.removal_of_not_recognised hothers hrecognised
      constructor
      · rintro ⟨F', hremoval', hall⟩
        rw [hremoval, Option.some.injEq] at hremoval'
        subst hremoval'
        rcases hall with hremoved | heq
        · exact absurd hremoved K.not_removed_edited
        · exact ⟨(K.edited_eq_iff hothers).mp heq, hrecognised⟩
      · intro h
        exact ⟨K.edited, hremoval, Or.inr ((K.edited_eq_iff hothers).mpr h.1)⟩

/-! ### The cast of the file's comment -/

def grandParentTy : Ty := .pointer 0 (.struct "class.foo::GrandParent")

def parentTy : Ty := .pointer 0 (.struct "class.foo::Parent")

def infoTy : Ty := .pointer 0 (.struct "")

def parentCast : List IRInstruction := [
  ⟨1, .load (.argument 0 (.pointer 0 grandParentTy)), grandParentTy, []⟩,
  ⟨2, .bitCast (.instruction 1), parentTy, ["cver_static_cast"]⟩]

def parentBranch : List IRInstruction := [
  ⟨6, .other [.instruction 5, .constant (.int 0 (.integer 64))], .integer 1, ["cver_nullify"]⟩,
  ⟨7, .other [.instruction 6], .void, ["cver_nullify"]⟩]

def parentPhi : IRInstruction :=
  ⟨10, .phi [.instruction 2, .constant (.null parentTy)], parentTy, ["cver_nullify"]⟩

def parentResult : List (List IRInstruction) := [
  [⟨8, .other [], .void, ["cver_nullify"]⟩],
  [⟨9, .other [], .void, ["cver_nullify"]⟩],
  [parentPhi, ⟨11, .ret (some (.instruction 10)), .void, []⟩]]

/-- With the two arguments that `EmitTypeCastCheck` passes. -/
def ofParent : CheckedCast where
  F := ⟨(parentCast ++ [
      ⟨3, .ptrToInt (.instruction 1), .integer 64, ["cver_check"]⟩,
      ⟨4, .ptrToInt (.instruction 2), .integer 64, ["cver_check"]⟩,
      ⟨5, .call [.constant (.bitCast (.globalVariable "3" infoTy) int8PtrTy), .instruction 3,
        .instruction 4], .integer 64, ["cver_check"]⟩] ++ parentBranch) :: parentResult⟩
  phi := parentPhi
  castedValue := .instruction 2
  others := [.constant (.null parentTy)]
  names := (· + 3)
  infoPtr := .globalVariable "3" infoTy
  dynamicArgs := [.instruction 1, .instruction 2]
  blocks := []
  before := parentCast
  after := parentBranch
  blocks' := parentResult
  wellFormed := ⟨by decide, by decide, by decide⟩
  phi_find := rfl
  phi_op := rfl
  blocks_eq := rfl
  actualCast := by
    intro n hn
    injection hn with hn
    exact ⟨[_], _, rfl, hn⟩

/-- The call stays, and the result of the cast is the pointer whatever the call returns. -/
theorem check_half_removed : ¬ ∃ F', removeNonSecurityCast ofParent.F ofParent.phi.name = some F' ∧
    ofParent.AllOrNothing F' := by
  rintro ⟨F', hremoval, hall⟩
  have hrecognised : ¬ ofParent.Recognised := by
    rintro ⟨-, hone | hnone⟩
    · exact absurd hone (by decide)
    · exact absurd hnone.1 (by decide)
  rw [ofParent.removal_of_not_recognised rfl hrecognised, Option.some.injEq] at hremoval
  subst hremoval
  rcases hall with hremoved | heq
  · exact ofParent.not_removed_edited hremoved
  · have hsecond := (ofParent.edited_eq_iff rfl).mp heq
    cases hsecond

end CheckedCast

end Caver.Passes
