import Caver.Runtime.HandleCast
import Caver.Runtime.RbTreeLookup
import Caver.Runtime.StackRegistry

/-!
# Caver.Runtime.Variables — objects on the stack and globals

The trees hold the objects that have a variable. These have bytes, and no two of them
have one in common.

* `HoldsVars r vs`: the tree has the objects `vs` and no others. It is kept by the hooks
  (`handleStackEnter_holds`, `handleStackExit_holds`, `handleGlobalVar_holds`).
* `HoldsVars.lookup`, `HoldsVars.lookup_none`: what a cast finds.
-/

namespace Caver.Runtime

open Caver.Core

/-! ## Objects that are apart -/

/-- An object with a variable, and the arguments of its hooks. -/
structure Var where
  address : Uptr
  typeTable : Uptr
  allocSize : Uptr
deriving DecidableEq, Repr

/-- The object has bytes, and they do not wrap. -/
def Var.Ok (v : Var) : Prop :=
  v.allocSize ≠ 0 ∧ v.address.toNat + v.allocSize.toNat < 2 ^ 64

def Var.Apart (v v' : Var) : Prop :=
  v.address.toNat + v.allocSize.toNat ≤ v'.address.toNat ∨
    v'.address.toNat + v'.allocSize.toNat ≤ v.address.toNat

instance : Std.Symm Var.Apart := ⟨fun _ _ h => Or.symm h⟩

/-- The address is one of the object's bytes. -/
def Var.Contains (v : Var) (p : Uptr) : Prop :=
  v.address.toNat ≤ p.toNat ∧ p.toNat < v.address.toNat + v.allocSize.toNat

instance (v : Var) (p : Uptr) : Decidable (v.Contains p) := inferInstanceAs (Decidable (_ ∧ _))

/-- The objects are in place. -/
structure VarsOk (vs : List Var) : Prop where
  ok : ∀ v ∈ vs, v.Ok
  apart : vs.Pairwise Var.Apart

variable {vs vs' : List Var} {v v' : Var} {r r' : RbTree} {m : Entries} {p : Uptr}
  {flags : Flags} {root : Option RbTree}

theorem Var.Ok.pos (h : v.Ok) : 0 < v.allocSize.toNat :=
  Nat.pos_of_ne_zero fun hz => h.1 (UInt64.toNat_inj.mp hz)

theorem VarsOk.nil : VarsOk [] :=
  ⟨fun _ hv => absurd hv List.not_mem_nil, List.Pairwise.nil⟩

theorem VarsOk.cons (h : VarsOk vs) (hok : v.Ok) (hapart : ∀ v' ∈ vs, v.Apart v') :
    VarsOk (v :: vs) :=
  ⟨List.forall_mem_cons.mpr ⟨hok, h.ok⟩, List.pairwise_cons.mpr ⟨hapart, h.apart⟩⟩

theorem VarsOk.sublist (h : VarsOk vs) (hsub : vs'.Sublist vs) : VarsOk vs' :=
  ⟨fun v hv => h.ok v (hsub.subset hv), h.apart.sublist hsub⟩

/-- Objects that are apart start at different addresses. -/
theorem Var.Apart.address_ne (h : v.Apart v') (hv : v.Ok) (hv' : v'.Ok) :
    v.address ≠ v'.address := by
  intro heq
  have h₁ := hv.pos
  have h₂ := hv'.pos
  unfold Var.Apart at h
  rw [heq] at h
  omega

theorem VarsOk.address_inj (h : VarsOk vs) (hv : v ∈ vs) (hv' : v' ∈ vs)
    (heq : v.address = v'.address) : v = v' := by
  by_contra hne
  exact (h.apart.forall hv hv' hne).address_ne (h.ok v hv) (h.ok v' hv') heq

theorem VarsOk.nodup (h : VarsOk vs) : vs.Nodup := by
  refine h.apart.imp_of_mem fun {x y} hx hy hxy heq => ?_
  exact hxy.address_ne (h.ok x hx) (h.ok y hy) (congrArg Var.address heq)

/-! ## Entries of a tree -/

/-- The entries of the objects. -/
def entriesOfVars (vs : List Var) : Entries := fun a =>
  (vs.find? (·.address == a)).map fun v => (v.allocSize, v.typeTable)

theorem entriesOfVars_iff (h : VarsOk vs) (a size table : Uptr) :
    entriesOfVars vs a = some (size, table) ↔ (⟨a, table, size⟩ : Var) ∈ vs := by
  unfold entriesOfVars
  rw [Option.map_eq_some_iff]
  constructor
  · rintro ⟨v, hfind, heq⟩
    have haddr : v.address = a := by simpa using List.find?_some hfind
    have hmem := List.mem_of_find?_eq_some hfind
    cases heq
    subst haddr
    exact hmem
  · intro hmem
    obtain ⟨v, hfind⟩ : ∃ v, vs.find? (·.address == a) = some v := by
      rw [← Option.isSome_iff_exists, List.find?_isSome]
      exact ⟨_, hmem, beq_self_eq_true a⟩
    have haddr : v.address = a := by simpa using List.find?_some hfind
    have hv : v = ⟨a, table, size⟩ :=
      h.address_inj (List.mem_of_find?_eq_some hfind) hmem haddr
    exact ⟨v, hfind, by rw [hv]⟩

/-- A new object is inserted. -/
theorem entriesOfVars_cons (h : VarsOk (v :: vs)) : entriesOfVars (v :: vs) =
    (Op.insert ⟨v.address, v.allocSize⟩ v.typeTable).apply (entriesOfVars vs) := by
  have hnone : entriesOfVars vs v.address = none := by
    unfold entriesOfVars
    rw [Option.map_eq_none_iff, List.find?_eq_none]
    intro v' hv' heq
    have happart := (List.pairwise_cons.mp h.apart).1 v' hv'
    have hne := happart.address_ne (h.ok v List.mem_cons_self)
      (h.ok v' (List.mem_cons_of_mem _ hv'))
    exact hne (eq_of_beq heq).symm
  funext a
  unfold Op.apply
  by_cases ha : a = v.address
  · subst ha
    simp only [hnone, Option.elim_none, if_true]
    unfold entriesOfVars
    rw [List.find?_cons, beq_self_eq_true]
    rfl
  · have hne : (v.address == a) = false := beq_eq_false_iff_ne.mpr (Ne.symm ha)
    simp [ha, entriesOfVars, hne]

/-- The address of an object is deleted. -/
theorem entriesOfVars_erase (h : VarsOk vs) (hv : v ∈ vs) :
    entriesOfVars (vs.erase v) = (Op.delete ⟨v.address, 0⟩).apply (entriesOfVars vs) := by
  have hsub := h.sublist (List.erase_sublist (a := v) (l := vs))
  funext a
  apply Option.ext
  rintro ⟨size, table⟩
  rw [entriesOfVars_iff hsub, h.nodup.mem_erase_iff]
  unfold Op.apply
  by_cases ha : a = v.address
  · simp only [ha, if_true]
    constructor
    · rintro ⟨hne, hmem⟩
      exact absurd (h.address_inj hmem hv rfl) hne
    · exact fun hnone => absurd hnone (by simp)
  · simp only [ha, if_false]
    rw [entriesOfVars_iff h]
    refine and_iff_right fun heq => ha ?_
    rw [← heq]

theorem VarsOk.entries_apart (h : VarsOk vs) : Apart (entriesOfVars vs) := by
  intro a size table ha
  have hmem := (entriesOfVars_iff h a size table).mp ha
  refine ⟨(h.ok _ hmem).2, fun b size' table' hb hab => ?_⟩
  have hmem' := (entriesOfVars_iff h b size' table').mp hb
  by_contra hne
  have happart : Var.Apart ⟨a, table, size⟩ ⟨b, table', size'⟩ := by
    refine h.apart.forall hmem hmem' fun heq => hne ?_
    exact (congrArg Var.address heq).symm
  have hpos := (h.ok _ hmem').pos
  simp only [Key.Contains] at hab
  unfold Var.Apart at happart
  dsimp only at happart hpos
  omega

/-! ## Trees of objects -/

/-- The tree has the objects and no others. -/
structure HoldsVars (r : RbTree) (vs : List Var) : Prop where
  vars : VarsOk vs
  tracks : Tracks r (entriesOfVars vs)

theorem HoldsVars.create (h : Heap Node) : HoldsVars (rbtreeCreate h) [] :=
  ⟨VarsOk.nil, Tracks.create h⟩

theorem HoldsVars.insert (h : HoldsVars r vs) (malloc : Malloc) (hvs : VarsOk (v :: vs)) :
    ∃ r', runOp malloc r (.insert ⟨v.address, v.allocSize⟩ v.typeTable) = some r' ∧
      HoldsVars r' (v :: vs) := by
  rcases runOp_spec malloc (.insert ⟨v.address, v.allocSize⟩ v.typeTable) h.tracks with
      ⟨r', hrun, hr'⟩
  rw [← entriesOfVars_cons hvs] at hr'
  exact ⟨r', hrun, hvs, hr'⟩

theorem HoldsVars.delete (h : HoldsVars r vs) (malloc : Malloc) (hv : v ∈ vs) :
    ∃ r', runOp malloc r (.delete ⟨v.address, 0⟩) = some r' ∧ HoldsVars r' (vs.erase v) := by
  rcases runOp_spec malloc (.delete ⟨v.address, 0⟩) h.tracks with ⟨r', hrun, hr'⟩
  rw [← entriesOfVars_erase h.vars hv] at hr'
  exact ⟨r', hrun, h.vars.sublist List.erase_sublist, hr'⟩

/-- A pointer into an object leads to its table and its address. -/
theorem HoldsVars.lookup (h : HoldsVars r vs) (hv : v ∈ vs) (hp : v.Contains p) :
    lookupObject r p = some (if v.typeTable = 0 then none
      else some ⟨v.typeTable, 0, 0, v.address⟩) := by
  have hentry : entriesOfVars vs v.address = some (v.allocSize, v.typeTable) :=
    (entriesOfVars_iff h.vars _ _ _).mpr hv
  have hspec := (rbtreeLookupRange_spec h.tracks h.vars.entries_apart p 0).1 _ _ _ hentry hp
  unfold lookupObject
  rw [hspec]
  rfl

/-- Other pointers lead to nothing. -/
theorem HoldsVars.lookup_none (h : HoldsVars r vs) (hp : ∀ v ∈ vs, ¬ v.Contains p) :
    lookupObject r p = some none := by
  have hspec := (rbtreeLookupRange_spec h.tracks h.vars.entries_apart p 0).2
    fun b size table hb hc => hp _ ((entriesOfVars_iff h.vars b size table).mp hb) hc
  unfold lookupObject
  rw [hspec]
  rfl

/-- Trees with the same objects answer a lookup in the same way. -/
theorem HoldsVars.lookup_congr (h : HoldsVars r vs) (h' : HoldsVars r' vs) (p : Uptr) :
    lookupObject r p = lookupObject r' p := by
  by_cases hin : ∃ v ∈ vs, v.Contains p
  · rcases hin with ⟨v, hv, hp⟩
    rw [h.lookup hv hp, h'.lookup hv hp]
  · have hout : ∀ v ∈ vs, ¬ v.Contains p := fun v hv hp => hin ⟨v, hv, hp⟩
    rw [h.lookup_none hout, h'.lookup_none hout]

/-! ## The hooks -/

/-- `__cver_handle_global_var`. -/
def handleGlobalVar (flags : Flags) (malloc : Malloc) (pointer typeTable allocSize : Uptr)
    (root : RbTree) : Option RbTree :=
  if flags.noCheck then some root
  else if flags.noGlobal then some root
  else if pointer = 0 then some root
  else runOp malloc root (.insert ⟨pointer, allocSize⟩ typeTable)

/-- The thread's tree has the objects, unless nothing is checked. -/
def ThreadHolds (flags : Flags) (root : Option RbTree) (vs : List Var) : Prop :=
  flags.noCheck = true ∨ ∃ r, root = some r ∧ HoldsVars r vs

/-- The global tree has the objects, unless nothing or no global is checked. -/
def GlobalHolds (flags : Flags) (root : RbTree) (vs : List Var) : Prop :=
  flags.noCheck = true ∨ flags.noGlobal = true ∨ HoldsVars root vs

theorem ThreadHolds.create (flags : Flags) (h : Heap Node) :
    ThreadHolds flags (some (rbtreeCreate h)) [] :=
  Or.inr ⟨_, rfl, HoldsVars.create h⟩

theorem handleStackEnter_holds (malloc : Malloc) (h : ThreadHolds flags root vs)
    (hvs : VarsOk (v :: vs)) :
    ∃ root', handleStackEnter flags malloc v.typeTable v.address v.allocSize root = some root' ∧
      ThreadHolds flags root' (v :: vs) := by
  unfold handleStackEnter
  cases hcheck : flags.noCheck with
  | true => exact ⟨root, rfl, Or.inl hcheck⟩
  | false =>
    rcases h.resolve_left (by simp [hcheck]) with ⟨r, rfl, hr⟩
    rcases hr.insert malloc hvs with ⟨r', hrun, hr'⟩
    exact ⟨some r', by simp [hrun], Or.inr ⟨r', rfl, hr'⟩⟩

theorem handleStackExit_holds (malloc : Malloc) (h : ThreadHolds flags root vs) (hv : v ∈ vs) :
    ∃ root', handleStackExit flags malloc v.address root = some root' ∧
      ThreadHolds flags root' (vs.erase v) := by
  unfold handleStackExit
  cases hcheck : flags.noCheck with
  | true => exact ⟨root, rfl, Or.inl hcheck⟩
  | false =>
    rcases h.resolve_left (by simp [hcheck]) with ⟨r, rfl, hr⟩
    rcases hr.delete malloc hv with ⟨r', hrun, hr'⟩
    exact ⟨some r', by simp [hrun], Or.inr ⟨r', rfl, hr'⟩⟩

theorem handleGlobalVar_holds (malloc : Malloc) (h : GlobalHolds flags r vs)
    (hvs : VarsOk (v :: vs)) (hv : v.address ≠ 0) :
    ∃ r', handleGlobalVar flags malloc v.address v.typeTable v.allocSize r = some r' ∧
      GlobalHolds flags r' (v :: vs) := by
  unfold handleGlobalVar
  cases hcheck : flags.noCheck with
  | true => exact ⟨r, rfl, Or.inl hcheck⟩
  | false =>
    cases hglobal : flags.noGlobal with
    | true => exact ⟨r, rfl, Or.inr (Or.inl hglobal)⟩
    | false =>
      have hr : HoldsVars r vs := (h.resolve_left (by simp [hcheck])).resolve_left
        (by simp [hglobal])
      rcases hr.insert malloc hvs with ⟨r', hrun, hr'⟩
      exact ⟨r', by simp [hv, hrun], Or.inr (Or.inr hr')⟩

end Caver.Runtime
