import Caver.CodeGen.THTables

/-!
# Caver.CodeGen.BaseOffsets — the offsets in a hash vector

`constructHashVector` asks the layout of the class itself for the offset of every
base, but that layout has direct bases only; for the others the lookup makes a
new entry, zero.

* `SubobjectAt`: the base subobjects of a class.
* `baseOffsets_iff`: when all recorded offsets are those of subobjects.
-/

namespace Caver.CodeGen

open Caver.Runtime

namespace ClassDecls

variable {D : ClassDecls} {c d : ℕ}

/-- An object of class `c` has a subobject of class `d`, itself or a base, at the
offset. -/
inductive SubobjectAt (D : ClassDecls) : ℕ → ℕ → ℕ → Prop
  | self (c : ℕ) : SubobjectAt D c c 0
  | base {c d offset : ℕ} {b : BaseDecl} :
      b ∈ (D.decl c).bases → SubobjectAt D b.cls d offset → SubobjectAt D c d (b.offset + offset)

/-- A subobject of another class is inside a direct base. -/
theorem SubobjectAt.inside {offset : ℕ} (h : SubobjectAt D c d offset) (hne : d ≠ c) :
    ∃ b ∈ (D.decl c).bases, ∃ offset', offset = b.offset + offset' ∧
      SubobjectAt D b.cls d offset' := by
  cases h with
  | self => exact absurd rfl hne
  | base hb hsub => exact ⟨_, hb, _, rfl, hsub⟩

/-- The offset of a direct base is that of a subobject. -/
theorem getBaseClassOffset_direct {b : BaseDecl} (hb : b ∈ (D.decl c).bases) :
    ∃ b' ∈ (D.decl c).bases, b'.cls = b.cls ∧ D.getBaseClassOffset c b.cls = b'.offset := by
  unfold getBaseClassOffset
  cases hfind : (D.decl c).bases.find? (·.cls == b.cls) with
  | none =>
    have hno := List.find?_eq_none.mp hfind b hb
    simp at hno
  | some b' =>
    have hcls : b'.cls = b.cls := by simpa using List.find?_some hfind
    exact ⟨b', List.mem_of_find?_eq_some hfind, hcls, rfl⟩

/-- For a class that is no direct base the answer is zero. -/
theorem getBaseClassOffset_other (h : ∀ b ∈ (D.decl c).bases, b.cls ≠ d) :
    D.getBaseClassOffset c d = 0 := by
  have hfind : (D.decl c).bases.find? (·.cls == d) = none :=
    List.find?_eq_none.mpr fun b hb => by simpa using h b hb
  rw [getBaseClassOffset, hfind]
  rfl

theorem mem_zip_map {α β : Type} {f : α → β} {xs : List α} {x : α} {y : β} :
    (x, y) ∈ xs.zip (xs.map f) ↔ x ∈ xs ∧ y = f x := by
  induction xs with
  | nil => simp
  | cons a xs ih =>
    simp only [List.map_cons, List.zip_cons_cons, List.mem_cons, Prod.mk.injEq, ih]
    constructor
    · rintro (⟨rfl, rfl⟩ | ⟨hx, rfl⟩)
      · exact ⟨Or.inl rfl, rfl⟩
      · exact ⟨Or.inr hx, rfl⟩
    · rintro ⟨rfl | hx, rfl⟩
      · exact Or.inl ⟨rfl, rfl⟩
      · exact Or.inr ⟨hx, rfl⟩

/-- The entries behind the first are those of the bases, in their order. -/
theorem mem_zip_constructHashVector {e : BaseElem} :
    (d, e) ∈ (D.forallBases c).zip (D.constructHashVector c).tail ↔
      d ∈ D.forallBases c ∧
        e = ⟨hashValueWithUniqueness (D.decl d).nameHash ((D.decl c).size == (D.decl d).size),
          UInt64.ofNat (D.getBaseClassOffset c d)⟩ := by
  rw [constructHashVector, List.tail_cons]
  exact mem_zip_map

/-- Every recorded offset is that of a subobject exactly if every base that is no
direct one has a subobject at the start of the object. -/
theorem baseOffsets_iff (D : ClassDecls) (c : ℕ)
    (hoffset : ∀ b ∈ (D.decl c).bases, b.offset < 2 ^ 64) :
    (∀ x ∈ (D.forallBases c).zip (D.constructHashVector c).tail,
        SubobjectAt D c x.1 x.2.baseOffset.toNat) ↔
      ∀ d ∈ D.forallBases c, (∃ b ∈ (D.decl c).bases, b.cls = d) ∨ SubobjectAt D c d 0 := by
  have hdirect : ∀ b ∈ (D.decl c).bases,
      SubobjectAt D c b.cls (UInt64.ofNat (D.getBaseClassOffset c b.cls)).toNat := by
    intro b hb
    rcases getBaseClassOffset_direct hb with ⟨b', hb', hcls, hget⟩
    rw [hget, UInt64.toNat_ofNat_of_lt' (hoffset b' hb'), ← hcls]
    exact .base hb' (.self b'.cls)
  constructor
  · intro h d hd
    by_cases hb : ∃ b ∈ (D.decl c).bases, b.cls = d
    · exact Or.inl hb
    · push Not at hb
      have hsub := h (d, _) (mem_zip_constructHashVector.mpr ⟨hd, rfl⟩)
      rw [getBaseClassOffset_other hb] at hsub
      exact Or.inr hsub
  · rintro h ⟨d, e⟩ hx
    rcases mem_zip_constructHashVector.mp hx with ⟨hd, rfl⟩
    rcases h d hd with ⟨b, hb, rfl⟩ | hsub
    · exact hdirect b hb
    · by_cases hb : ∃ b ∈ (D.decl c).bases, b.cls = d
      · rcases hb with ⟨b, hb, rfl⟩
        exact hdirect b hb
      · push Not at hb
        rw [getBaseClassOffset_other hb]
        exact hsub

end ClassDecls

/-! ## A base behind another one -/

/-- `struct A { int a; }; struct M { int m; }; struct B : M, A {}; struct C : B {};`. -/
def chainDecl : ℕ → ClassDecl
  | 0 => ⟨"A", 0x100, 4, [], []⟩
  | 1 => ⟨"M", 0x200, 4, [], []⟩
  | 2 => ⟨"B", 0x300, 8, [⟨0, 1⟩, ⟨4, 0⟩], []⟩
  | 3 => ⟨"C", 0x400, 8, [⟨0, 2⟩], []⟩
  | _ => ⟨"", 0x500, 1, [], []⟩

def chainDecls : ClassDecls where
  decl := chainDecl
  bases_lt := by
    intro c b hb
    match c, hb with
    | 0, hb | 1, hb | c + 4, hb => exact absurd hb List.not_mem_nil
    | 2, hb =>
      rcases List.mem_cons.mp hb with rfl | hb
      · decide
      · rw [List.mem_singleton.mp hb]
        decide
    | 3, hb =>
      rw [List.mem_singleton.mp hb]
      decide
  fields_lt := by
    intro c f hf
    match c, hf with
    | 0, hf | 1, hf | 2, hf | 3, hf | c + 4, hf => exact absurd hf List.not_mem_nil
  count := 4
  tableAddr c := 0x500000 + UInt64.ofNat c
  tableAddr_ne := by decide
  tableAddr_inj := by decide

/-- For `B` the offsets are real. -/
theorem baseOffsets_direct :
    ClassDecls.SubobjectAt chainDecls 2 1 0 ∧ ClassDecls.SubobjectAt chainDecls 2 0 4 := by
  have hall : ∀ x ∈ (chainDecls.forallBases 2).zip (chainDecls.constructHashVector 2).tail,
      ClassDecls.SubobjectAt chainDecls 2 x.1 x.2.baseOffset.toNat := by
    refine (ClassDecls.baseOffsets_iff chainDecls 2 (by decide)).mpr ?_
    have hbases : chainDecls.forallBases 2 = [1, 0] := by decide
    rw [hbases]
    intro d hd
    rcases List.mem_cons.mp hd with rfl | hd
    · exact Or.inl ⟨⟨0, 1⟩, by decide, rfl⟩
    · rw [List.mem_singleton.mp hd]
      exact Or.inl ⟨⟨4, 0⟩, by decide, rfl⟩
  exact ⟨hall (1, ⟨0x400, 0⟩) (by decide), hall (0, ⟨0x200, 4⟩) (by decide)⟩

/-- In `C` the base `A` is at 4, but the table says 0. -/
theorem baseOffsets_indirect :
    ∃ x ∈ (chainDecls.forallBases 3).zip (chainDecls.constructHashVector 3).tail,
      x.2.baseOffset = 0 ∧ ClassDecls.SubobjectAt chainDecls 3 x.1 4 ∧
        ¬ ClassDecls.SubobjectAt chainDecls 3 x.1 0 := by
  refine ⟨(0, ⟨0x200, 0⟩), by decide, rfl, ?_, ?_⟩
  · have hb : (⟨0, 2⟩ : BaseDecl) ∈ (chainDecls.decl 3).bases := by decide
    have ha : (⟨4, 0⟩ : BaseDecl) ∈ (chainDecls.decl 2).bases := by decide
    exact .base hb (.base ha (.self 0))
  · intro h
    obtain ⟨b, hb, offset, hoffset, h⟩ := h.inside (by decide)
    obtain rfl : b = ⟨0, 2⟩ := List.mem_singleton.mp hb
    obtain ⟨b, hb, offset', hoffset', h⟩ := h.inside (by decide)
    rcases List.mem_cons.mp hb with rfl | hb
    · -- `M` has no bases
      obtain ⟨b, hb, -⟩ := h.inside (by decide)
      exact absurd hb List.not_mem_nil
    · rw [List.mem_singleton.mp hb] at hoffset'
      dsimp only at hoffset hoffset'
      omega

end Caver.CodeGen
