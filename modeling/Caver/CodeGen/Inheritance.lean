import Caver.CodeGen.THTables
import Mathlib.Logic.Relation

/-!
# Caver.CodeGen.Inheritance — base classes and their hashes

Classes with any bases, virtual ones and repeated ones too.

* `forallBasesLoop`: the traversal of `CXXRecordDecl::forallBases`, whose queue
  is a stack. `forallBasesLoop_eq` gives what it visits.
* `Hierarchy.constructHashVector`: the hashes of a class and its bases.
* `checkCastValidity_inheritance`: a cast is accepted exactly if it is to the
  class or to one of its bases.
-/

namespace Caver.CodeGen

open Caver.Runtime

/-! ## The traversal -/

/-- The loop of `forallBases`: the direct bases of `record` are pushed and
visited, and the last one pushed is next. `queue` is the stack from its top;
`fuel` bounds the rounds. -/
def forallBasesLoop (direct : ℕ → List ℕ) : ℕ → ℕ → List ℕ → List ℕ → Option (List ℕ)
  | 0, _, _, _ => none
  | fuel + 1, record, queue, visited =>
    let visited := visited ++ direct record
    match (direct record).reverse ++ queue with
    | [] => some visited
    | next :: queue => forallBasesLoop direct fuel next queue visited

section Traversal

variable (direct : ℕ → List ℕ)

/-- The rounds of the loop for a class: one for each way up from it. -/
def rounds : ℕ → ℕ := recBelow (fun c rec => 1 + ((direct c).map rec).sum) 0

/-- What the loop visits: the direct bases, and then, from the last one on,
theirs. -/
def visits : ℕ → List ℕ := recBelow (fun c rec => direct c ++ (direct c).reverse.flatMap rec) []

variable {direct} (hlt : ∀ c, ∀ d ∈ direct c, d < c)

include hlt

theorem rounds_eq (c : ℕ) : rounds direct c = 1 + ((direct c).map (rounds direct)).sum := by
  refine recBelow_eq (fun c f g h => ?_) c
  rw [List.map_congr_left fun d hd => h d (hlt c d hd)]

theorem visits_eq (c : ℕ) :
    visits direct c = direct c ++ (direct c).reverse.flatMap (visits direct) := by
  refine recBelow_eq (fun c f g h => ?_) c
  rw [List.flatMap_congr fun d hd => h d (hlt c d (List.mem_reverse.mp hd))]

/-- The loop ends, and it visits what lies above the record and above what is in
the queue. -/
theorem forallBasesLoop_eq (fuel c : ℕ) (queue visited : List ℕ)
    (hfuel : rounds direct c + (queue.map (rounds direct)).sum ≤ fuel) :
    forallBasesLoop direct fuel c queue visited =
      some (visited ++ visits direct c ++ queue.flatMap (visits direct)) := by
  induction fuel generalizing c queue visited with
  | zero =>
    rw [rounds_eq hlt] at hfuel
    omega
  | succ fuel ih =>
    -- the rounds for the bases and for the queue are what is left
    have hstack : (((direct c).reverse ++ queue).map (rounds direct)).sum ≤ fuel := by
      rw [rounds_eq hlt] at hfuel
      rw [List.map_append, List.sum_append, List.map_reverse, List.sum_reverse]
      omega
    have hvisits : visited ++ visits direct c ++ queue.flatMap (visits direct) =
        visited ++ direct c ++ ((direct c).reverse ++ queue).flatMap (visits direct) := by
      rw [visits_eq hlt, List.flatMap_append]
      simp only [List.append_assoc]
    rw [hvisits, forallBasesLoop]
    cases hnext : (direct c).reverse ++ queue with
    | nil => simp
    | cons next queue' =>
      rw [hnext, List.map_cons, List.sum_cons] at hstack
      dsimp only
      rw [ih next queue' _ hstack, List.flatMap_cons, List.append_assoc]

/-- The classes above a class are visited, and no others. -/
theorem mem_visits {c d : ℕ} :
    d ∈ visits direct c ↔ Relation.TransGen (fun d c => d ∈ direct c) d c := by
  induction c using Nat.strongRecOn with
  | ind c ih =>
    rw [visits_eq hlt, List.mem_append, List.mem_flatMap]
    constructor
    · rintro (hd | ⟨b, hb, hd⟩)
      · exact .single hd
      · rw [List.mem_reverse] at hb
        exact ((ih b (hlt c b hb)).mp hd).tail hb
    · intro h
      rcases Relation.TransGen.tail'_iff.mp h with ⟨b, hdb, hb⟩
      rcases Relation.reflTransGen_iff_eq_or_transGen.mp hdb with rfl | hdb
      · exact Or.inl hb
      · exact Or.inr ⟨b, List.mem_reverse.mpr hb, (ih b (hlt c b hb)).mpr hdb⟩

end Traversal

/-- The bases of a class with a layout are those that the loop visits. -/
theorem ClassDecls.forallBases_loop (D : ClassDecls) (c : ℕ) :
    forallBasesLoop (fun c => (D.decl c).bases.map (·.cls))
        (rounds (fun c => (D.decl c).bases.map (·.cls)) c) c [] [] =
      some (D.forallBases c) := by
  have hlt : ∀ c, ∀ d ∈ (D.decl c).bases.map (·.cls), d < c := by
    intro c d hd
    rcases List.mem_map.mp hd with ⟨b, hb, rfl⟩
    exact D.bases_lt c b hb
  rw [forallBasesLoop_eq hlt _ _ _ _ (by simp)]
  simp only [List.nil_append, List.flatMap_nil, List.append_nil]
  rfl

/-! ## Hierarchies -/

/-- A base in the definition of a class. -/
structure BaseSpecifier where
  cls : ℕ
  isVirtual : Bool
deriving DecidableEq, Repr

/-- Complete classes, numbered so that bases come first, with their layouts:
`baseClassOffset` is what `getBaseClassOffset` answers. No two classes have one
mangled name. -/
structure Hierarchy where
  bases : ℕ → List BaseSpecifier
  bases_lt : ∀ c, ∀ b ∈ bases c, b.cls < c
  mangledName : ℕ → String
  mangledName_inj : ∀ c d, mangledName c = mangledName d → c = d
  size : ℕ → ℕ
  baseClassOffset : ℕ → ℕ → Uptr

namespace Hierarchy

variable (H : Hierarchy)

/-- The classes in the base clause; it does not matter which are virtual. -/
def direct (c : ℕ) : List ℕ := (H.bases c).map (·.cls)

/-- `forallBases` with `CollectAllBases`. -/
def forallBases (c : ℕ) : Option (List ℕ) :=
  forallBasesLoop H.direct (rounds H.direct c) c [] []

/-- `constructHashVector`, for a `hash_value` of names. -/
def constructHashVector (hashValue : String → Uptr) (c : ℕ) : Option (List BaseElem) := do
  let bases ← H.forallBases c
  let ownHash := ClassDecls.hashValueWithUniqueness (hashValue (H.mangledName c)) false
  return ⟨ownHash, 0⟩ :: bases.map fun base =>
    let isSameLayout := H.size c == H.size base
    ⟨ClassDecls.hashValueWithUniqueness (hashValue (H.mangledName base)) isSameLayout,
      H.baseClassOffset c base⟩

/-- The hash that `EmitTypeCastCheck` passes for a cast to a class. -/
def targetHash (hashValue : String → Uptr) (target : ℕ) : Uptr :=
  ClassDecls.hashValueWithUniqueness (hashValue (H.mangledName target)) false

/-- `base` is a direct or indirect base of `c`. -/
def IsBase (base c : ℕ) : Prop :=
  Relation.TransGen (fun d c => ∃ b ∈ H.bases c, b.cls = d) base c

/-- The names of a cast from an object of class `c`. -/
def Involved (target c d : ℕ) : Prop := d = target ∨ d = c ∨ H.IsBase d c

variable {H} {hashValue : String → Uptr}

theorem direct_lt : ∀ c, ∀ d ∈ H.direct c, d < c := by
  intro c d hd
  rcases List.mem_map.mp hd with ⟨b, hb, rfl⟩
  exact H.bases_lt c b hb

theorem IsBase.lt {d c : ℕ} (h : H.IsBase d c) : d < c := by
  induction h with
  | single hb =>
    rcases hb with ⟨b, hb, rfl⟩
    exact H.bases_lt _ b hb
  | tail _ hb ih =>
    rcases hb with ⟨b, hb, rfl⟩
    exact ih.trans (H.bases_lt _ b hb)

/-- The traversal ends, and it visits the bases and nothing else. -/
theorem forallBases_spec (H : Hierarchy) (c : ℕ) :
    ∃ bases, H.forallBases c = some bases ∧ ∀ d, d ∈ bases ↔ H.IsBase d c := by
  refine ⟨visits H.direct c, ?_, fun d => ?_⟩
  · rw [forallBases, forallBasesLoop_eq direct_lt _ _ _ _ (by simp)]
    simp
  · rw [mem_visits direct_lt]
    unfold IsBase direct
    simp only [List.mem_map]

/-- The hash vector has the hashes of the class and of its bases. -/
theorem constructHashVector_spec (H : Hierarchy) (hashValue : String → Uptr) (c : ℕ) :
    ∃ hashes, H.constructHashVector hashValue c = some hashes ∧
      (∀ e ∈ hashes, ∃ d same, (d = c ∨ H.IsBase d c) ∧ e.baseHash =
        ClassDecls.hashValueWithUniqueness (hashValue (H.mangledName d)) same) ∧
      ∀ d, d = c ∨ H.IsBase d c → ∃ e ∈ hashes, ∃ same, e.baseHash =
        ClassDecls.hashValueWithUniqueness (hashValue (H.mangledName d)) same := by
  rcases forallBases_spec H c with ⟨bases, hbases, hmem⟩
  refine ⟨_, by rw [constructHashVector, hbases]; rfl, ?_, ?_⟩
  · intro e he
    rcases List.mem_cons.mp he with rfl | he
    · exact ⟨c, false, Or.inl rfl, rfl⟩
    · rcases List.mem_map.mp he with ⟨d, hd, rfl⟩
      exact ⟨d, _, Or.inr ((hmem d).mp hd), rfl⟩
  · rintro d (rfl | hd)
    · exact ⟨_, List.mem_cons_self, false, rfl⟩
    · exact ⟨_, List.mem_cons_of_mem _ (List.mem_map.mpr ⟨d, (hmem d).mpr hd, rfl⟩), _, rfl⟩

/-- The lowest bit of a shifted hash is free. -/
theorem shiftLeft_even (h : Uptr) : (h <<< 1).toNat % 2 = 0 := by
  rw [UInt64.toNat_shiftLeft]
  show h.toNat <<< 1 % 2 ^ 64 % 2 = 0
  rw [Nat.shiftLeft_eq]
  omega

/-- Up to the lowest bit, hashes are equal if the shifted name hashes are. -/
theorem hashValueWithUniqueness_toNat (h h' : Uptr) (same same' : Bool) :
    (ClassDecls.hashValueWithUniqueness h same).toNat / 2 =
        (ClassDecls.hashValueWithUniqueness h' same').toNat / 2 ↔ h <<< 1 = h' <<< 1 := by
  have heven := shiftLeft_even h
  have heven' := shiftLeft_even h'
  rw [← getHashValue_eq_iff, ClassDecls.getHashValue_hashValue, ClassDecls.getHashValue_hashValue,
    getHashValue_eq_iff, ← UInt64.toNat_inj]
  omega

/-- A table without containments: the check is the loop over the hashes. -/
theorem checkCastValidity_noContain {tables : TypeTables} {vec targetHash : Uptr}
    {hashes : List BaseElem} {name : String} (htable : tables.table vec = some ⟨[], hashes, name⟩)
    (noComposition : Bool) (pointer objBaseAddr : Uptr) :
    checkCastValidity tables false noComposition pointer objBaseAddr targetHash vec =
      some (matchesBase targetHash hashes) := by
  rw [checkCastValidity_eq htable]
  cases noComposition
  · rfl
  · rfl

/-- On the table of a class the check accepts the casts to the class and to its
bases and no others, where the shifted hashes tell the names apart and none of
them is zero. -/
theorem checkCastValidity_inheritance (H : Hierarchy) (hashValue : String → Uptr) (c target : ℕ)
    (hinj : ∀ d e, H.Involved target c d → H.Involved target c e →
      hashValue (H.mangledName d) <<< 1 = hashValue (H.mangledName e) <<< 1 →
        H.mangledName d = H.mangledName e)
    (hne : ∀ d, H.Involved target c d → hashValue (H.mangledName d) <<< 1 ≠ 0) :
    ∃ hashes, H.constructHashVector hashValue c = some hashes ∧
      ∀ (tables : TypeTables) (vec : Uptr) (name : String),
        tables.table vec = some ⟨[], hashes, name⟩ →
        ∀ (noComposition : Bool) (pointer objBaseAddr : Uptr), ∃ matched,
          checkCastValidity tables false noComposition pointer objBaseAddr
            (H.targetHash hashValue target) vec = some matched ∧
          (matched = true ↔ target = c ∨ H.IsBase target c) := by
  rcases constructHashVector_spec H hashValue c with ⟨hashes, hvector, hsound, hcomplete⟩
  refine ⟨hashes, hvector, fun tables vec name htable noComposition pointer objBaseAddr =>
    ⟨_, checkCastValidity_noContain htable noComposition pointer objBaseAddr, ?_⟩⟩
  -- no entry is zero, so the loop comes to all of them
  have hnonzero : ∀ e ∈ hashes, e.baseHash ≠ 0 := by
    intro e he hz
    rcases hsound e he with ⟨d, same, hd, hhash⟩
    rw [hz] at hhash
    exact hne d (Or.inr hd) (UInt64.or_eq_zero_iff.mp hhash.symm).1
  rw [matchesBase_eq_true hnonzero]
  simp only [getHashValue_eq_iff, targetHash]
  constructor
  · rintro ⟨e, he, hmatch⟩
    rcases hsound e he with ⟨d, same, hd, hhash⟩
    rw [hhash, hashValueWithUniqueness_toNat] at hmatch
    have hname := hinj target d (Or.inl rfl) (Or.inr hd) hmatch
    rwa [H.mangledName_inj target d hname]
  · intro hbase
    rcases hcomplete target hbase with ⟨e, he, same, hhash⟩
    refine ⟨e, he, ?_⟩
    rw [hhash, hashValueWithUniqueness_toNat]

end Hierarchy

/-! ## A diamond -/

/-- The names `"C"`, `"CC"` and so on. -/
def diamondName (c : ℕ) : String := String.ofList (List.replicate (c + 1) 'C')

/-- Class 3 has the bases 1 and 2, which have the base 0, one of them virtually. -/
def diamond : Hierarchy where
  bases c := match c with
    | 1 => [⟨0, false⟩]
    | 2 => [⟨0, true⟩]
    | 3 => [⟨1, false⟩, ⟨2, false⟩]
    | _ => []
  bases_lt := by
    intro c b hb
    rcases c with _ | _ | _ | _ | c
    · cases hb
    all_goals simp_all
    rcases hb with rfl | rfl
    all_goals decide
  mangledName := diamondName
  mangledName_inj := by
    intro c d h
    have hlen := congrArg String.length h
    simpa [diamondName] using hlen
  size _ := 8
  baseClassOffset _ _ := 0

/-- The common base is visited twice. -/
example : diamond.forallBases 3 = some [1, 2, 0, 0] := by decide

/-- One table, at address 0x100. -/
def oneTable (hashes : List BaseElem) : TypeTables where
  table vec := if vec = 0x100 then some ⟨[], hashes, "C"⟩ else none
  depth _ := 0
  nested := by
    intro vec t ht e he
    split at ht
    · cases ht
      cases he
    · cases ht

/-- A cast from the diamond to its virtual base, with the length for a hash. -/
theorem checkCastValidity_inheritance_diamond :
    ∃ hashes, diamond.constructHashVector (fun s => UInt64.ofNat s.length) 3 = some hashes ∧
      checkCastValidity (oneTable hashes) false false 0x1000 0x1000
        (diamond.targetHash (fun s => UInt64.ofNat s.length) 0) 0x100 = some true := by
  have hhash : ∀ d, UInt64.ofNat (diamond.mangledName d).length = UInt64.ofNat (d + 1) := by
    intro d
    simp [diamond, diamondName]
  have hinvolved : ∀ d, diamond.Involved 0 3 d → d < 4 := by
    rintro d (rfl | rfl | hd)
    · decide
    · decide
    · exact hd.lt.trans (by decide)
  have hshift : ∀ d < 4, ∀ e < 4, UInt64.ofNat (d + 1) <<< 1 = UInt64.ofNat (e + 1) <<< 1 →
      d = e := by decide
  have hzero : ∀ d < 4, UInt64.ofNat (d + 1) <<< 1 ≠ 0 := by decide
  obtain ⟨hashes, hvector, hcheck⟩ := Hierarchy.checkCastValidity_inheritance diamond
    (fun s => UInt64.ofNat s.length) 3 0
    (fun d e hd he h => by
      rw [hhash, hhash] at h
      rw [hshift d (hinvolved d hd) e (hinvolved e he) h])
    (fun d hd => by
      rw [hhash]
      exact hzero d (hinvolved d hd))
  rcases hcheck (oneTable hashes) 0x100 "C" rfl false 0x1000 0x1000 with ⟨matched, hmatched, hiff⟩
  -- the way to the base: over class 2
  have hbase : diamond.IsBase 0 3 :=
    .tail (.single ⟨⟨0, true⟩, List.mem_singleton.mpr rfl, rfl⟩)
      (show ∃ b ∈ diamond.bases 3, b.cls = 2 from
        ⟨⟨2, false⟩, List.mem_cons_of_mem _ (List.mem_singleton.mpr rfl), rfl⟩)
  refine ⟨hashes, hvector, ?_⟩
  rw [hmatched, hiff.mpr (Or.inr hbase)]

end Caver.CodeGen
