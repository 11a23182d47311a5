import Caver.CodeGen.THTables
import Caver.Core.Acyclic
import Caver.Core.Prog
import Mathlib.Data.List.Forall2
import Mathlib.Logic.Function.Basic

/-!
# Caver.CodeGen.TableGeneration — generating tables on demand

`GenerateTypeHierarchy` looks into a map for the table of a class, and sets the map
only after it has generated the tables of the classes of its fields.

* `RecordDecls`: finitely many classes; no class has itself, by value, in a base or a
  field.
* `generateTypeHierarchy`: the recursion, on the map and the globals of the module.
* `Generated`: the map and the globals agree, and tables refer to earlier ones.
* `generateTypeHierarchy_spec`: a call returns the table of its class, and the classes
  that get a table reach no further than it.
-/

namespace Caver.CodeGen

open Caver.Core Caver.Runtime Relation

/-! ## Classes -/

/-- A base of a class; `offset` is that of a non-virtual one. -/
structure ClassBase (κ : Type) where
  cls : κ
  isVirtual : Bool
  offset : ℕ

/-- A named field of class type, or an array of `count` such. -/
structure ClassField (κ : Type) where
  elem : κ
  offset : ℕ
  count : ℕ

/-- The classes `κ` of a program. C++ requires complete types for bases and fields. -/
structure RecordDecls (κ : Type) where
  typeName : κ → String
  nameHash : κ → Uptr
  size : κ → ℕ
  bases : κ → List (ClassBase κ)
  fields : κ → List (ClassField κ)
  acyclic : Acyclic fun c d =>
    (∃ b ∈ bases c, b.cls = d) ∨ ∃ f ∈ fields c, f.elem = d

/-- An entry of a containment vector: the class of its elements is what `γ` is for. -/
structure ContainEntry (γ : Type) where
  offset : ℕ
  size : ℕ
  pTHTable : γ
deriving DecidableEq, Repr

/-- The initializer of a table. Tables are named by the position of their
`GlobalVariable` in the module. -/
structure TableInit where
  containVec : List (ContainEntry ℕ)
  hashVector : List BaseElem
  typeName : String
deriving DecidableEq, Repr

/-- `THTableMap`, and the tables that have been created. The class of a table is there
for the statements only. -/
structure TableState (κ : Type) where
  thTableMap : κ → Option ℕ
  globals : List (κ × TableInit)

namespace RecordDecls

variable {κ : Type}

/-- A class needs another one. -/
def Uses (D : RecordDecls κ) (c d : κ) : Prop :=
  (∃ b ∈ D.bases c, b.cls = d) ∨ ∃ f ∈ D.fields c, f.elem = d

section Vectors

variable (D : RecordDecls κ)

/-- The non-virtual bases, sorted by offset. -/
def sortedBases (c : κ) : List (ClassBase κ) :=
  ((D.bases c).filter (!·.isVirtual)).insertionSort fun l r => l.offset ≤ r.offset

/-- `forallBases`: the bases of a class, and then, from the last one on, theirs. -/
def forallBases : ℕ → κ → Option (List κ)
  | 0, _ => none
  | depth + 1, c => do
    let rest ← (D.bases c).reverse.mapM fun b => forallBases depth b.cls
    return (D.bases c).map (·.cls) ++ rest.flatten

/-- `getBaseClassOffset`; only direct non-virtual bases have one. -/
def getBaseClassOffset [DecidableEq κ] (c base : κ) : ℕ :=
  (((D.bases c).find? fun b => !b.isVirtual && b.cls = base).map (·.offset)).getD 0

def constructHashVector [DecidableEq κ] (depth : ℕ) (c : κ) : Option (List BaseElem) := do
  let bases ← D.forallBases depth c
  return ⟨ClassDecls.hashValueWithUniqueness (D.nameHash c) false, 0⟩ ::
    bases.map fun base =>
      let isSameLayout := D.size c == D.size base
      ⟨ClassDecls.hashValueWithUniqueness (D.nameHash base) isSameLayout,
        UInt64.ofNat (D.getBaseClassOffset c base)⟩

/-- `constructContainVector`, where `getAddrOfTypeTable` gives the table of the class of
a field. -/
def constructContainVector (getAddrOfTypeTable : κ → Prog (TableState κ) ℕ) :
    ℕ → κ → ℕ → Prog (TableState κ) (List (ContainEntry ℕ))
  | 0, _, _ => failure
  | depth + 1, c, offset => do
    let own ← (D.fields c).mapM fun f => do
      let table ← getAddrOfTypeTable f.elem
      return ⟨offset + f.offset, f.count * D.size f.elem, table⟩
    let inherited ← (D.sortedBases c).mapM fun b =>
      constructContainVector getAddrOfTypeTable depth b.cls (offset + b.offset)
    return own ++ inherited.flatten

/-- `setTHTableInMap`, and the global variable. -/
def emitTable [DecidableEq κ] (c : κ) (t : TableInit) (s : TableState κ) : TableState κ where
  thTableMap := Function.update s.thTableMap c (some s.globals.length)
  globals := s.globals ++ [(c, t)]

/-- `GenerateTypeHierarchy`, with a bound on the depth of all recursions. -/
def generateTypeHierarchy [DecidableEq κ] : ℕ → κ → Prog (TableState κ) ℕ
  | 0, _ => failure
  | depth + 1, c => do
    match (← get).thTableMap c with
    | some table => return table
    | none =>
      match D.constructHashVector (depth + 1) c with
      | none => failure
      | some hashVector =>
        let containVec ←
          D.constructContainVector (generateTypeHierarchy depth) (depth + 1) c 0
        let table := (← get).globals.length
        modify (emitTable c ⟨containVec, hashVector, D.typeName c⟩)
        return table

end Vectors

/-! ## What a class contains -/

/-- The class-typed fields of `c` and of its non-virtual bases, with their classes,
down to `depth`. -/
def containedWithin (D : RecordDecls κ) : ℕ → κ → ℕ → List (ContainEntry κ)
  | 0, _, _ => []
  | depth + 1, c, offset =>
    (D.fields c).map (fun f => ⟨offset + f.offset, f.count * D.size f.elem, f.elem⟩) ++
      (D.sortedBases c).flatMap fun b => containedWithin D depth b.cls (offset + b.offset)

variable {D : RecordDecls κ} {c d : κ} {depth : ℕ} {s t : TableState κ}

theorem emitTable_self [DecidableEq κ] (c : κ) (init : TableInit) (s : TableState κ) :
    (emitTable c init s).thTableMap c = some s.globals.length :=
  Function.update_self c _ _

theorem emitTable_of_ne [DecidableEq κ] (hne : d ≠ c) (init : TableInit) (s : TableState κ) :
    (emitTable c init s).thTableMap d = s.thTableMap d :=
  Function.update_of_ne hne _ _

theorem Uses.base {b : ClassBase κ} (hb : b ∈ D.sortedBases c) : D.Uses c b.cls := by
  unfold sortedBases at hb
  rw [List.mem_insertionSort] at hb
  exact Or.inl ⟨b, List.mem_of_mem_filter hb, rfl⟩

theorem Uses.field {f : ClassField κ} (hf : f ∈ D.fields c) : D.Uses c f.elem :=
  Or.inr ⟨f, hf, rfl⟩

section Rank

variable [Fintype κ]

/-- What a class needs has a smaller rank. -/
theorem Uses.rank_lt (h : D.Uses c d) : rank D.Uses d < rank D.Uses c :=
  Acyclic.rank_lt (r := D.Uses) D.acyclic h

/-- More depth makes no difference. -/
theorem containedWithin_enough (depth : ℕ) (c : κ) (offset : ℕ) (hdepth : rank D.Uses c < depth) :
    D.containedWithin depth c offset = D.containedWithin (Fintype.card κ + 1) c offset := by
  have hrank : ∀ depth depth' c offset, rank D.Uses c < depth → rank D.Uses c < depth' →
      D.containedWithin depth c offset = D.containedWithin depth' c offset := by
    intro depth
    induction depth with
    | zero =>
      intro depth' c offset hdepth
      omega
    | succ depth ih =>
      intro depth' c offset hdepth hdepth'
      rcases Nat.exists_eq_add_one_of_ne_zero (Nat.ne_zero_of_lt hdepth') with ⟨n, rfl⟩
      unfold containedWithin
      congr 1
      apply List.flatMap_congr
      intro b hb
      have hlt := (Uses.base hb).rank_lt
      exact ih n b.cls _ (by omega) (by omega)
  have hcard := rank_le_card D.Uses c
  exact hrank depth _ c offset hdepth (by omega)

/-- The class-typed fields of a class and of its non-virtual bases. -/
def contained (D : RecordDecls κ) (c : κ) (offset : ℕ) : List (ContainEntry κ) :=
  D.containedWithin (Fintype.card κ + 1) c offset

theorem contained_eq (D : RecordDecls κ) (c : κ) (offset : ℕ) :
    D.contained c offset =
      (D.fields c).map (fun f => ⟨offset + f.offset, f.count * D.size f.elem, f.elem⟩) ++
        (D.sortedBases c).flatMap fun b => D.contained b.cls (offset + b.offset) := by
  have hcard := rank_le_card D.Uses c
  unfold contained
  rw [containedWithin]
  congr 1
  apply List.flatMap_congr
  intro b hb
  have hlt := (Uses.base hb).rank_lt
  exact containedWithin_enough _ b.cls _ (by omega)

/-- The traversal of the bases ends. -/
theorem forallBases_isSome (depth : ℕ) (c : κ) (hdepth : rank D.Uses c < depth) :
    (D.forallBases depth c).isSome := by
  induction depth generalizing c with
  | zero => omega
  | succ depth ih =>
    have hrest : ∀ bs : List (ClassBase κ), (∀ b ∈ bs, b ∈ D.bases c) →
        (bs.mapM fun b => D.forallBases depth b.cls).isSome := by
      intro bs hbs
      induction bs with
      | nil => rfl
      | cons b bs ih' =>
        rw [List.forall_mem_cons] at hbs
        have huses : D.Uses c b.cls := Or.inl ⟨b, hbs.1, rfl⟩
        have hlt := huses.rank_lt
        rcases Option.isSome_iff_exists.mp (ih b.cls (by omega)) with ⟨bases, hbases⟩
        rcases Option.isSome_iff_exists.mp (ih' hbs.2) with ⟨rest, hrest⟩
        rw [List.mapM_cons, hbases, Option.bind_eq_bind, Option.bind_some, hrest]
        rfl
    rcases Option.isSome_iff_exists.mp
      (hrest (D.bases c).reverse fun b hb => List.mem_reverse.mp hb) with ⟨rest, hrun⟩
    unfold forallBases
    rw [hrun]
    rfl

theorem constructHashVector_isSome [DecidableEq κ] (D : RecordDecls κ) (depth : ℕ) (c : κ)
    (hdepth : rank D.Uses c < depth) : (D.constructHashVector depth c).isSome := by
  rcases Option.isSome_iff_exists.mp (forallBases_isSome depth c hdepth) with ⟨bases, hbases⟩
  unfold constructHashVector
  rw [hbases]
  rfl

/-! ## The tables of a module -/

/-- The entry is for the elements of `x`, and refers to the table of their class. -/
structure PointsTo (s : TableState κ) (x : ContainEntry κ) (e : ContainEntry ℕ) : Prop where
  offset : e.offset = x.offset
  size : e.size = x.size
  table : s.thTableMap x.pTHTable = some e.pTHTable

/-- The table at a position is that of the class. It refers to earlier tables. -/
structure TableOf [DecidableEq κ] (D : RecordDecls κ) (s : TableState κ) (table : ℕ) (c : κ)
    (t : TableInit) : Prop where
  typeName : t.typeName = D.typeName c
  hashVector : ∃ depth, D.constructHashVector depth c = some t.hashVector
  containVec : List.Forall₂ (fun x e => PointsTo s x e ∧ e.pTHTable < table) (D.contained c 0)
    t.containVec

/-- The map holds the tables of the module, and these are right. -/
structure Generated [DecidableEq κ] (D : RecordDecls κ) (s : TableState κ) : Prop where
  mapped : ∀ c table, s.thTableMap c = some table ↔ ∃ t, s.globals[table]? = some (c, t)
  tables : ∀ table c t, s.globals[table]? = some (c, t) → D.TableOf s table c t

/-- From `s` to `t` there are more tables. The new ones are for classes of rank below
`k`. -/
structure Grows (D : RecordDecls κ) (k : ℕ) (s t : TableState κ) : Prop where
  globals : s.globals <+: t.globals
  keeps : ∀ c table, s.thTableMap c = some table → t.thTableMap c = some table
  fresh : ∀ c table, s.thTableMap c = none → t.thTableMap c = some table → rank D.Uses c < k

theorem Grows.refl (k : ℕ) (s : TableState κ) : D.Grows k s s where
  globals := List.prefix_rfl
  keeps := fun _ _ h => h
  fresh := by
    intro c table hnone hsome
    rw [hnone] at hsome
    cases hsome

theorem Grows.trans {k : ℕ} {u : TableState κ} (h : D.Grows k s t) (h' : D.Grows k t u) :
    D.Grows k s u where
  globals := h.globals.trans h'.globals
  keeps := fun c table hc => h'.keeps c table (h.keeps c table hc)
  fresh := by
    intro c table hnone hsome
    cases ht : t.thTableMap c with
    | none => exact h'.fresh c table ht hsome
    | some table' => exact h.fresh c table' hnone ht

theorem Grows.mono {k k' : ℕ} (h : D.Grows k s t) (hk : k ≤ k') : D.Grows k' s t where
  globals := h.globals
  keeps := h.keeps
  fresh := fun c table hnone hsome => (h.fresh c table hnone hsome).trans_le hk

theorem PointsTo.grows {k : ℕ} {x : ContainEntry κ} {e : ContainEntry ℕ} (h : PointsTo s x e)
    (hgrows : D.Grows k s t) : PointsTo t x e :=
  ⟨h.offset, h.size, hgrows.keeps _ _ h.table⟩

variable [DecidableEq κ]

theorem TableOf.grows {k table : ℕ} {init : TableInit} (h : D.TableOf s table c init)
    (hgrows : D.Grows k s t) : D.TableOf t table c init where
  typeName := h.typeName
  hashVector := h.hashVector
  containVec := h.containVec.imp fun _ _ hxe => ⟨hxe.1.grows hgrows, hxe.2⟩

/-- A table in the map is one of the module. -/
theorem Generated.lt_length {table : ℕ} (h : D.Generated s) (hc : s.thTableMap c = some table) :
    table < s.globals.length := by
  rcases (h.mapped c table).mp hc with ⟨t, ht⟩
  exact (List.getElem?_eq_some_iff.mp ht).1

/-- There is one table at most for a class. -/
theorem Generated.nodup (h : D.Generated s) : (s.globals.map (·.1)).Nodup := by
  rw [List.nodup_iff_getElem?_ne_getElem?]
  intro i j hij hj heq
  rw [List.length_map] at hj
  obtain ⟨c, t, hi⟩ : ∃ c t, s.globals[i]? = some (c, t) :=
    ⟨_, _, List.getElem?_eq_getElem (hij.trans hj)⟩
  obtain ⟨d, u, hj⟩ : ∃ d u, s.globals[j]? = some (d, u) := ⟨_, _, List.getElem?_eq_getElem hj⟩
  rw [List.getElem?_map, List.getElem?_map, hi, hj, Option.map_some, Option.map_some,
    Option.some.injEq] at heq
  change c = d at heq
  subst heq
  -- the map has both positions for the class
  have hfirst := (h.mapped c i).mpr ⟨t, hi⟩
  rw [(h.mapped c j).mpr ⟨u, hj⟩, Option.some.injEq] at hfirst
  omega

theorem generated_init : D.Generated ⟨fun _ => none, []⟩ where
  mapped := by
    intro c table
    simp
  tables := by
    intro table c t ht
    simp at ht

/-! ## One call -/

theorem Grows.emit {init : TableInit} (hc : s.thTableMap c = none) :
    D.Grows (rank D.Uses c + 1) s (emitTable c init s) where
  globals := List.prefix_append _ _
  keeps := by
    intro d table hd
    have hne : d ≠ c := by
      rintro rfl
      rw [hc] at hd
      cases hd
    rwa [emitTable_of_ne hne]
  fresh := by
    intro d table hnone hsome
    by_cases hdc : d = c
    · rw [hdc]
      exact Nat.lt_succ_self _
    · rw [emitTable_of_ne hdc, hnone] at hsome
      cases hsome

/-- Emitting the table of a class that has none. -/
theorem Generated.emit {init : TableInit} (h : D.Generated s) (hc : s.thTableMap c = none)
    (hinit : D.TableOf s s.globals.length c init) : D.Generated (emitTable c init s) where
  mapped := by
    intro d table
    have hglobals : (emitTable c init s).globals = s.globals ++ [(c, init)] := rfl
    rw [hglobals]
    by_cases hdc : d = c
    · subst hdc
      rw [emitTable_self, Option.some.injEq]
      constructor
      · rintro rfl
        exact ⟨init, by simp⟩
      · intro ⟨t, ht⟩
        by_contra hne
        -- no earlier table is of the class
        have hold : s.globals[table]? = some (d, t) := by grind
        rw [(h.mapped d table).mpr ⟨t, hold⟩] at hc
        cases hc
    · rw [emitTable_of_ne hdc, h.mapped]
      constructor
      · intro ⟨t, ht⟩
        exact ⟨t, by grind⟩
      · intro ⟨t, ht⟩
        exact ⟨t, by grind⟩
  tables := by
    intro table d t ht
    have hglobals : (emitTable c init s).globals = s.globals ++ [(c, init)] := rfl
    rw [hglobals] at ht
    have hgrows : D.Grows (rank D.Uses c + 1) s (emitTable c init s) := Grows.emit hc
    by_cases hlast : table = s.globals.length
    · subst hlast
      rw [List.getElem?_concat_length, Option.some.injEq] at ht
      cases ht
      exact hinit.grows hgrows
    · have hold : s.globals[table]? = some (d, t) := by grind
      exact (h.tables table d t hold).grows hgrows

/-- What a call for a class guarantees. -/
def Returns (D : RecordDecls κ) (c : κ) (s : TableState κ) (table : ℕ) (t : TableState κ) :
    Prop :=
  D.Generated t ∧ D.Grows (rank D.Uses c + 1) s t ∧ t.thTableMap c = some table

/-- The containment vector, where calls for classes of rank below `k` return. -/
theorem constructContainVector_spec {getAddrOfTypeTable : κ → Prog (TableState κ) ℕ} {k : ℕ}
    (hcall : ∀ d s, rank D.Uses d < k → D.Generated s →
      wp (getAddrOfTypeTable d) (D.Returns d s) s)
    (depth : ℕ) (c : κ) (offset : ℕ) {s : TableState κ} (hk : rank D.Uses c ≤ k)
    (hdepth : rank D.Uses c < depth) (hs : D.Generated s) :
    wp (D.constructContainVector getAddrOfTypeTable depth c offset) (fun es t =>
      D.Generated t ∧ D.Grows k s t ∧ List.Forall₂ (PointsTo t) (D.contained c offset) es) s := by
  induction depth generalizing c offset s with
  | zero => omega
  | succ depth ih =>
    rw [constructContainVector, wp_bind]
    have hrefl : ∀ s, D.Grows k s s := Grows.refl k
    have htrans : ∀ s t u, D.Grows k s t → D.Grows k t u → D.Grows k s u :=
      fun _ _ _ => Grows.trans
    -- the fields of the class itself
    have hfields := wp_mapM (D.fields c)
      (P := fun f e t =>
        PointsTo t ⟨offset + f.offset, f.count * D.size f.elem, f.elem⟩ e)
      (f := fun f => do
        let table ← getAddrOfTypeTable f.elem
        return ⟨offset + f.offset, f.count * D.size f.elem, table⟩)
      hrefl htrans (fun _ _ _ _ hgrows h => h.grows hgrows) (by
        intro f hf s hs
        have hlt := (Uses.field hf).rank_lt
        rw [wp_bind]
        apply (hcall f.elem s (by omega) hs).mono
        intro table t ⟨ht, hgrows, htable⟩
        rw [wp_pure]
        exact ⟨ht, hgrows.mono (by omega), rfl, rfl, htable⟩) hs
    apply hfields.mono
    intro own t ⟨ht, hst, hown⟩
    rw [wp_bind]
    -- and those of its bases
    have hbases := wp_mapM (D.sortedBases c)
      (P := fun b es t =>
        List.Forall₂ (PointsTo t) (D.contained b.cls (offset + b.offset)) es)
      (f := fun b => D.constructContainVector getAddrOfTypeTable depth b.cls (offset + b.offset))
      hrefl htrans (fun _ _ _ _ hgrows h => h.imp fun _ _ hxe => hxe.grows hgrows) (by
        intro b hb s hs
        have hlt := (Uses.base hb).rank_lt
        exact ih b.cls (offset + b.offset) (by omega) (by omega) hs) ht
    apply hbases.mono
    intro inherited u ⟨hu, htu, hinherited⟩
    rw [wp_pure]
    refine ⟨hu, hst.trans htu, ?_⟩
    rw [contained_eq]
    apply List.rel_append
    · rw [List.forall₂_map_left_iff]
      exact hown.imp fun _ _ hxe => hxe.grows htu
    · rw [List.flatMap_def]
      apply List.rel_flatten
      rwa [List.forall₂_map_left_iff]

/-- A call returns the table of the class, and generates no table twice. -/
theorem generateTypeHierarchy_spec (depth : ℕ) (c : κ) {s : TableState κ}
    (hdepth : rank D.Uses c < depth) (hs : D.Generated s) :
    wp (D.generateTypeHierarchy depth c) (D.Returns c s) s := by
  induction depth generalizing c s with
  | zero => omega
  | succ depth ih =>
    rw [generateTypeHierarchy, wp_bind, wp_get]
    cases hc : s.thTableMap c with
    | some table =>
      rw [wp_pure]
      exact ⟨hs, Grows.refl _ s, hc⟩
    | none =>
      rcases Option.isSome_iff_exists.mp (D.constructHashVector_isSome (depth + 1) c hdepth) with
          ⟨hashVector, hhash⟩
      simp only [hhash]
      rw [wp_bind]
      have hcontain := constructContainVector_spec (k := rank D.Uses c)
        (fun d s hd hs => ih d (by omega) hs) (depth + 1) c 0 (le_refl _) hdepth hs
      apply hcontain.mono
      intro containVec t ⟨ht, hgrows, hentries⟩
      rw [wp_bind, wp_get, wp_bind, wp_modify, wp_pure]
      -- no class of smaller rank is this one
      have hnone : t.thTableMap c = none := by
        cases htc : t.thTableMap c with
        | none => rfl
        | some table => exact absurd (hgrows.fresh c table hc htc) (Nat.lt_irrefl _)
      have hinit : D.TableOf t t.globals.length c ⟨containVec, hashVector, D.typeName c⟩ :=
        ⟨rfl, ⟨depth + 1, hhash⟩, hentries.imp fun _ _ hxe => ⟨hxe, ht.lt_length hxe.table⟩⟩
      exact ⟨ht.emit hnone hinit, (hgrows.mono (Nat.le_succ _)).trans (Grows.emit hnone),
        emitTable_self c _ t⟩

end Rank

end RecordDecls

end Caver.CodeGen
