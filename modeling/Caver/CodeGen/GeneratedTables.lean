import Caver.CodeGen.TableGeneration

/-!
# Caver.CodeGen.GeneratedTables — the tables after any calls

* `generateTypeHierarchy_calls`: what a sequence of calls leaves in the module.
* `memoryTables`: the tables in memory, as the runtime reads them.
* `placeAt_eq`: they are the tables of `Caver.CodeGen.THTables`.
-/

namespace Caver.CodeGen

open Caver.Core Caver.Runtime

/-! ## Tables in memory -/

/-- Where the `n` tables of a module are in memory. -/
structure Placement (n : ℕ) where
  addr : ℕ → Uptr
  addr_ne : ∀ i < n, addr i ≠ 0
  addr_inj : ∀ i < n, ∀ j < n, addr i = addr j → i = j

namespace Placement

variable {n : ℕ} {i : ℕ} (p : Placement n)

/-- The table at an address. -/
def indexAt (vec : Uptr) : Option ℕ := (List.range n).find? (p.addr · == vec)

variable {p}

theorem indexAt_some {vec : Uptr} (h : p.indexAt vec = some i) : i < n ∧ p.addr i = vec :=
  ⟨List.mem_range.mp (List.mem_of_find?_eq_some h), by simpa using List.find?_some h⟩

theorem indexAt_addr (hi : i < n) : p.indexAt (p.addr i) = some i := by
  obtain ⟨j, hj⟩ : ∃ j, p.indexAt (p.addr i) = some j := by
    rw [← Option.isSome_iff_exists, indexAt, List.find?_isSome]
    exact ⟨i, List.mem_range.mpr hi, beq_self_eq_true _⟩
  rcases indexAt_some hj with ⟨hlt, haddr⟩
  rw [hj, p.addr_inj j hlt i hi haddr]

end Placement

/-- The initializer in memory: a table is referred to by its address. -/
def TableInit.placeAt (addr : ℕ → Uptr) (t : TableInit) : THTable where
  containElems := t.containVec.map fun e =>
    ⟨UInt64.ofNat e.offset, UInt64.ofNat e.size, addr e.pTHTable⟩
  baseElems := t.hashVector
  mangledName := t.typeName

namespace RecordDecls

variable {κ : Type} [Fintype κ] [DecidableEq κ] {D : RecordDecls κ} {c : κ} {s : TableState κ}

/-- The tables of a module in memory. Those that a table refers to come before it. -/
def memoryTables (hs : D.Generated s) (p : Placement s.globals.length) : TypeTables where
  table vec := (p.indexAt vec).bind fun i => (s.globals[i]?).map fun g => g.2.placeAt p.addr
  depth vec := (p.indexAt vec).getD 0
  nested := by
    intro vec t ht e he _
    rw [Option.bind_eq_some_iff] at ht
    rcases ht with ⟨i, hi, ht⟩
    rw [Option.map_eq_some_iff] at ht
    rcases ht with ⟨⟨c, init⟩, hglobal, rfl⟩
    rcases List.mem_map.mp he with ⟨entry, hentry, rfl⟩
    rcases List.mem_iff_getElem.mp hentry with ⟨k, hk, rfl⟩
    have hcontain := (hs.tables i c init hglobal).containVec
    have hentry := (List.forall₂_iff_get.mp hcontain).2 k (by rw [hcontain.length_eq]; exact hk) hk
    change PointsTo s _ init.containVec[k] ∧ init.containVec[k].pTHTable < i at hentry
    have hlt := hs.lt_length hentry.1.table
    rw [hi, Placement.indexAt_addr hlt]
    exact ⟨by simp [List.getElem?_eq_getElem hlt], hentry.2⟩

theorem memoryTables_eq (hs : D.Generated s) (p : Placement s.globals.length) {table : ℕ}
    {init : TableInit} (hinit : s.globals[table]? = some (c, init)) :
    (memoryTables hs p).table (p.addr table) = some (init.placeAt p.addr) ∧
      (memoryTables hs p).depth (p.addr table) = table := by
  have hlt := (List.getElem?_eq_some_iff.mp hinit).1
  unfold memoryTables
  simp only [Placement.indexAt_addr hlt, Option.bind_some, hinit, Option.map_some,
    Option.getD_some, and_self]

/-! ## Sequences of calls -/

/-- Calls one after the other, from a module without tables. -/
def generateAll (D : RecordDecls κ) (depth : ℕ) (calls : List κ) :
    Option (List ℕ × TableState κ) :=
  calls.mapM (D.generateTypeHierarchy depth) ⟨fun _ => none, []⟩

/-- The entry is for the elements of `x`, and refers to the table of their class, one
before `table`. -/
structure RefersTo (s : TableState κ) (table : ℕ) (x : ContainEntry κ) (e : ContainEntry ℕ) :
    Prop where
  offset : e.offset = x.offset
  size : e.size = x.size
  earlier : e.pTHTable < table
  table : ∃ t, s.globals[e.pTHTable]? = some (x.pTHTable, t)

omit [Fintype κ] in
/-- Where the map has a table, a call returns it and changes nothing. -/
theorem generateTypeHierarchy_memo {table : ℕ} (depth : ℕ) (hc : s.thTableMap c = some table) :
    D.generateTypeHierarchy (depth + 1) c s = some (table, s) := by
  apply eval_of_wp
  rw [generateTypeHierarchy, wp_bind, wp_get, hc]
  exact (wp_pure table).mpr ⟨rfl, rfl⟩

/-- Every sequence of calls returns. No class has two tables, and each call has returned
that of its class, as a further one does. Entries refer to the tables of their classes,
which come earlier; so `CheckCastValidity` goes no deeper than there are tables. -/
theorem generateTypeHierarchy_calls (D : RecordDecls κ) (extra : ℕ) (calls : List κ) :
    ∃ tables s, D.generateAll (Fintype.card κ + 1 + extra) calls = some (tables, s) ∧
      (s.globals.map (·.1)).Nodup ∧
      List.Forall₂ (fun c table => ∃ t, s.globals[table]? = some (c, t)) calls tables ∧
      (∀ table c t, s.globals[table]? = some (c, t) →
        D.generateTypeHierarchy (Fintype.card κ + 1 + extra) c s = some (table, s)) ∧
      (∀ table c t, s.globals[table]? = some (c, t) →
        List.Forall₂ (RefersTo s table) (D.contained c 0) t.containVec) ∧
      ∀ p : Placement s.globals.length, ∃ mem : TypeTables,
        ∀ table c t, s.globals[table]? = some (c, t) →
          mem.table (p.addr table) = some (t.placeAt p.addr) ∧
          ∀ noComposition targetHash pointer objBaseAddr,
            (checkWithin mem noComposition targetHash pointer (table + 1) objBaseAddr
              (p.addr table)).isSome := by
  -- one call keeps the invariant of the tables, so all calls do
  have hcalls := wp_mapM calls
    (P := fun c table t => t.thTableMap c = some table)
    (f := D.generateTypeHierarchy (Fintype.card κ + 1 + extra))
    (Grows.refl (Fintype.card κ + 1)) (fun _ _ _ => Grows.trans)
    (fun c table _ _ hgrows h => hgrows.keeps c table h)
    (by
      intro c _ s hs
      have hcard := rank_le_card D.Uses c
      apply (generateTypeHierarchy_spec _ c (by omega) hs).mono
      intro table t ⟨ht, hgrows, htable⟩
      exact ⟨ht, hgrows.mono (by omega), htable⟩) generated_init
  rcases hcalls with ⟨tables, s, hrun, hs, -, htables⟩
  refine ⟨tables, s, hrun, hs.nodup, ?_, ?_, ?_, ?_⟩
  · exact htables.imp fun c table h => (hs.mapped c table).mp h
  · intro table c t ht
    rw [Nat.add_right_comm]
    exact generateTypeHierarchy_memo _ ((hs.mapped c table).mpr ⟨t, ht⟩)
  · intro table c t ht
    apply (hs.tables table c t ht).containVec.imp
    intro x e ⟨hxe, hlt⟩
    exact ⟨hxe.offset, hxe.size, hlt, (hs.mapped _ _).mp hxe.table⟩
  · intro p
    -- the tables as they are in memory, where each refers to earlier ones
    refine ⟨memoryTables hs p, ?_⟩
    intro table c t ht
    rcases memoryTables_eq hs p ht with ⟨htable, hdepth⟩
    refine ⟨htable, ?_⟩
    intro noComposition targetHash pointer objBaseAddr
    have hreturns : (checkCastValidity (memoryTables hs p) false noComposition pointer
        objBaseAddr targetHash (p.addr table)).isSome := by
      apply checkCastValidity_isSome
      rw [htable]
      rfl
    rwa [checkCastValidity, if_neg Bool.false_ne_true, hdepth] at hreturns

end RecordDecls

/-! ## Numbered classes -/

namespace ClassDecls

variable (D : ClassDecls)

/-- The bases of a class among those that are declared. -/
def memberBases (c : Fin D.count) : List (ClassBase (Fin D.count)) :=
  (D.decl c).bases.attach.map fun b =>
    ⟨⟨b.1.cls, (D.bases_lt c b.1 b.2).trans c.2⟩, false, b.1.offset⟩

/-- The fields of a class, with their classes among those that are declared. -/
def memberFields (c : Fin D.count) : List (ClassField (Fin D.count)) :=
  (D.decl c).fields.attach.map fun f =>
    ⟨⟨f.1.elem, (D.fields_lt c f.1 f.2).trans c.2⟩, f.1.offset, f.1.count⟩

theorem member_lt {c d : Fin D.count}
    (h : (∃ b ∈ D.memberBases c, b.cls = d) ∨ ∃ f ∈ D.memberFields c, f.elem = d) : d < c := by
  rcases h with ⟨b, hb, rfl⟩ | ⟨f, hf, rfl⟩
  · rcases List.mem_map.mp hb with ⟨b, -, rfl⟩
    exact D.bases_lt c b.1 b.2
  · rcases List.mem_map.mp hf with ⟨f, -, rfl⟩
    exact D.fields_lt c f.1 f.2

/-- Members have smaller numbers, so no class is a member of itself. -/
theorem member_acyclic : Acyclic fun c d : Fin D.count =>
    (∃ b ∈ D.memberBases c, b.cls = d) ∨ ∃ f ∈ D.memberFields c, f.elem = d := by
  intro c hcycle
  have hdown : Relation.TransGen (fun a b : ℕ => b < a) c.val c.val :=
    hcycle.lift Fin.val fun _ _ => D.member_lt
  rw [Relation.transGen_eq_self (r := fun a b : ℕ => b < a)] at hdown
  exact Nat.lt_irrefl _ hdown

/-- Numbered classes, with no more than is declared. -/
def records : RecordDecls (Fin D.count) where
  typeName c := (D.decl c).typeName
  nameHash c := (D.decl c).nameHash
  size c := (D.decl c).size
  bases := D.memberBases
  fields := D.memberFields
  acyclic := D.member_acyclic

variable {D} {c : Fin D.count}

/-- An entry with the number of its class. -/
def numbered (x : ContainEntry (Fin D.count)) : Contained := ⟨x.offset, x.size, x.pTHTable⟩

theorem memberBases_map (c : Fin D.count) :
    (D.memberBases c).map (fun b => (⟨b.offset, b.cls⟩ : BaseDecl)) = (D.decl c).bases :=
  (List.map_map ..).trans (List.attach_map_subtype_val _)

theorem records_sortedBases (c : Fin D.count) :
    (D.records.sortedBases c).map (fun b => (⟨b.offset, b.cls⟩ : BaseDecl)) = D.sortedBases c := by
  have hfilter : (D.memberBases c).filter (!·.isVirtual) = D.memberBases c := by
    rw [List.filter_eq_self]
    intro b hb
    rcases List.mem_map.mp hb with ⟨b, -, rfl⟩
    rfl
  unfold RecordDecls.sortedBases sortedBases
  rw [List.map_insertionSort _ (fun l r : BaseDecl => l.offset ≤ r.offset) _ _
    (fun _ _ _ _ => Iff.rfl)]
  change (((D.memberBases c).filter (!·.isVirtual)).map _).insertionSort _ = _
  rw [hfilter, memberBases_map]

/-- Both models list the same fields. -/
theorem records_contained (c : Fin D.count) (offset : ℕ) :
    (D.records.contained c offset).map numbered = D.constructContainVector c offset := by
  induction hn : c.val using Nat.strongRecOn generalizing c offset with
  | ind n ih =>
    subst hn
    rw [RecordDecls.contained_eq, constructContainVector_eq, List.map_append, List.map_map,
      List.map_flatMap, ← records_sortedBases, List.flatMap_map]
    congr 1
    · change (D.memberFields c).map _ = _
      unfold memberFields containFields
      rw [List.map_map]
      exact List.attach_map_val (f := fun f : FieldDecl =>
        (⟨offset + f.offset, f.count * (D.decl f.elem).size, f.elem⟩ : Contained)) ..
    · apply List.flatMap_congr
      intro b hb
      exact ih b.cls (D.member_lt (RecordDecls.Uses.base hb)) b.cls _ rfl

/-- The bases of bases, in either model. -/
theorem mapM_forallBases {depth : ℕ} (bs : List (ClassBase (Fin D.count)))
    (hcall : ∀ b ∈ bs, ∀ bases, D.records.forallBases depth b.cls = some bases →
      bases.map Fin.val = D.forallBases b.cls) {rest : List (List (Fin D.count))}
    (hrest : (bs.mapM fun b => D.records.forallBases depth b.cls) = some rest) :
    rest.flatten.map Fin.val = (bs.map (·.cls.val)).flatMap D.forallBases := by
  induction bs generalizing rest with
  | nil =>
    rw [List.mapM_nil] at hrest
    cases hrest
    rfl
  | cons b bs ih =>
    rw [List.forall_mem_cons] at hcall
    rw [List.mapM_cons, Option.bind_eq_bind, Option.bind_eq_some_iff] at hrest
    rcases hrest with ⟨bases, hbases, hrest⟩
    rw [Option.bind_eq_bind, Option.bind_eq_some_iff] at hrest
    rcases hrest with ⟨rest', hrest', heq⟩
    cases heq
    rw [List.flatten_cons, List.map_append, List.map_cons, List.flatMap_cons,
      hcall.1 bases hbases, ih hcall.2 hrest']

/-- Both models visit the same bases. -/
theorem records_forallBases {depth : ℕ} {bases : List (Fin D.count)}
    (h : D.records.forallBases depth c = some bases) :
    bases.map Fin.val = D.forallBases c := by
  induction depth generalizing c bases with
  | zero => cases h
  | succ depth ih =>
    unfold RecordDecls.forallBases at h
    rw [Option.bind_eq_bind, Option.bind_eq_some_iff] at h
    rcases h with ⟨rest, hrest, heq⟩
    cases heq
    have hdirect : (D.memberBases c).map (·.cls.val) = (D.decl c).bases.map (·.cls) := by
      rw [← memberBases_map, List.map_map]
      rfl
    rw [List.map_append, List.map_map, mapM_forallBases _ (fun b _ _ hb => ih hb) hrest,
      forallBases_eq, ← hdirect, ← List.map_reverse]
    rfl

/-- Both models have the same offsets of bases. -/
theorem records_getBaseClassOffset (c base : Fin D.count) :
    D.records.getBaseClassOffset c base = D.getBaseClassOffset c base := by
  unfold RecordDecls.getBaseClassOffset getBaseClassOffset
  change (((D.memberBases c).find? fun b => !b.isVirtual && b.cls = base).map _).getD 0 = _
  unfold memberBases
  conv_rhs => rw [← List.attach_map_subtype_val (D.decl c).bases]
  rw [List.find?_map, List.find?_map, Option.map_map, Option.map_map]
  have hpred : (fun b : ClassBase (Fin D.count) => !b.isVirtual && decide (b.cls = base)) ∘
      (fun b : { b // b ∈ (D.decl c).bases } =>
        ⟨⟨b.1.cls, (D.bases_lt c b.1 b.2).trans c.2⟩, false, b.1.offset⟩) =
      (fun b : BaseDecl => b.cls == base.val) ∘ Subtype.val := by
    funext b
    rw [Bool.eq_iff_iff]
    simp [Fin.ext_iff]
  rw [hpred]
  rfl

/-- Lists that agree entry by entry, mapped to the same values. -/
theorem forall₂_map_eq {α β γ : Type} {R : α → β → Prop} {f : α → γ} {g : β → γ}
    (hfg : ∀ a b, R a b → f a = g b) {as : List α} {bs : List β} (h : List.Forall₂ R as bs) :
    as.map f = bs.map g := by
  induction h with
  | nil => rfl
  | cons hab _ ih => rw [List.map_cons, List.map_cons, hfg _ _ hab, ih]

/-- A table that has been generated is, at the addresses of the module, the one that
`THTables` has for the class. -/
theorem placeAt_eq {s : TableState (Fin D.count)} (hs : D.records.Generated s) {addr : ℕ → Uptr}
    (haddr : ∀ c table, s.thTableMap c = some table → addr table = D.tableAddr c) {table : ℕ}
    {init : TableInit} (hinit : s.globals[table]? = some (c, init)) :
    init.placeAt addr = D.generateTypeHierarchy c := by
  rcases hs.tables table c init hinit with ⟨hname, ⟨depth, hhash⟩, hcontain⟩
  have hcontains : init.containVec.map (fun e =>
      (⟨UInt64.ofNat e.offset, UInt64.ofNat e.size, addr e.pTHTable⟩ : ContainElem)) =
      (D.constructContainVector c 0).map D.toContainElem := by
    rw [← records_contained, List.map_map]
    symm
    apply forall₂_map_eq ?_ hcontain
    intro x e ⟨hxe, _⟩
    unfold toContainElem numbered Function.comp
    rw [hxe.offset, hxe.size, haddr _ _ hxe.table]
  have hhashes : init.hashVector = D.constructHashVector c := by
    unfold RecordDecls.constructHashVector at hhash
    rw [Option.bind_eq_bind, Option.bind_eq_some_iff] at hhash
    rcases hhash with ⟨bases, hbases, heq⟩
    rw [Option.pure_def, Option.some.injEq] at heq
    unfold constructHashVector
    rw [← heq, ← records_forallBases hbases, List.map_map]
    congr 1
    apply List.map_congr_left
    intro base _
    rw [records_getBaseClassOffset]
    rfl
  unfold TableInit.placeAt generateTypeHierarchy
  rw [hcontains, hhashes, hname]
  rfl

end ClassDecls

end Caver.CodeGen
