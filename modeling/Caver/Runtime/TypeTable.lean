import Caver.Basic
import Mathlib.Data.List.TakeWhile

/-!
# Caver.Runtime.TypeTable — `CheckCastValidity` over type hierarchy tables

A table lists the class-typed fields of a class (`ContainElem`: where a field
is, how long, and the table of its elements) and the hashes of the class and of
its bases (`BaseElem`).

* `TypeTables`: the tables in memory. Tables refer to tables of smaller depth
  only, since no class contains itself; the recursion is measured by that.
* `checkCastValidity_eq`: the recursion without its bound.
* `checkCastValidity_meaning`: what it computes. It looks for an object around
  the pointer that has the hash.
-/

namespace Caver.Runtime

/-! ## Tables -/

/-- `_ContainElem`. -/
structure ContainElem where
  offset : Uptr
  size : Uptr
  pTHTable : Uptr
deriving DecidableEq, Repr

/-- `_BaseElem`. -/
structure BaseElem where
  baseHash : Uptr
  baseOffset : Uptr
deriving DecidableEq, Repr

/-- A type hierarchy table: `_ContainVector`, `_HashVector` and the name behind
them. -/
structure THTable where
  containElems : List ContainElem
  baseElems : List BaseElem
  mangledName : String
deriving DecidableEq, Repr

/-- The tables in memory, by address. -/
structure TypeTables where
  table : Uptr → Option THTable
  depth : Uptr → ℕ
  nested : ∀ vec t, table vec = some t → ∀ e ∈ t.containElems, e.pTHTable ≠ 0 →
    (table e.pTHTable).isSome ∧ depth e.pTHTable < depth vec

/-! ## The check -/

/-- `GetHashValue`: the hash without its lowest bit. -/
def getHashValue (v : Uptr) : Uptr := v &&& 0xfffffffffffffffe

/-- `IsSameLayout`: the lowest bit. -/
def isSameLayout (v : Uptr) : Bool := v &&& 1 != 0

/-- The pointer is in the element's range, and the element has a table. -/
def ContainElem.covers (e : ContainElem) (pointer objBaseAddr : Uptr) : Bool :=
  pointer ≥ objBaseAddr + e.offset && pointer < objBaseAddr + e.offset + e.size &&
    e.pTHTable != 0

/-- The loop over the base hashes; a hash of zero ends it. -/
def matchesBase (targetHash : Uptr) : List BaseElem → Bool
  | [] => false
  | e :: es =>
    if e.baseHash = 0 then false
    else if getHashValue targetHash = getHashValue e.baseHash then true
    else matchesBase targetHash es

/-- The loop over the contained elements, where `nested e` is the recursive call
for `e`. -/
def searchContain (nested : ContainElem → Option Bool) (pointer objBaseAddr : Uptr) :
    List ContainElem → Option Bool
  | [] => some false
  | e :: es =>
    if e.covers pointer objBaseAddr then do
      let matched ← nested e
      if matched then return true else searchContain nested pointer objBaseAddr es
    else searchContain nested pointer objBaseAddr es

/-- The body of `CheckCastValidity` for a table. -/
def checkTable (noComposition : Bool) (targetHash pointer objBaseAddr : Uptr)
    (nested : ContainElem → Option Bool) (t : THTable) : Option Bool := do
  let contained ←
    if noComposition then some false else searchContain nested pointer objBaseAddr t.containElems
  if contained then return true else return matchesBase targetHash t.baseElems

/-- `CheckCastValidity` with a bound on the recursion. -/
def checkWithin (tables : TypeTables) (noComposition : Bool) (targetHash pointer : Uptr) :
    ℕ → Uptr → Uptr → Option Bool
  | 0, _, _ => none
  | fuel + 1, objBaseAddr, vec => do
    let t ← tables.table vec
    checkTable noComposition targetHash pointer objBaseAddr
      (fun e => checkWithin tables noComposition targetHash pointer fuel
        (objBaseAddr + e.offset) e.pTHTable) t

/-- `CheckCastValidity`; it fails where `vec` is no table. -/
def checkCastValidity (tables : TypeTables) (noCastValidity noComposition : Bool)
    (pointer objBaseAddr targetHash vec : Uptr) : Option Bool :=
  if noCastValidity then some true
  else checkWithin tables noComposition targetHash pointer (tables.depth vec + 1) objBaseAddr vec

/-! ## The recursion -/

variable {tables : TypeTables} {noComposition : Bool} {targetHash pointer : Uptr}

theorem ContainElem.covers_iff {e : ContainElem} {objBaseAddr : Uptr} :
    e.covers pointer objBaseAddr = true ↔ objBaseAddr + e.offset ≤ pointer ∧
      pointer < objBaseAddr + e.offset + e.size ∧ e.pTHTable ≠ 0 := by
  unfold covers
  rw [Bool.and_eq_true, Bool.and_eq_true, decide_eq_true_eq, decide_eq_true_eq, bne_iff_ne,
    and_assoc]

/-- The loop depends on the calls that it can make. -/
theorem searchContain_congr {f g : ContainElem → Option Bool} {objBaseAddr : Uptr}
    {es : List ContainElem} (h : ∀ e ∈ es, e.covers pointer objBaseAddr = true → f e = g e) :
    searchContain f pointer objBaseAddr es = searchContain g pointer objBaseAddr es := by
  induction es with
  | nil => rfl
  | cons e es ih =>
    have hes := ih fun e' he' => h e' (List.mem_cons_of_mem _ he')
    unfold searchContain
    split
    · next hcov => rw [h e List.mem_cons_self hcov, hes]
    · exact hes

/-- The loop returns if the calls that it can make do. -/
theorem searchContain_isSome {f : ContainElem → Option Bool} {objBaseAddr : Uptr}
    {es : List ContainElem} (h : ∀ e ∈ es, e.covers pointer objBaseAddr = true → (f e).isSome) :
    (searchContain f pointer objBaseAddr es).isSome := by
  induction es with
  | nil => rfl
  | cons e es ih =>
    have hes := ih fun e' he' => h e' (List.mem_cons_of_mem _ he')
    unfold searchContain
    split
    · next hcov =>
      rcases Option.isSome_iff_exists.mp (h e List.mem_cons_self hcov) with ⟨matched, hmatched⟩
      rw [hmatched]
      cases matched with
      | true => rfl
      | false => exact hes
    · exact hes

theorem checkTable_congr {f g : ContainElem → Option Bool} {objBaseAddr : Uptr} {t : THTable}
    (h : ∀ e ∈ t.containElems, e.covers pointer objBaseAddr = true → f e = g e) :
    checkTable noComposition targetHash pointer objBaseAddr f t =
      checkTable noComposition targetHash pointer objBaseAddr g t := by
  unfold checkTable
  rw [searchContain_congr h]

theorem checkTable_isSome {f : ContainElem → Option Bool} {objBaseAddr : Uptr} {t : THTable}
    (h : ∀ e ∈ t.containElems, e.covers pointer objBaseAddr = true → (f e).isSome) :
    (checkTable noComposition targetHash pointer objBaseAddr f t).isSome := by
  unfold checkTable
  cases noComposition with
  | true => rfl
  | false =>
    rcases Option.isSome_iff_exists.mp (searchContain_isSome h) with ⟨contained, hcontained⟩
    rw [if_neg Bool.false_ne_true, hcontained]
    cases contained <;> rfl

/-- More fuel than the table's depth makes no difference. -/
theorem checkWithin_enough (fuel : ℕ) {objBaseAddr vec : Uptr}
    (hfuel : tables.depth vec < fuel) :
    checkWithin tables noComposition targetHash pointer fuel objBaseAddr vec =
      checkWithin tables noComposition targetHash pointer (tables.depth vec + 1)
        objBaseAddr vec := by
  induction fuel using Nat.strongRecOn generalizing objBaseAddr vec with
  | ind fuel ih =>
    rcases Nat.exists_eq_add_one_of_ne_zero (Nat.ne_zero_of_lt hfuel) with ⟨n, rfl⟩
    unfold checkWithin
    cases htable : tables.table vec with
    | none => rfl
    | some t =>
      refine checkTable_congr ?_
      intro e he hcov
      -- nested tables are smaller, so both sides have enough fuel for them
      have hne := (ContainElem.covers_iff.mp hcov).2.2
      have hdeep := (tables.nested vec t htable e he hne).2
      rcases Nat.lt_or_ge (tables.depth vec) n with hlt | hge
      · rw [ih n (by omega) (by omega), ih (tables.depth vec) (by omega) hdeep]
      · rw [Nat.le_antisymm hge (Nat.le_of_lt_succ hfuel)]

/-- `CheckCastValidity` calls itself on the tables of the fields that cover the
pointer. -/
theorem checkCastValidity_eq {objBaseAddr vec : Uptr} {t : THTable}
    (ht : tables.table vec = some t) :
    checkCastValidity tables false noComposition pointer objBaseAddr targetHash vec =
      checkTable noComposition targetHash pointer objBaseAddr (fun e =>
        checkCastValidity tables false noComposition pointer (objBaseAddr + e.offset) targetHash
          e.pTHTable) t := by
  rw [checkCastValidity, if_neg Bool.false_ne_true, checkWithin, ht]
  refine checkTable_congr ?_
  intro e he hcov
  have hne := (ContainElem.covers_iff.mp hcov).2.2
  exact checkWithin_enough _ (tables.nested vec t ht e he hne).2

/-- On a table the check returns. -/
theorem checkCastValidity_isSome (noCastValidity : Bool) {objBaseAddr vec : Uptr}
    (hvec : (tables.table vec).isSome) :
    (checkCastValidity tables noCastValidity noComposition pointer objBaseAddr targetHash
      vec).isSome := by
  cases noCastValidity with
  | true => rfl
  | false =>
    obtain ⟨n, hn⟩ : ∃ n, tables.depth vec = n := ⟨_, rfl⟩
    induction n using Nat.strongRecOn generalizing objBaseAddr vec with
    | ind n ih =>
      rcases Option.isSome_iff_exists.mp hvec with ⟨t, ht⟩
      rw [checkCastValidity_eq ht]
      refine checkTable_isSome ?_
      intro e he hcov
      have hne := (ContainElem.covers_iff.mp hcov).2.2
      rcases tables.nested vec t ht e he hne with ⟨htable, hdeep⟩
      exact ih _ (hn ▸ hdeep) htable rfl

/-! ## What the check accepts -/

/-- The loop over the base hashes looks for one that agrees up to the lowest bit. -/
theorem matchesBase_eq_true {es : List BaseElem} (hne : ∀ e ∈ es, e.baseHash ≠ 0) :
    matchesBase targetHash es = true ↔
      ∃ e ∈ es, getHashValue targetHash = getHashValue e.baseHash := by
  induction es with
  | nil => simp [matchesBase]
  | cons e es ih =>
    have hes := ih fun e' he' => hne e' (List.mem_cons_of_mem _ he')
    unfold matchesBase
    simp only [if_neg (hne e List.mem_cons_self), List.mem_cons, exists_eq_or_imp]
    split
    · next heq => exact iff_of_true rfl (Or.inl heq)
    · next hdiff => rw [hes, or_iff_right hdiff]

/-- The loop over the contained elements looks for one that covers the pointer
and accepts it. -/
theorem searchContain_eq_true {f : ContainElem → Option Bool} {objBaseAddr : Uptr}
    {es : List ContainElem} (h : ∀ e ∈ es, e.covers pointer objBaseAddr = true → (f e).isSome) :
    searchContain f pointer objBaseAddr es = some true ↔
      ∃ e ∈ es, e.covers pointer objBaseAddr = true ∧ f e = some true := by
  induction es with
  | nil => simp [searchContain]
  | cons e es ih =>
    have hes := ih fun e' he' => h e' (List.mem_cons_of_mem _ he')
    unfold searchContain
    simp only [List.mem_cons, exists_eq_or_imp]
    split
    · next hcov =>
      rcases Option.isSome_iff_exists.mp (h e List.mem_cons_self hcov) with ⟨matched, hmatched⟩
      cases matched with
      | true => simp [hmatched, hcov]
      | false => simp [hmatched, hes]
    · next hcov => simp [hcov, hes]

/-- `CheckCastValidity` accepts a pointer that a covering field or the base loop
accepts. -/
theorem checkCastValidity_step {objBaseAddr vec : Uptr} {t : THTable}
    (ht : tables.table vec = some t) :
    checkCastValidity tables false false pointer objBaseAddr targetHash vec = some true ↔
      (∃ e ∈ t.containElems, e.covers pointer objBaseAddr = true ∧
        checkCastValidity tables false false pointer (objBaseAddr + e.offset) targetHash
          e.pTHTable = some true) ∨
      matchesBase targetHash t.baseElems = true := by
  have hnested : ∀ e ∈ t.containElems, e.covers pointer objBaseAddr = true →
      (checkCastValidity tables false false pointer (objBaseAddr + e.offset) targetHash
        e.pTHTable).isSome := by
    intro e he hcov
    rcases tables.nested vec t ht e he (ContainElem.covers_iff.mp hcov).2.2 with ⟨hsome, -⟩
    exact checkCastValidity_isSome false hsome
  rw [checkCastValidity_eq ht, ← searchContain_eq_true hnested]
  unfold checkTable
  rcases Option.isSome_iff_exists.mp (searchContain_isSome hnested) with ⟨contained, hcontained⟩
  rw [if_neg Bool.false_ne_true, hcontained]
  cases contained <;> simp

/-- The base list up to its first zero hash. -/
def THTable.hashes (t : THTable) : List BaseElem := t.baseElems.takeWhile (·.baseHash ≠ 0)

/-- The objects around a pointer: from the object at `b` with the table `vec`
down to the object at `b'` with the table `vec'`, each contained in the one
before it and with the pointer in its range. -/
inductive Around (tables : TypeTables) (pointer : ℕ) : ℕ → Uptr → ℕ → Uptr → Prop
  | refl (b : ℕ) (vec : Uptr) : Around tables pointer b vec b vec
  | step {b b' : ℕ} {vec vec' : Uptr} {t : THTable} {e : ContainElem} :
      tables.table vec = some t → e ∈ t.containElems → e.pTHTable ≠ 0 →
      b + e.offset.toNat ≤ pointer → pointer < b + e.offset.toNat + e.size.toNat →
      Around tables pointer (b + e.offset.toNat) e.pTHTable b' vec' →
      Around tables pointer b vec b' vec'

/-- No address that is computed for an object around the pointer wraps. -/
def NoWrap (tables : TypeTables) (pointer b : ℕ) (vec : Uptr) : Prop :=
  ∀ b' vec' t, Around tables pointer b vec b' vec' → tables.table vec' = some t →
    ∀ e ∈ t.containElems, b' + e.offset.toNat + e.size.toNat < 2 ^ 64

/-- Some object around the pointer has the hash, up to the lowest bit. -/
def HasHash (tables : TypeTables) (pointer b : ℕ) (targetHash vec : Uptr) : Prop :=
  ∃ b' vec' t, Around tables pointer b vec b' vec' ∧ tables.table vec' = some t ∧
    ∃ e ∈ t.hashes, targetHash.toNat / 2 = e.baseHash.toNat / 2

theorem getHashValue_toNat (v : Uptr) : (getHashValue v).toNat = v.toNat / 2 * 2 := by
  have hmask : (0xfffffffffffffffe : Uptr) = ~~~ 1 := by decide
  have hone : (v &&& 1).toNat = v.toNat % 2 := by
    rw [UInt64.toNat_and]
    exact Nat.and_one_is_mod v.toNat
  unfold getHashValue
  rw [hmask, toNat_and_not, hone]
  omega

theorem getHashValue_eq_iff {v w : Uptr} :
    getHashValue v = getHashValue w ↔ v.toNat / 2 = w.toNat / 2 := by
  rw [← UInt64.toNat_inj, getHashValue_toNat, getHashValue_toNat]
  omega

/-- A zero hash hides what is behind it. -/
theorem matchesBase_takeWhile (es : List BaseElem) :
    matchesBase targetHash (es.takeWhile (·.baseHash ≠ 0)) = matchesBase targetHash es := by
  induction es with
  | nil => rfl
  | cons e es ih =>
    by_cases hzero : e.baseHash = 0
    · simp [matchesBase, hzero]
    · rw [List.takeWhile_cons_of_pos (by simpa), matchesBase, matchesBase, ih]

theorem matchesBase_iff {t : THTable} :
    matchesBase targetHash t.baseElems = true ↔
      ∃ e ∈ t.hashes, targetHash.toNat / 2 = e.baseHash.toNat / 2 := by
  have hne : ∀ e ∈ t.hashes, e.baseHash ≠ 0 := by
    intro e he
    simpa using List.mem_takeWhile_imp he
  rw [← matchesBase_takeWhile]
  exact (matchesBase_eq_true hne).trans (by simp only [getHashValue_eq_iff])

theorem NoWrap.nested {b : ℕ} {vec : Uptr} {t : THTable} {e : ContainElem} {p : ℕ}
    (h : NoWrap tables p b vec) (ht : tables.table vec = some t) (he : e ∈ t.containElems)
    (hne : e.pTHTable ≠ 0) (hlo : b + e.offset.toNat ≤ p)
    (hhi : p < b + e.offset.toNat + e.size.toNat) :
    NoWrap tables p (b + e.offset.toNat) e.pTHTable :=
  fun b' vec' t' haround => h b' vec' t' (.step ht he hne hlo hhi haround)

/-- What covers a pointer, in numbers. -/
theorem ContainElem.covers_toNat {e : ContainElem} {objBaseAddr : Uptr}
    (hwrap : objBaseAddr.toNat + e.offset.toNat + e.size.toNat < 2 ^ 64) :
    e.covers pointer objBaseAddr = true ↔
      objBaseAddr.toNat + e.offset.toNat ≤ pointer.toNat ∧
        pointer.toNat < objBaseAddr.toNat + e.offset.toNat + e.size.toNat ∧ e.pTHTable ≠ 0 := by
  have hbeg : (objBaseAddr + e.offset).toNat = objBaseAddr.toNat + e.offset.toNat :=
    toNat_add_of_lt (by omega)
  have hend : (objBaseAddr + e.offset + e.size).toNat =
      objBaseAddr.toNat + e.offset.toNat + e.size.toNat := by
    rw [toNat_add_of_lt (by omega), hbeg]
  rw [covers_iff, UInt64.le_iff_toNat_le, UInt64.lt_iff_toNat_lt, hbeg, hend]

/-- `CheckCastValidity` accepts a pointer exactly if an object around it has the
hash. -/
theorem checkCastValidity_iff_hasHash {b vec : Uptr} (hvec : (tables.table vec).isSome)
    (hwrap : NoWrap tables pointer.toNat b.toNat vec) :
    checkCastValidity tables false false pointer b targetHash vec = some true ↔
      HasHash tables pointer.toNat b.toNat targetHash vec := by
  obtain ⟨n, hn⟩ : ∃ n, tables.depth vec = n := ⟨_, rfl⟩
  -- by the depth of the tables; one table further for each contained object
  induction n using Nat.strongRecOn generalizing b vec with
  | ind n ih =>
    rcases Option.isSome_iff_exists.mp hvec with ⟨t, ht⟩
    rw [checkCastValidity_step ht, matchesBase_iff]
    have hbeg : ∀ e ∈ t.containElems, (b + e.offset).toNat = b.toNat + e.offset.toNat := by
      intro e he
      have hend := hwrap _ _ t (.refl _ _) ht e he
      exact toNat_add_of_lt (by omega)
    have hcovers : ∀ e ∈ t.containElems, e.covers pointer b = true ↔
        b.toNat + e.offset.toNat ≤ pointer.toNat ∧
          pointer.toNat < b.toNat + e.offset.toNat + e.size.toNat ∧ e.pTHTable ≠ 0 :=
      fun e he => ContainElem.covers_toNat (hwrap _ _ t (.refl _ _) ht e he)
    -- the recursive call for a contained object that covers the pointer
    have hcall : ∀ e ∈ t.containElems, e.covers pointer b = true →
        (checkCastValidity tables false false pointer (b + e.offset) targetHash e.pTHTable =
            some true ↔
          HasHash tables pointer.toNat (b.toNat + e.offset.toNat) targetHash e.pTHTable) := by
      intro e he hcov
      rcases (hcovers e he).mp hcov with ⟨hlo, hhi, hne⟩
      rcases tables.nested vec t ht e he hne with ⟨hsome, hdeep⟩
      have hnested := hwrap.nested ht he hne hlo hhi
      rw [← hbeg e he] at hnested ⊢
      exact ih _ (hn ▸ hdeep) hsome hnested rfl
    constructor
    · rintro (⟨e, he, hcov, hrec⟩ | hhash)
      · rcases (hcovers e he).mp hcov with ⟨hlo, hhi, hne⟩
        rcases (hcall e he hcov).mp hrec with ⟨b', vec', t', haround, hhash⟩
        exact ⟨b', vec', t', .step ht he hne hlo hhi haround, hhash⟩
      · exact ⟨_, _, t, .refl _ _, ht, hhash⟩
    · rintro ⟨b', vec', t', haround, ht', hhash⟩
      cases haround with
      | refl =>
        obtain rfl : t = t' := Option.some.inj (ht.symm.trans ht')
        exact Or.inr hhash
      | step htable he hne hlo hhi haround =>
        obtain rfl := Option.some.inj (ht.symm.trans htable)
        have hcov := (hcovers _ he).mpr ⟨hlo, hhi, hne⟩
        refine Or.inl ⟨_, he, hcov, (hcall _ he hcov).mpr ?_⟩
        exact ⟨b', vec', t', haround, ht', hhash⟩

/-- `CheckCastValidity` returns, and it accepts exactly the pointers that an
object with the hash is around. -/
theorem checkCastValidity_meaning (tables : TypeTables) (pointer b targetHash vec : Uptr)
    (hvec : (tables.table vec).isSome) (hwrap : NoWrap tables pointer.toNat b.toNat vec) :
    ∃ matched, checkCastValidity tables false false pointer b targetHash vec = some matched ∧
      (matched = true ↔ HasHash tables pointer.toNat b.toNat targetHash vec) := by
  have hreturns : (checkCastValidity tables false false pointer b targetHash vec).isSome :=
    checkCastValidity_isSome false hvec
  rcases Option.isSome_iff_exists.mp hreturns with ⟨matched, hmatched⟩
  refine ⟨matched, hmatched, ?_⟩
  rw [← checkCastValidity_iff_hasHash hvec hwrap, hmatched, Option.some_inj]

/-- An object with two fields at its start, the second one of the class that is
asked for. -/
def overlapTables : TypeTables where
  table vec :=
    if vec = 0x100 then some ⟨[⟨0, 8, 0x200⟩, ⟨0, 4, 0x300⟩], [⟨0x10, 0⟩], "C"⟩
    else if vec = 0x200 then some ⟨[], [⟨0x20, 0⟩, ⟨0, 0⟩, ⟨0x30, 0⟩], "U"⟩
    else if vec = 0x300 then some ⟨[], [⟨0x31, 0⟩], "T"⟩
    else none
  depth vec := if vec = 0x100 then 1 else 0
  nested := by
    intro vec t ht e he hne
    by_cases h1 : vec = 0x100
    · subst h1
      obtain rfl := Option.some.inj ht
      simp only [List.mem_cons, List.not_mem_nil, or_false] at he
      rcases he with rfl | rfl <;> decide
    · by_cases h2 : vec = 0x200
      · subst h2
        obtain rfl := Option.some.inj ht
        exact absurd he List.not_mem_nil
      · by_cases h3 : vec = 0x300
        · subst h3
          obtain rfl := Option.some.inj ht
          exact absurd he List.not_mem_nil
        · simp [h1, h2, h3] at ht

/-- The first field does not have the hash (its own list ends before it), and the
search goes on to the second one. -/
theorem checkCastValidity_meaning_overlap :
    HasHash overlapTables 0x1002 0x1000 0x30 0x100 ∧
      checkCastValidity overlapTables false false 0x1002 0x1000 0x30 0x100 = some true := by
  have hends : ∀ (vec : Uptr) t, overlapTables.table vec = some t → ∀ e ∈ t.containElems,
      e.offset.toNat + e.size.toNat ≤ 8 := by
    intro vec t ht e he
    simp only [overlapTables] at ht
    split_ifs at ht <;> obtain rfl := Option.some.inj ht <;>
      simp only [List.mem_cons, List.not_mem_nil, or_false] at he
    rcases he with rfl | rfl <;> decide
  have hle : ∀ b vec b' vec', Around overlapTables 0x1002 b vec b' vec' → b ≤ 0x1002 →
      b' ≤ 0x1002 := by
    intro b vec b' vec' haround
    induction haround with
    | refl b vec => exact id
    | step _ _ _ hlo _ _ ih => exact fun _ => ih hlo
  obtain ⟨matched, hmatched, hiff⟩ :=
    checkCastValidity_meaning overlapTables 0x1002 0x1000 0x30 0x100 rfl (by
      intro b' vec' t haround ht e he
      have hb := hle _ _ _ _ haround (by decide)
      have hend := hends _ _ ht e he
      omega)
  have hrun : checkCastValidity overlapTables false false 0x1002 0x1000 0x30 0x100 = some true := by
    decide
  obtain rfl : matched = true := Option.some.inj (hmatched.symm.trans hrun)
  exact ⟨hiff.mp rfl, hrun⟩

end Caver.Runtime
