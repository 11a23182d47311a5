import Caver.Runtime.RbTreeMap

/-!
# Caver.Runtime.RbTreeLookup — what lookups return

`rbtree_lookup` and `rbtree_lookup_range` on the trees that sequences of
insertions and deletions lead to.

* `rbtreeOps_correct`: no operation fails, the tree stays a red-black tree, and
  lookup agrees with the finite map of the same operations.
* `rbtreeLookupRange_correct`: where no interval contains the start of another,
  lookup by range finds the one interval that contains an address.
-/

namespace Caver.Runtime

open Caver.Core Caver.Core.RedBlackTree

variable {s : RbTree} {t : RedBlackTree Cell} {x : Cell} {par : Ref}

/-! ## Lookup by address -/

/-- Every label of a stored tree is found at its address. -/
theorem Rep.get_mem {h : Heap Node} (hr : Rep h par t) (hx : x ∈ t.toList) :
    ∃ nd, h.get x.ptr = some nd ∧ nd.key = x.key ∧ nd.value = x.value := by
  induction t generalizing par with
  | nil => simp at hx
  | node c l y r ihl ihr =>
    rcases hr with ⟨hy, hl, hr⟩
    simp only [toList_node, List.mem_append, List.mem_cons] at hx
    rcases hx with hx | rfl | hx
    · exact ihl hl hx
    · exact ⟨_, hy, rfl, rfl⟩
    · exact ihr hr hx

/-- `rbtree_lookup` reads the map; an absent key gives the null value. -/
theorem rbtreeLookup_spec {m : Entries} (key : Key) (hs : Tracks s m) :
    rbtreeLookup key s = some (((m key.addr).map (·.2)).getD 0, s) := by
  rcases hs with ⟨T, hT, -, hL⟩
  rcases zoom_split hL key with ⟨hB, hA⟩
  have hplug := plug_zoom Cell.pos key.addr.toNat [] T
  have hend := zoom_snd Cell.pos key.addr.toNat [] T
  refine eval_of_wp ?_
  simp only [rbtreeLookup, wp_bind, wp_ite, wp_eval (lookupNode_spec key hT)]
  generalize zoom Cell.pos key.addr.toNat [] T = z at *
  rcases z with ⟨C, t⟩
  dsimp only at hplug hend hB hA ⊢
  -- the search ends in an empty hole or at the node with the key
  rcases hend with rfl | ⟨c, l, x, r, rfl, hx⟩
  · obtain rfl : plug C .nil = T := hplug
    have hL' : Listing ((before C).map Cell.entry ++ (after C).map Cell.entry) m := by
      simpa [toList_plug] using hL
    simp [hL'.absent hB hA]
  · obtain rfl : plug C (.node c l x r) = T := hplug
    have hs : Holds s C (.node c l x r) := holds_root.mpr hT
    have hkey : x.key.addr = key.addr := UInt64.toNat_inj.mp hx
    have hm : m key.addr = some (x.key.size, x.value) := by
      refine (hL.mem_iff _ _ _).mpr (List.mem_map.mpr ⟨x, ?_, ?_⟩)
      · simp [toList_plug]
      · rw [← hkey]
        rfl
    simp [wp_eval hs.load, hm]

/-- What an operation does to the finite map from addresses to values. -/
def Op.applyValue (m : Uptr → Option Uptr) : Op → Uptr → Option Uptr
  | .insert key value => fun a => if a = key.addr then some value else m a
  | .delete key => fun a => if a = key.addr then none else m a

/-- The finite map that the operations build from the empty one. -/
def valuesOf (ops : List Op) : Uptr → Option Uptr := ops.foldl Op.applyValue fun _ => none

theorem Op.applyValue_apply (m : Entries) (op : Op) :
    op.applyValue (fun a => (m a).map (·.2)) = fun a => (op.apply m a).map (·.2) := by
  funext a
  cases op <;> simp only [Op.applyValue, Op.apply] <;> split <;> rfl

/-- Values do not depend on the sizes that are stored with them. -/
theorem valuesOf_eq (ops : List Op) (a : Uptr) : valuesOf ops a = (entriesOf ops a).map (·.2) := by
  have h : ∀ m : Entries, ops.foldl Op.applyValue (fun a => (m a).map (·.2)) =
      fun a => (ops.foldl Op.apply m a).map (·.2) := by
    induction ops with
    | nil => exact fun m => rfl
    | cons op ops ih =>
      intro m
      rw [List.foldl_cons, List.foldl_cons, Op.applyValue_apply, ih]
  exact congrFun (h fun _ => none) a

/-- A red-black tree in memory: consistent links, keys in strictly increasing
order, a black root, no red node with a red child, and equal black heights. -/
def RedBlack (s : RbTree) : Prop :=
  ∃ T n, Holds s [] T ∧ Sorted Cell.pos T.toList ∧ Balanced T .black n

theorem Tracks.redBlack {m : Entries} (hs : Tracks s m) : RedBlack s := by
  rcases hs with ⟨T, hT, ⟨n, hbal⟩, hL⟩
  have hsorted := hL.sorted
  rw [Sorted, List.pairwise_map] at hsorted
  exact ⟨T, n, hT, hsorted, hbal⟩

/-- Every sequence of insertions and deletions runs without following a null
pointer, leaves a red-black tree, and leaves a tree in which lookup agrees with
the finite map of the same operations. -/
theorem rbtreeOps_correct (malloc : Malloc) (h : Heap Node) (ops : List Op) :
    ∃ s, runOps malloc ops (rbtreeCreate h) = some s ∧ RedBlack s ∧
      ∀ key, rbtreeLookup key s = some ((valuesOf ops key.addr).getD 0, s) := by
  rcases runOps_spec malloc h ops with ⟨s, hrun, hs⟩
  refine ⟨s, hrun, hs.redBlack, ?_⟩
  intro key
  rw [valuesOf_eq]
  exact rbtreeLookup_spec key hs

/-! ## Lookup by range -/

/-- The interval of a key contains the address. -/
def Key.Contains (k : Key) (a : Uptr) : Prop :=
  k.addr.toNat ≤ a.toNat ∧ a.toNat < k.addr.toNat + k.size.toNat

instance (k : Key) (a : Uptr) : Decidable (k.Contains a) :=
  inferInstanceAs (Decidable (_ ∧ _))

/-- No interval wraps, and none contains the start of another. -/
def Apart (m : Entries) : Prop :=
  ∀ a size v, m a = some (size, v) → a.toNat + size.toNat < 2 ^ 64 ∧
    ∀ b size' v', m b = some (size', v') → (⟨a, size⟩ : Key).Contains b → b = a

/-- Intervals that are apart have no address in common. -/
theorem Apart.unique {m : Entries} (hm : Apart m) {a b c sb sc vb vc : Uptr}
    (hb : m b = some (sb, vb)) (hc : m c = some (sc, vc))
    (hab : (⟨b, sb⟩ : Key).Contains a) (hac : (⟨c, sc⟩ : Key).Contains a) : b = c := by
  simp only [Key.Contains] at hab hac
  rcases Nat.le_total b.toNat c.toNat with hle | hle
  · exact ((hm b sb vb hb).2 c sc vc hc ⟨hle, by dsimp only; omega⟩).symm
  · exact (hm c sc vc hc).2 b sb vb hb ⟨hle, by dsimp only; omega⟩

/-- The comparison of an address with an interval that does not wrap. -/
theorem compareObjRange_spec {a : Uptr} {k : Key} (hk : k.addr.toNat + k.size.toNat < 2 ^ 64) :
    (compareObjRange a k = .lt ↔ a.toNat < k.addr.toNat) ∧
      (compareObjRange a k = .gt ↔ k.addr.toNat + k.size.toNat ≤ a.toNat) ∧
      (compareObjRange a k = .eq ↔ k.Contains a) := by
  have hadd : (k.addr + k.size).toNat = k.addr.toNat + k.size.toNat := by
    rw [UInt64.toNat_add, Nat.mod_eq_of_lt hk]
  simp only [compareObjRange, UInt64.lt_iff_toNat_lt, ge_iff_le, UInt64.le_iff_toNat_le, hadd,
    Key.Contains]
  split
  · simp; omega
  · split
    · simp; omega
    · simp; omega

/-- The node a range search ends at. -/
def rangeHit (a : Uptr) : RedBlackTree Cell → Option Cell
  | .nil => none
  | .node _ l x r => match compareObjRange a x.key with
    | .eq => some x
    | .lt => rangeHit a l
    | .gt => rangeHit a r

/-- The search ends at a node of the tree whose interval compares equal. -/
theorem rangeHit_some {a : Uptr} (h : rangeHit a t = some x) :
    x ∈ t.toList ∧ compareObjRange a x.key = .eq := by
  induction t with
  | nil => cases h
  | node c l y r ihl ihr =>
    simp only [toList_node, List.mem_append, List.mem_cons]
    rw [rangeHit] at h
    cases hcmp : compareObjRange a y.key with
    | eq =>
      rw [hcmp] at h
      obtain rfl := Option.some.inj h
      exact ⟨Or.inr (Or.inl rfl), hcmp⟩
    | lt =>
      rw [hcmp] at h
      exact ⟨Or.inl (ihl h).1, (ihl h).2⟩
    | gt =>
      rw [hcmp] at h
      exact ⟨Or.inr (Or.inr (ihr h).1), (ihr h).2⟩

theorem lookupNodeRangeLoop_spec (a : Uptr) (hr : Rep s.heap par t) (fuel : ℕ)
    (hfuel : t.toList.length < fuel) :
    lookupNodeRangeLoop a fuel (ref t) s = some ((rangeHit a t).map Cell.ptr, s) := by
  induction t generalizing par fuel with
  | nil =>
    cases fuel with
    | zero => omega
    | succ fuel => rfl
  | node c l x r ihl ihr =>
    cases fuel with
    | zero => omega
    | succ fuel =>
      rcases hr with ⟨hx, hl, hr⟩
      simp only [toList_node, List.length_append, List.length_cons] at hfuel
      refine eval_of_wp ?_
      simp only [lookupNodeRangeLoop, wp_bind, ref_node, reduceCtorEq, if_false,
        wp_eval (load_some hx), rangeHit]
      cases compareObjRange a x.key with
      | lt =>
        simp only [wp_bind, wp_eval (load_some hx)]
        exact (wp_eval (ihl hl fuel (by omega))).mpr ⟨rfl, rfl⟩
      | eq => simp
      | gt =>
        simp only [wp_bind, wp_eval (load_some hx)]
        exact (wp_eval (ihr hr fuel (by omega))).mpr ⟨rfl, rfl⟩

/-- Where intervals are apart, the search by range finds the interval that
contains the address. -/
theorem rangeHit_spec (a : Uptr) (hsorted : Sorted Cell.pos t.toList)
    (hwrap : ∀ y ∈ t.toList, y.key.addr.toNat + y.key.size.toNat < 2 ^ 64)
    (hapart : ∀ y ∈ t.toList, ∀ z ∈ t.toList, y.key.Contains z.key.addr → z.key.addr = y.key.addr) :
    match rangeHit a t with
    | some x => x ∈ t.toList ∧ x.key.Contains a
    | none => ∀ y ∈ t.toList, ¬ y.key.Contains a := by
  induction t with
  | nil => simp [rangeHit]
  | node c l x r ihl ihr =>
    simp only [toList_node, List.mem_append, List.mem_cons] at hwrap hapart ⊢
    rcases hsorted.node with ⟨hsl, hsr, hl, hxr⟩
    replace ihl := ihl hsl (fun y hy => hwrap y (Or.inl hy))
      (fun y hy z hz => hapart y (Or.inl hy) z (Or.inl hz))
    replace ihr := ihr hsr (fun y hy => hwrap y (Or.inr (Or.inr hy)))
      (fun y hy z hz => hapart y (Or.inr (Or.inr hy)) z (Or.inr (Or.inr hz)))
    rcases compareObjRange_spec (a := a) (hwrap x (Or.inr (Or.inl rfl))) with ⟨hlt, hgt, heq⟩
    rw [rangeHit]
    cases hcmp : compareObjRange a x.key with
    | eq => exact ⟨Or.inr (Or.inl rfl), heq.mp hcmp⟩
    | lt =>
      -- neither this interval nor those on the right reach back to the address
      have hax := hlt.mp hcmp
      cases hhit : rangeHit a l with
      | some y =>
        rw [hhit] at ihl
        exact ⟨Or.inl ihl.1, ihl.2⟩
      | none =>
        rw [hhit] at ihl
        rintro y (hy | rfl | hy) hc
        · exact ihl y hy hc
        · exact absurd hc.1 (not_le.mpr hax)
        · exact absurd hc.1 (not_le.mpr (hax.trans (hxr y hy)))
    | gt =>
      -- an interval on the left that reaches the address would contain `x`
      have hxa := hgt.mp hcmp
      cases hhit : rangeHit a r with
      | some y =>
        rw [hhit] at ihr
        exact ⟨Or.inr (Or.inr ihr.1), ihr.2⟩
      | none =>
        rw [hhit] at ihr
        rintro y (hy | rfl | hy) hc
        · have hyx : y.key.addr.toNat < x.key.addr.toNat := hl y hy
          have hcx : y.key.Contains x.key.addr := by
            have hend := hc.2
            exact ⟨hyx.le, by omega⟩
          have hsame := hapart y (Or.inl hy) x (Or.inr (Or.inl rfl)) hcx
          rw [hsame] at hyx
          exact lt_irrefl _ hyx
        · exact absurd hc.2 (not_lt.mpr hxa)
        · exact ihr y hy hc

/-- `rbtree_lookup_range` returns what the search by range ends at. -/
theorem rbtreeLookupRange_eq (hT : Holds s [] t) (a baseAddr : Uptr) :
    rbtreeLookupRange a baseAddr s =
      some ((rangeHit a t).elim (0, baseAddr) fun x => (x.value, x.key.addr), s) := by
  have hlen : t.toList.length < s.heap.bound + 1 := Nat.lt_succ_of_le hT.length_le
  have hroot : s.root = ref t := hT.ctx
  have hloop := lookupNodeRangeLoop_spec a hT.focus _ hlen
  refine eval_of_wp ?_
  simp only [rbtreeLookupRange, lookupNodeRange, treeFuel, wp_bind, wp_get, wp_pure, hroot,
    wp_eval hloop, wp_ite]
  cases hx : rangeHit a t with
  | none => simp
  | some x =>
    rcases hT.focus.get_mem (rangeHit_some hx).1 with ⟨nd, hnd, hkey, hvalue⟩
    simp [wp_eval (load_some hnd), hkey, hvalue]

/-- `rbtree_lookup_range` on a tree whose intervals are apart. -/
theorem rbtreeLookupRange_spec {m : Entries} (hs : Tracks s m) (hm : Apart m)
    (a baseAddr : Uptr) :
    (∀ b size v, m b = some (size, v) → (⟨b, size⟩ : Key).Contains a →
        rbtreeLookupRange a baseAddr s = some ((v, b), s)) ∧
      ((∀ b size v, m b = some (size, v) → ¬ (⟨b, size⟩ : Key).Contains a) →
        rbtreeLookupRange a baseAddr s = some ((0, baseAddr), s)) := by
  rcases hs with ⟨T, hT, -, hL⟩
  have hmem : ∀ y ∈ T.toList, m y.key.addr = some (y.key.size, y.value) := fun y hy =>
    (hL.mem_iff _ _ _).mpr (List.mem_map.mpr ⟨y, hy, rfl⟩)
  -- what the search finds, by the order and the apartness of the intervals
  have hhit := rangeHit_spec a (t := T)
    (by have h := hL.sorted; rwa [Sorted, List.pairwise_map] at h)
    (fun y hy => (hm _ _ _ (hmem y hy)).1)
    (fun y hy z hz => (hm _ _ _ (hmem y hy)).2 _ _ _ (hmem z hz))
  rw [rbtreeLookupRange_eq hT]
  constructor
  · intro b size v hb hc
    have hin : (⟨⟨b, size⟩, v⟩ : Key × Uptr) ∈ T.toList.map Cell.entry := (hL.mem_iff _ _ _).mp hb
    rcases List.mem_map.mp hin with ⟨y, hy, hye⟩
    cases hx : rangeHit a T with
    | none =>
      rw [hx] at hhit
      have hkey : y.key = ⟨b, size⟩ := congrArg Prod.fst hye
      exact absurd (hkey ▸ hc) (hhit y hy)
    | some x =>
      rw [hx] at hhit
      have hmx := hmem x hhit.1
      -- at most one interval contains the address
      have hsame : x.key.addr = b := hm.unique hmx hb hhit.2 hc
      rw [hsame, hb] at hmx
      cases hmx
      rw [Option.elim_some, hsame]
  · intro hnone
    cases hx : rangeHit a T with
    | none => rfl
    | some x =>
      rw [hx] at hhit
      exact absurd hhit.2 (hnone _ _ _ (hmem x hhit.1))

/-- After any sequence of insertions and deletions that leaves the intervals
apart, lookup by range gives the value and the start of the interval that
contains the address, or null with the base address unchanged. -/
theorem rbtreeLookupRange_correct (malloc : Malloc) (h : Heap Node) (ops : List Op)
    (hapart : Apart (entriesOf ops)) (a baseAddr : Uptr) :
    ∃ s, runOps malloc ops (rbtreeCreate h) = some s ∧
      (∀ b size v, entriesOf ops b = some (size, v) → (⟨b, size⟩ : Key).Contains a →
        rbtreeLookupRange a baseAddr s = some ((v, b), s)) ∧
      ((∀ b size v, entriesOf ops b = some (size, v) → ¬ (⟨b, size⟩ : Key).Contains a) →
        rbtreeLookupRange a baseAddr s = some ((0, baseAddr), s)) := by
  rcases runOps_spec malloc h ops with ⟨s, hrun, hs⟩
  exact ⟨s, hrun, rbtreeLookupRange_spec hs hapart a baseAddr⟩

/-- Two stack objects, one of which has been left again. -/
theorem rbtreeLookupRange_correct_two :
    ∃ s, runOps .bump [.insert ⟨32, 8⟩ 1, .insert ⟨16, 8⟩ 2, .delete ⟨32, 8⟩]
        (rbtreeCreate .empty) = some s ∧
      rbtreeLookupRange 20 99 s = some ((2, 16), s) := by
  have hm : ∀ a size v, entriesOf [.insert ⟨32, 8⟩ 1, .insert ⟨16, 8⟩ 2, .delete ⟨32, 8⟩] a =
      some (size, v) → a = 16 ∧ size = 8 ∧ v = 2 := by
    intro a size v ha
    simp only [entriesOf, List.foldl_cons, List.foldl_nil, Op.apply] at ha
    split at ha
    · cases ha
    · split at ha
      · next h16 =>
        subst h16
        simpa [eq_comm] using ha
      · simp_all
  have hapart : Apart (entriesOf [.insert ⟨32, 8⟩ 1, .insert ⟨16, 8⟩ 2, .delete ⟨32, 8⟩]) := by
    intro a size v ha
    rcases hm a size v ha with ⟨rfl, rfl, rfl⟩
    exact ⟨by decide, fun b size' v' hb _ => (hm b size' v' hb).1⟩
  obtain ⟨s, hrun, hin, -⟩ := rbtreeLookupRange_correct .bump .empty
    [.insert ⟨32, 8⟩ 1, .insert ⟨16, 8⟩ 2, .delete ⟨32, 8⟩] hapart 20 99
  exact ⟨s, hrun, hin 16 8 2 rfl (by decide)⟩

/-- The intervals do not wrap and no address is in two of them. -/
def Disjointed (m : Entries) : Prop :=
  (∀ a size v, m a = some (size, v) → a.toNat + size.toNat < 2 ^ 64) ∧
    ∀ a b c sa sb va vb, m a = some (sa, va) → m b = some (sb, vb) → a ≠ b →
      (⟨a, sa⟩ : Key).Contains c → ¬ (⟨b, sb⟩ : Key).Contains c

/-- At every moment the intervals are disjoint, and no address is inserted that
is there already. -/
def Admissible (ops : List Op) : Prop :=
  ∀ pre, pre <+: ops → Disjointed (entriesOf pre) ∧
    ∀ key value, pre ++ [.insert key value] <+: ops → entriesOf pre key.addr = none

/-- An empty interval inside another one hides it from the search. -/
theorem rbtreeLookupRange_empty_interval :
    Admissible [.insert ⟨15, 0⟩ 1, .insert ⟨10, 10⟩ 2] ∧
      entriesOf [.insert ⟨15, 0⟩ 1, .insert ⟨10, 10⟩ 2] 10 = some (10, 2) ∧
      (⟨10, 10⟩ : Key).Contains 16 ∧
      ∃ s, runOps .bump [.insert ⟨15, 0⟩ 1, .insert ⟨10, 10⟩ 2] (rbtreeCreate .empty) = some s ∧
        rbtreeLookupRange 16 99 s = some ((0, 99), s) := by
  refine ⟨?_, rfl, by decide, _, rfl, rfl⟩
  intro pre hpre
  have hcases : pre = [] ∨ pre = [.insert ⟨15, 0⟩ 1] ∨
      pre = [.insert ⟨15, 0⟩ 1, .insert ⟨10, 10⟩ 2] := by
    simp only [List.prefix_cons_iff, List.prefix_nil] at hpre
    rcases hpre with rfl | ⟨t, rfl, rfl | ⟨u, rfl, rfl⟩⟩ <;> simp
  -- after each operation the entries are among these two
  have hm : ∀ a size v, entriesOf pre a = some (size, v) →
      a = 15 ∧ size = 0 ∨ a = 10 ∧ size = 10 := by
    intro a size v ha
    rcases hcases with rfl | rfl | rfl <;>
      simp only [entriesOf, List.foldl_cons, List.foldl_nil, Op.apply] at ha <;> grind
  refine ⟨⟨fun a size v ha => ?_, ?_⟩, fun key value hkey => ?_⟩
  · rcases hm a size v ha with ⟨rfl, rfl⟩ | ⟨rfl, rfl⟩ <;> decide
  · intro a b c sa sb va vb ha hb hne hac hbc
    have h15 : ∀ c, ¬ (⟨15, 0⟩ : Key).Contains c := fun c hc => by
      simp only [Key.Contains] at hc
      exact absurd hc.2 (not_lt.mpr hc.1)
    rcases hm a sa va ha with ⟨rfl, rfl⟩ | ⟨rfl, rfl⟩
    · exact h15 c hac
    · rcases hm b sb vb hb with ⟨rfl, rfl⟩ | ⟨rfl, rfl⟩
      · exact h15 c hbc
      · exact hne rfl
  · rcases hcases with rfl | rfl | rfl
    · rfl
    · simp only [List.cons_append, List.nil_append, List.cons_prefix_cons, Op.insert.injEq,
        true_and] at hkey
      rcases hkey with ⟨⟨rfl, rfl⟩, -⟩
      rfl
    · exact absurd hkey.length_le (by simp)

end Caver.Runtime
