import Caver.Runtime.RbTreeLookup

/-!
# Caver.Runtime.RbTreeReinsert — registering an address again

A stack slot or a global may be registered more than once, with objects of
different sizes. `rbtree_insert` has a branch of its own for an address that is
there, and it sets the value but not the size.

* `Registered`: what lookups should return after `rbtree_insert`.
* `rbtreeInsert_registered`: when they do, for every tree.
* `replaceable_iff_of_apart`: what that comes to where intervals are apart.
-/

namespace Caver.Runtime

open Caver.Core Caver.Core.RedBlackTree

variable {s s' : RbTree} {t t' T : RedBlackTree Cell} {x : Cell} {m : Entries} {k : Key}
  {v a : Uptr}

/-! ## Intervals around a key -/

/-- No address of the interval of `k` is in a stored interval with another start. -/
def DisjointFrom (m : Entries) (k : Key) : Prop :=
  ∀ b size w, m b = some (size, w) → b ≠ k.addr → ∀ a, k.Contains a →
    ¬ (⟨b, size⟩ : Key).Contains a

/-- An empty interval is stored behind the start of `k` and before its end. -/
def EmptyInside (m : Entries) (k : Key) : Prop :=
  ∃ b w, m b = some (0, w) ∧ b ≠ k.addr ∧ k.Contains b

/-- A stored interval with another start contains the address. -/
def Elsewhere (m : Entries) (k : Key) (a : Uptr) : Prop :=
  ∃ b size w, m b = some (size, w) ∧ b ≠ k.addr ∧ (⟨b, size⟩ : Key).Contains a

/-- Only the interval that was stored at the start of `k` contains the address. -/
def Stale (m : Entries) (k : Key) (a : Uptr) : Prop :=
  (∃ size w, m k.addr = some (size, w) ∧ (⟨k.addr, size⟩ : Key).Contains a) ∧
    ¬ k.Contains a ∧ ¬ Elsewhere m k a

/-- Lookups return `v` in the interval of `k`, and null where there was only the
old one. -/
structure Registered (m : Entries) (k : Key) (v : Uptr) (s : RbTree) : Prop where
  inside : ∀ a baseAddr, k.Contains a →
    ∃ base, rbtreeLookupRange a baseAddr s = some ((v, base), s)
  stale : ∀ a baseAddr, Stale m k a →
    ∃ base, rbtreeLookupRange a baseAddr s = some ((0, base), s)

theorem DisjointFrom.not_elsewhere (h : DisjointFrom m k) (ha : k.Contains a) :
    ¬ Elsewhere m k a := by
  rintro ⟨b, size, w, hb, hne, hc⟩
  exact h b size w hb hne a ha hc

/-- Unless there is an empty interval inside, what is stored behind the start of
`k` is behind its end. -/
theorem DisjointFrom.behind (h : DisjointFrom m k) (hempty : ¬ EmptyInside m k)
    {b size w : Uptr} (hb : m b = some (size, w)) (hlt : k.addr.toNat < b.toNat) :
    k.addr.toNat + k.size.toNat ≤ b.toNat := by
  have hne : b ≠ k.addr := by
    rintro rfl
    exact lt_irrefl _ hlt
  by_contra hin
  have hkb : k.Contains b := ⟨hlt.le, by omega⟩
  refine h b size w hb hne b hkb ⟨le_refl _, ?_⟩
  -- an interval that starts inside and is disjoint would be empty
  have hsize : size.toNat ≠ 0 := by
    intro h0
    obtain rfl : size = 0 := UInt64.toNat_inj.mp h0
    exact hempty ⟨b, w, hb, hne, hkb⟩
  dsimp only
  omega

/-! ## The search -/

/-- An address that compares equal with an interval is in it. -/
theorem Key.contains_of_compare (h : compareObjRange a k = .eq) : k.Contains a := by
  unfold compareObjRange at h
  have hsum : (k.addr + k.size).toNat ≤ k.addr.toNat + k.size.toNat := by
    rw [UInt64.toNat_add]
    exact Nat.mod_le _ _
  split at h
  · cases h
  · next hlo =>
    split at h
    · cases h
    · next hhi =>
      rw [UInt64.lt_iff_toNat_lt] at hlo
      rw [ge_iff_le, UInt64.le_iff_toNat_le] at hhi
      exact ⟨by omega, by omega⟩

/-- An address before an interval is sent to the left. -/
theorem compareObjRange_lt (h : a.toNat < k.addr.toNat) : compareObjRange a k = .lt := by
  unfold compareObjRange
  exact if_pos (UInt64.lt_iff_toNat_lt.mpr h)

/-- An address behind the start of an interval that does not match is behind it. -/
theorem compareObjRange_gt (hle : k.addr.toNat ≤ a.toNat) (hne : compareObjRange a k ≠ .eq) :
    compareObjRange a k = .gt := by
  have hlo : ¬ a < k.addr := by
    rw [UInt64.lt_iff_toNat_lt]
    omega
  unfold compareObjRange at hne ⊢
  rw [if_neg hlo] at hne ⊢
  split at hne
  · next hhi => exact if_pos hhi
  · exact absurd rfl hne

/-- An interval that contains an address compares equal with it unless it ends
behind the last address. -/
theorem Key.compare_eq_iff :
    compareObjRange a k = .eq ↔ k.addr.toNat + k.size.toNat < 2 ^ 64 ∧ k.Contains a := by
  constructor
  · intro h
    have hc := Key.contains_of_compare h
    refine ⟨?_, hc⟩
    by_contra hwrap
    -- the end wraps to an address before the start
    have hsum : (k.addr + k.size).toNat ≤ k.addr.toNat := by
      have hsize := k.size.toNat_lt
      rw [UInt64.toNat_add]
      omega
    have hle := hc.1
    unfold compareObjRange at h
    rw [if_neg (by rw [UInt64.lt_iff_toNat_lt]; omega),
      if_pos (by rw [ge_iff_le, UInt64.le_iff_toNat_le]; omega)] at h
    cases h
  · rintro ⟨hfits, hc⟩
    exact (compareObjRange_spec hfits).2.2.mpr hc

/-- The way down to the start of `k` turns left at a node that begins at `a` or
before it. -/
def Diverted (k : Key) (a : Uptr) : RedBlackTree Cell → Prop
  | .nil => False
  | .node _ l x r =>
    if k.addr.toNat < x.pos then x.pos ≤ a.toNat ∨ Diverted k a l
    else if x.pos < k.addr.toNat then Diverted k a r
    else False

instance decidableDiverted (k : Key) (a : Uptr) :
    (t : RedBlackTree Cell) → Decidable (Diverted k a t)
  | .nil => inferInstanceAs (Decidable False)
  | .node _ l x r =>
    have := decidableDiverted k a l
    have := decidableDiverted k a r
    inferInstanceAs (Decidable (if k.addr.toNat < x.pos then x.pos ≤ a.toNat ∨ Diverted k a l
      else if x.pos < k.addr.toNat then Diverted k a r else False))

/-- No node behind the start of `k` begins so early. -/
theorem not_diverted (h : ∀ y ∈ t.toList, k.addr.toNat < y.pos → a.toNat < y.pos) :
    ¬ Diverted k a t := by
  induction t with
  | nil => exact id
  | node c l y r ihl ihr =>
    simp only [toList_node, List.mem_append, List.mem_cons] at h
    rw [Diverted]
    split
    · next hlt =>
      have hay := h y (Or.inr (Or.inl rfl)) hlt
      rintro (hya | hl)
      · omega
      · exact ihl (fun z hz => h z (Or.inl hz)) hl
    · split
      · exact ihr fun z hz => h z (Or.inr (Or.inr hz))
      · exact id

/-- The way down does not depend on the values. -/
theorem diverted_congr (h : t'.map Cell.place = t.map Cell.place) :
    Diverted k a t' ↔ Diverted k a t := by
  induction t generalizing t' with
  | nil =>
    cases t' with
    | nil => rfl
    | node c' l' x' r' => cases h
  | node c l x r ihl ihr =>
    cases t' with
    | nil => cases h
    | node c' l' x' r' =>
      simp only [RedBlackTree.map, RedBlackTree.node.injEq] at h
      rcases h with ⟨-, hl, hx, hr⟩
      have hpos : x'.pos = x.pos := congrArg (fun e : Ptr × Key => e.2.addr.toNat) hx
      rw [Diverted, Diverted, hpos, ihl hl, ihr hr]

/-- The way down in a whole tree: what it passes above a place where `k` belongs,
and then within. -/
theorem diverted_plug {C : Ctx Cell} (hb : ∀ x ∈ before C, x.pos < k.addr.toNat)
    (ha : ∀ x ∈ after C, k.addr.toNat < x.pos) :
    Diverted k a (plug C t) ↔
      (∃ q ∈ C.map Frame.turn, q.1 = .left ∧ q.2.pos ≤ a.toNat) ∨ Diverted k a t := by
  induction C generalizing t with
  | nil => simp
  | cons f C ih =>
    rcases f with ⟨d, c, y, u⟩
    cases d with
    | left =>
      simp only [after, List.cons_append, List.mem_cons, forall_eq_or_imp, List.mem_append] at ha
      rw [plug_cons, ih hb fun x hx => ha.2 x (Or.inr hx)]
      simp only [Frame.fill, join_left, Diverted, if_pos ha.1, List.map_cons, List.mem_cons,
        exists_eq_or_imp, Frame.turn, true_and]
      rw [or_left_comm, or_assoc]
    | right =>
      simp only [before, List.mem_append, List.mem_singleton] at hb
      have hlt := hb y (Or.inr (Or.inr rfl))
      rw [plug_cons, ih (fun x hx => hb x (Or.inl hx)) ha]
      simp [Frame.fill, Diverted, if_neg (not_lt_of_gt hlt), if_pos hlt, Frame.turn]

/-- Where no interval contains the address nothing is found. -/
theorem rangeHit_none (h : ∀ y ∈ t.toList, ¬ y.key.Contains a) : rangeHit a t = none := by
  cases hx : rangeHit a t with
  | none => rfl
  | some x =>
    rcases rangeHit_some hx with ⟨hmem, hcmp⟩
    exact absurd (Key.contains_of_compare hcmp) (h x hmem)

/-- The search for an address that is in no interval but the one at the start of
`k`: it finds that one, unless the way to it is diverted. -/
theorem rangeHit_only (hsorted : Sorted Cell.pos t.toList) (hx : x ∈ t.toList)
    (hk : x.key.addr = k.addr) (ha : k.addr.toNat ≤ a.toNat)
    (honly : ∀ y ∈ t.toList, y.key.addr ≠ k.addr → ¬ y.key.Contains a) :
    rangeHit a t = some x ∧ compareObjRange a x.key = .eq ∧ ¬ Diverted k a t ∨
      rangeHit a t = none ∧ (compareObjRange a x.key ≠ .eq ∨ Diverted k a t) := by
  induction t with
  | nil => simp at hx
  | node c l y r ihl ihr =>
    rcases hsorted.node with ⟨hsl, hsr, -, hyr⟩
    have hmem := Sorted.mem_cases Cell.pos hsorted hx
    simp only [toList_node, List.mem_append, List.mem_cons] at honly
    have hxk : x.pos = k.addr.toNat := congrArg UInt64.toNat hk
    -- other intervals do not match
    have hother : ∀ z : Cell, z.pos ≠ k.addr.toNat → z.key.addr ≠ k.addr :=
      fun z hz h => hz (congrArg UInt64.toNat h)
    have hright : k.addr.toNat ≤ y.pos → rangeHit a r = none := by
      intro hle
      apply rangeHit_none
      intro z hz
      have hyz := hyr z hz
      exact honly z (Or.inr (Or.inr hz)) (hother z (by omega))
    have hgt : y.pos ≤ a.toNat → y.pos ≠ k.addr.toNat → compareObjRange a y.key = .gt := by
      intro hle hne
      apply compareObjRange_gt hle
      intro h
      exact honly y (Or.inr (Or.inl rfl)) (hother y hne) (Key.contains_of_compare h)
    rw [rangeHit, Diverted]
    rcases Nat.lt_trichotomy k.addr.toNat y.pos with hky | hky | hky
    · -- the interval at the start of `k` is on the left
      have hxl : x ∈ l.toList := by
        rcases hmem with ⟨-, h⟩ | rfl | ⟨h, -⟩
        · exact h
        · omega
        · omega
      rw [if_pos hky]
      by_cases hya : y.pos ≤ a.toNat
      · rw [hgt hya (by omega)]
        exact Or.inr ⟨hright hky.le, Or.inr (Or.inl hya)⟩
      · rw [compareObjRange_lt (not_le.mp hya)]
        simp only [hya, false_or]
        exact ihl hsl hxl fun z hz => honly z (Or.inl hz)
    · -- it is here
      have hyx : y = x := by
        rcases hmem with ⟨h, -⟩ | rfl | ⟨h, -⟩
        · omega
        · rfl
        · omega
      subst hyx
      rw [if_neg (by omega), if_neg (by omega)]
      by_cases hcmp : compareObjRange a y.key = .eq
      · rw [hcmp]
        exact Or.inl ⟨rfl, rfl, id⟩
      · have hle : y.pos ≤ a.toNat := by omega
        rw [compareObjRange_gt hle hcmp]
        exact Or.inr ⟨hright hky.le, Or.inl (by simp)⟩
    · -- it is on the right
      have hxr : x ∈ r.toList := by
        rcases hmem with ⟨h, -⟩ | rfl | ⟨-, h⟩
        · omega
        · omega
        · exact h
      rw [hgt (by omega) (by omega), if_neg (by omega), if_pos hky]
      exact ihr hsr hxr fun z hz => honly z (Or.inr (Or.inr hz))

/-! ## Registration -/

@[simp] theorem Op.apply_insert_self (m : Entries) (k : Key) (v : Uptr) :
    Op.apply m (.insert k v) k.addr = some ((m k.addr).elim k.size (·.1), v) :=
  if_pos rfl

theorem Op.apply_insert_of_ne {b : Uptr} (h : b ≠ k.addr) :
    Op.apply m (.insert k v) b = m b :=
  if_neg h

/-- What is stored elsewhere does not change. -/
theorem elsewhere_insert : Elsewhere (Op.apply m (.insert k v)) k a ↔ Elsewhere m k a := by
  refine exists_congr fun b => exists_congr fun size => exists_congr fun w => ?_
  refine and_congr_left ?_
  intro h
  rw [Op.apply_insert_of_ne h.1]

/-- The entry of a cell is in the map, and the other way round. -/
theorem Listing.get_cell (hL : Listing (T.toList.map Cell.entry) m) (hx : x ∈ T.toList) :
    m x.key.addr = some (x.key.size, x.value) :=
  (hL.mem_iff _ _ _).mpr (List.mem_map.mpr ⟨x, hx, rfl⟩)

theorem Listing.exists_cell (hL : Listing (T.toList.map Cell.entry) m) {b size w : Uptr}
    (hb : m b = some (size, w)) : ∃ x ∈ T.toList, x.key = ⟨b, size⟩ ∧ x.value = w := by
  rcases List.mem_map.mp ((hL.mem_iff _ _ _).mp hb) with ⟨x, hx, he⟩
  exact ⟨x, hx, congrArg Prod.fst he, congrArg Prod.snd he⟩

/-- The interval of the given size at the start of `k` ends in the address space
and contains the address, and the way to it is not diverted. -/
def Found (k : Key) (size a : Uptr) (t : RedBlackTree Cell) : Prop :=
  k.addr.toNat + size.toNat < 2 ^ 64 ∧ (⟨k.addr, size⟩ : Key).Contains a ∧ ¬ Diverted k a t

instance (k : Key) (size a : Uptr) (t : RedBlackTree Cell) : Decidable (Found k size a t) :=
  inferInstanceAs (Decidable (_ ∧ _))

/-- The value that a lookup gives for an address in no interval but the one at the
start of `k`. -/
theorem rbtreeLookupRange_only (hT : Holds s [] T) (hL : Listing (T.toList.map Cell.entry) m)
    {size : Uptr} (hm : m k.addr = some (size, v)) (ha : k.addr.toNat ≤ a.toNat)
    (honly : ¬ Elsewhere m k a) (baseAddr : Uptr) :
    ∃ base, rbtreeLookupRange a baseAddr s =
      some ((if Found k size a T then v else 0, base), s) := by
  rcases hL.exists_cell hm with ⟨x, hx, hkey, hv⟩
  have hother : ∀ y ∈ T.toList, y.key.addr ≠ k.addr → ¬ y.key.Contains a := by
    intro y hy hne hc
    exact honly ⟨_, _, _, hL.get_cell hy, hne, hc⟩
  have hhit := rangeHit_only hL.sorted_cells hx (by rw [hkey]) ha hother
  rw [Ne, Key.compare_eq_iff, hkey] at hhit
  rw [rbtreeLookupRange_eq hT]
  rcases hhit with ⟨hsome, ⟨hfits, hc⟩, hdiv⟩ | ⟨hnone, hmiss⟩
  · rw [hsome, if_pos ⟨hfits, hc, hdiv⟩, ← hv]
    exact ⟨_, rfl⟩
  · have hnot : ¬ Found k size a T := by
      rintro ⟨hfits, hc, hdiv⟩
      rcases hmiss with h | h
      · exact h ⟨hfits, hc⟩
      · exact hdiv h
    rw [hnone, if_neg hnot]
    exact ⟨_, rfl⟩

/-- Lookups return what `Registered` says if null is the value, or else if they
find the stored interval in all of the new one and nowhere outside. -/
theorem registered_iff {m' : Entries} {size : Uptr} (hT : Holds s [] T)
    (hL : Listing (T.toList.map Cell.entry) m') (hm : m' k.addr = some (size, v))
    (helse : ∀ {a}, Elsewhere m' k a ↔ Elsewhere m k a) (hdisj : DisjointFrom m k) :
    Registered m k v s ↔ v = 0 ∨
      (∀ a, k.Contains a → Found k size a T) ∧ ∀ a, Stale m k a → ¬ Found k size a T := by
  -- where nothing else contains the address, the node of `k` or none is found
  have hvalue : ∀ a, k.addr.toNat ≤ a.toNat → ¬ Elsewhere m k a → ∀ baseAddr, ∃ base,
      rbtreeLookupRange a baseAddr s = some ((if Found k size a T then v else 0, base), s) := by
    intro a ha honly
    exact rbtreeLookupRange_only hT hL hm ha (by rwa [helse])
  have hstale : ∀ a, Stale m k a → k.addr.toNat ≤ a.toNat := by
    rintro a ⟨⟨size, w, -, hc⟩, -⟩
    exact hc.1
  constructor
  · intro hreg
    by_cases hv : v = 0
    · exact Or.inl hv
    refine Or.inr ⟨fun a ha => ?_, fun a ha hfound => ?_⟩
    · rcases hvalue a ha.1 (hdisj.not_elsewhere ha) 0 with ⟨base, hlook⟩
      rcases hreg.inside a 0 ha with ⟨base', hlook'⟩
      by_contra hnot
      rw [if_neg hnot, hlook'] at hlook
      exact hv (by simpa using congrArg (Option.map (·.1.1)) hlook)
    · rcases hvalue a (hstale a ha) ha.2.2 0 with ⟨base, hlook⟩
      rcases hreg.stale a 0 ha with ⟨base', hlook'⟩
      rw [if_pos hfound, hlook'] at hlook
      exact hv (by simpa using (congrArg (Option.map (·.1.1)) hlook).symm)
  · intro h
    refine ⟨fun a baseAddr ha => ?_, fun a baseAddr ha => ?_⟩
    · rcases hvalue a ha.1 (hdisj.not_elsewhere ha) baseAddr with ⟨base, hlook⟩
      rcases h with rfl | ⟨hin, -⟩
      · exact ⟨base, by rw [hlook, ite_self]⟩
      · exact ⟨base, by rw [hlook, if_pos (hin a ha)]⟩
    · rcases hvalue a (hstale a ha) ha.2.2 baseAddr with ⟨base, hlook⟩
      rcases h with rfl | ⟨-, hout⟩
      · exact ⟨base, by rw [hlook, ite_self]⟩
      · exact ⟨base, by rw [hlook, if_neg (hout a ha)]⟩

/-- Where all of `k` is found, it fits and the stored interval is no shorter. -/
theorem Found.room {size : Uptr} (hk : 0 < k.size.toNat)
    (h : ∀ a, k.Contains a → Found k size a t) :
    k.addr.toNat + k.size.toNat < 2 ^ 64 ∧ k.size ≤ size ∧
      k.addr.toNat + size.toNat < 2 ^ 64 := by
  have hfits := (h k.addr ⟨le_refl _, by omega⟩).1
  -- the last address of the key, or of the address space
  have haddr := k.addr.toNat_lt
  have hlast : (UInt64.ofNat (min (k.addr.toNat + k.size.toNat - 1) (2 ^ 64 - 1))).toNat =
      min (k.addr.toNat + k.size.toNat - 1) (2 ^ 64 - 1) := by
    rw [UInt64.toNat_ofNat']
    omega
  have hend := (h (UInt64.ofNat (min (k.addr.toNat + k.size.toNat - 1) (2 ^ 64 - 1)))
    ⟨by rw [hlast]; omega, by rw [hlast]; omega⟩).2.1.2
  rw [hlast] at hend
  dsimp only at hend
  rw [UInt64.le_iff_toNat_le]
  refine ⟨by omega, by omega, hfits⟩

/-- No node that stays above the place of the new key begins inside its interval. -/
def RoomAbove (T : RedBlackTree Cell) (k : Key) : Prop :=
  ∀ f ∈ staying none (zoom Cell.pos k.addr.toNat [] T).1, ¬ k.Contains f.label.key.addr

/-- The key fits into the address space, and the tree leaves it room: above a new one,
no node begins inside, and for one that is there the stored interval is no shorter and
fits too, with the way to it diverted for all addresses outside `k` and for none inside. -/
def Replaceable (m : Entries) (T : RedBlackTree Cell) (k : Key) : Prop :=
  k.addr.toNat + k.size.toNat < 2 ^ 64 ∧
    (m k.addr = none → RoomAbove T k) ∧
    ∀ size w, m k.addr = some (size, w) →
      k.size ≤ size ∧ k.addr.toNat + size.toNat < 2 ^ 64 ∧
        (∀ a, k.Contains a → ¬ Diverted k a T) ∧ ∀ a, Stale m k a → Diverted k a T

/-- The way to a new node is diverted by what stays above it. -/
theorem diverted_repairRed {C : Ctx Cell} {p : Ptr}
    (hsorted : Sorted Cell.pos (repairRed C (.node .red .nil ⟨p, k, v⟩ .nil)).toList) :
    Diverted k a (repairRed C (.node .red .nil ⟨p, k, v⟩ .nil)) ↔
      ∃ f ∈ staying none C, f.side = .left ∧ f.label.pos ≤ a.toNat := by
  rcases repairRed_turns C [] .red .nil .nil ⟨p, k, v⟩ with ⟨D, c, l, r, htree, hperm⟩
  rw [plug_nil] at htree
  rw [htree, toList_plug] at hsorted
  simp only [Sorted, toList_node, List.pairwise_append, List.pairwise_cons, List.mem_append,
    List.mem_cons] at hsorted
  rcases hsorted with ⟨⟨-, -, hbefore⟩, -, hafter⟩
  have hb : ∀ x ∈ before D, x.pos < k.addr.toNat :=
    fun x hx => hbefore x hx _ (Or.inr (Or.inl rfl))
  have ha : ∀ x ∈ after D, k.addr.toNat < x.pos :=
    fun x hx => hafter _ (Or.inr (Or.inr (Or.inl rfl))) x hx
  have hnode : ¬ Diverted k a (.node c l ⟨p, k, v⟩ r) := by
    simp [Diverted, Cell.pos]
  rw [htree, diverted_plug hb ha, or_iff_left hnode]
  simp only [hperm.mem_iff, List.nil_append, List.mem_map, exists_exists_and_eq_and, Frame.turn]
  rfl

/-- A new key is found in all of its interval if and only if that ends before the
last address and no node above begins inside. -/
theorem found_new_iff {p : Ptr} (hsorted : Sorted Cell.pos T.toList)
    (hsorted' : Sorted Cell.pos (repairRed (zoom Cell.pos k.addr.toNat [] T).1
      (.node .red .nil ⟨p, k, v⟩ .nil)).toList) (hk : 0 < k.size.toNat) :
    (∀ a, k.Contains a → Found k k.size a (repairRed (zoom Cell.pos k.addr.toNat [] T).1
        (.node .red .nil ⟨p, k, v⟩ .nil))) ↔
      k.addr.toNat + k.size.toNat < 2 ^ 64 ∧ RoomAbove T k := by
  obtain ⟨hb, ha⟩ := zoom_bounds Cell.pos (k := k.addr.toNat) (C := []) (t := T) hsorted
    (by simp) (by simp)
  simp only [Found, diverted_repairRed hsorted', RoomAbove]
  constructor
  · intro h
    refine ⟨(h k.addr ⟨le_refl _, by omega⟩).1, fun f hf hc => ?_⟩
    rcases label_mem ((staying_sublist _ _).subset hf) with ⟨hside, -⟩ | ⟨-, hmem⟩
    · -- the search for its own start turns left there
      exact (h _ hc).2.2 ⟨f, hf, hside, le_refl _⟩
    · have hlt := hb _ hmem
      have hle := hc.1
      unfold Cell.pos at hlt
      omega
  · rintro ⟨hfits, hroom⟩ a hc
    refine ⟨hfits, hc, ?_⟩
    rintro ⟨f, hf, hside, hle⟩
    rcases label_mem ((staying_sublist _ _).subset hf) with ⟨-, hmem⟩ | ⟨hside', -⟩
    · have hlt := ha _ hmem
      have hend := hc.2
      unfold Cell.pos at hlt hle
      exact hroom f hf ⟨by omega, by omega⟩
    · rw [hside] at hside'
      cases hside'

/-- Without an empty interval inside, there is room. -/
theorem RoomAbove.of_not_empty (hL : Listing (T.toList.map Cell.entry) m)
    (hdisj : DisjointFrom m k) (hempty : ¬ EmptyInside m k) : RoomAbove T k := by
  intro f hf hc
  obtain ⟨hb, ha⟩ := zoom_bounds Cell.pos (k := k.addr.toNat) (C := []) (t := T) hL.sorted_cells
    (by simp) (by simp)
  rcases label_mem ((staying_sublist _ _).subset hf) with ⟨-, hmem⟩ | ⟨-, hmem⟩
  · have hcell : f.label ∈ T.toList := by
      have hplug := plug_zoom Cell.pos k.addr.toNat [] T
      rw [plug_nil] at hplug
      rw [← hplug, toList_plug]
      exact List.mem_append_right _ hmem
    have hend := hdisj.behind hempty (hL.get_cell hcell) (ha _ hmem)
    have hin := hc.2
    omega
  · have hlt := hb _ hmem
    have hle := hc.1
    unfold Cell.pos at hlt
    omega

/-- The interval of `k` is registered if and only if lookups give null everywhere,
or the tree leaves room for the key. -/
theorem rbtreeInsert_registered (malloc : Malloc) {n : ℕ} (hT : Holds s [] T)
    (hbal : Balanced T .black n) (hL : Listing (T.toList.map Cell.entry) m)
    (hk : 0 < k.size.toNat) (hdisj : DisjointFrom m k) :
    ∃ s', rbtreeInsert malloc k v s = some ((), s') ∧
      (Registered m k v s' ↔ v = 0 ∨ Replaceable m T k) := by
  rcases rbtreeInsert_inserted malloc k v hT hbal hL.sorted_cells with ⟨⟨⟩, s', hrun, hins⟩
  rcases hins.tree hbal hL with ⟨T', hT', -, hL', hcase⟩
  refine ⟨s', hrun, ?_⟩
  rw [registered_iff hT' hL' (Op.apply_insert_self m k v) elsewhere_insert hdisj]
  refine or_congr_right ?_
  rcases hcase with ⟨hnone, -, rfl⟩ | ⟨hsome, hplace⟩
  · -- the key is new, and no address is stale
    have hold : ∀ size w, m k.addr ≠ some (size, w) := by simp [hnone]
    have hstale : ∀ a, ¬ Stale m k a := by
      rintro a ⟨⟨size, w, hm, -⟩, -⟩
      exact hold size w hm
    rw [hnone, Option.elim_none, found_new_iff hL.sorted_cells hL'.sorted_cells hk, Replaceable]
    simp [hnone, hstale]
  · -- the key is there, and its node keeps its place and its size
    rcases Option.ne_none_iff_exists'.mp hsome with ⟨⟨size, w⟩, hm⟩
    simp only [Found, hm, Option.elim_some, diverted_congr hplace]
    constructor
    · rintro ⟨hin, hout⟩
      rcases Found.room hk hin with ⟨hfits, hle, hfits'⟩
      refine ⟨hfits, fun hnone => absurd hnone hsome, fun size' w' hm' => ?_⟩
      rcases Prod.mk.inj (Option.some.inj (hm.symm.trans hm')) with ⟨rfl, rfl⟩
      refine ⟨hle, hfits', fun a ha => (hin a ha).2.2, fun a ha => ?_⟩
      by_contra hdiv
      rcases ha.1 with ⟨size', w', hm', hc⟩
      rcases Prod.mk.inj (Option.some.inj (hm.symm.trans hm')) with ⟨rfl, rfl⟩
      exact hout a ha ⟨hfits', hc, hdiv⟩
    · rintro ⟨-, -, hroom⟩
      rcases hroom size w hm with ⟨hle, hfits, hin, hout⟩
      rw [UInt64.le_iff_toNat_le] at hle
      refine ⟨fun a ha => ⟨hfits, ⟨ha.1, ?_⟩, hin a ha⟩, fun a ha hfound =>
        hfound.2.2 (hout a ha)⟩
      have hend := ha.2
      dsimp only
      omega

/-- A slot that is registered again with the size it had. -/
theorem rbtreeInsert_registered_again :
    ∃ s s', runOps .bump [.insert ⟨16, 8⟩ 1] (rbtreeCreate .empty) = some s ∧
      rbtreeInsert .bump ⟨16, 8⟩ 2 s = some ((), s') ∧
      Registered (entriesOf [.insert ⟨16, 8⟩ 1]) ⟨16, 8⟩ 2 s' := by
  have hm : ∀ b size w, entriesOf [.insert ⟨16, 8⟩ 1] b = some (size, w) → b = 16 ∧ size = 8 := by
    intro b size w hb
    simp only [entriesOf, List.foldl_cons, List.foldl_nil, Op.apply] at hb
    split at hb
    · next h16 =>
      cases hb
      exact ⟨h16, rfl⟩
    · cases hb
  rcases runOps_spec .bump .empty [.insert ⟨16, 8⟩ 1] with ⟨s, hrun, T, hT, ⟨n, hbal⟩, hL⟩
  have hdisj : DisjointFrom (entriesOf [.insert ⟨16, 8⟩ 1]) ⟨16, 8⟩ := by
    intro b size w hb hne
    exact absurd (hm b size w hb).1 hne
  obtain ⟨s', hins, hreg⟩ :=
    rbtreeInsert_registered .bump (k := ⟨16, 8⟩) (v := 2) hT hbal hL (by decide) hdisj
  refine ⟨s, s', hrun, hins, hreg.mpr (Or.inr ⟨by decide, ?_, fun size w hb => ?_⟩)⟩
  · exact fun hnone => absurd hnone (by decide)
  rcases hm 16 size w hb with ⟨-, rfl⟩
  refine ⟨by decide, by decide, fun a _ => not_diverted fun y hy hlt => ?_, fun a ha => ?_⟩
  · have hpos : y.pos = 16 := congrArg UInt64.toNat (hm _ _ _ (hL.get_cell hy)).1
    rw [hpos] at hlt
    exact absurd hlt (by decide)
  · rcases ha with ⟨⟨size', w', hb', hc⟩, hnot, -⟩
    rcases hm 16 size' w' hb' with ⟨-, rfl⟩
    exact absurd hc hnot

/-- Two registrations of one slot, the second for a longer object: its last
addresses stay unregistered. -/
theorem rbtreeInsert_longer :
    ∃ s s', runOps .bump [.insert ⟨16, 8⟩ 1] (rbtreeCreate .empty) = some s ∧
      DisjointFrom (entriesOf [.insert ⟨16, 8⟩ 1]) ⟨16, 16⟩ ∧
      rbtreeInsert .bump ⟨16, 16⟩ 2 s = some ((), s') ∧
      ¬ Registered (entriesOf [.insert ⟨16, 8⟩ 1]) ⟨16, 16⟩ 2 s' := by
  refine ⟨_, _, rfl, ?_, rfl, fun hreg => ?_⟩
  · intro b size w hb hne
    have hnone : entriesOf [.insert ⟨16, 8⟩ 1] b = none := if_neg hne
    rw [hnone] at hb
    cases hb
  · obtain ⟨base, h⟩ := hreg.inside 28 99 (by decide)
    cases h

/-- Where intervals are apart and none is empty, only the size can be in the way. -/
theorem replaceable_iff_of_apart (hL : Listing (T.toList.map Cell.entry) m)
    (hm : Apart m) (hne : ∀ b w, m b ≠ some (0, w)) (hdisj : DisjointFrom m k) :
    Replaceable m T k ↔ k.addr.toNat + k.size.toNat < 2 ^ 64 ∧
      ∀ size w, m k.addr = some (size, w) → size = k.size := by
  have hempty : ¬ EmptyInside m k := by
    rintro ⟨b, w, hb, -⟩
    exact hne b w hb
  constructor
  · rintro ⟨hfits, -, hroom⟩
    refine ⟨hfits, ?_⟩
    intro size w hold
    rcases hroom size w hold with ⟨hle, hfits', -, hout⟩
    rw [UInt64.le_iff_toNat_le] at hle
    by_contra hsize
    have hlt : k.size.toNat < size.toNat :=
      lt_of_le_of_ne hle fun h => hsize (UInt64.toNat_inj.mp h.symm)
    -- the first address behind the key is stale and on no other interval's way
    have hend : (k.addr + k.size).toNat = k.addr.toNat + k.size.toNat := by
      rw [UInt64.toNat_add, Nat.mod_eq_of_lt hfits]
    have hin : (⟨k.addr, size⟩ : Key).Contains (k.addr + k.size) :=
      ⟨by dsimp only; omega, by dsimp only; omega⟩
    have hstale : Stale m k (k.addr + k.size) := by
      refine ⟨⟨size, w, hold, hin⟩, fun hc => ?_, ?_⟩
      · have hlast := hc.2
        omega
      · rintro ⟨b, size', w', hb, hbne, hc⟩
        exact hbne (hm.unique hb hold hc hin)
    refine not_diverted (fun y hy hky => ?_) (hout _ hstale)
    by_contra hbefore
    have hin' : (⟨k.addr, size⟩ : Key).Contains y.key.addr := by
      unfold Cell.pos at hky hbefore
      exact ⟨hky.le, by dsimp only; omega⟩
    have hsame := (hm _ _ _ hold).2 _ _ _ (hL.get_cell hy) hin'
    have hpos : y.pos = k.addr.toNat := congrArg UInt64.toNat hsame
    omega
  · rintro ⟨hfits, hsize⟩
    refine ⟨hfits, fun _ => .of_not_empty hL hdisj hempty, fun size w hold => ?_⟩
    obtain rfl := hsize size w hold
    refine ⟨UInt64.le_refl _, hfits, fun a ha => not_diverted fun y hy hlt => ?_, fun a ha => ?_⟩
    · exact lt_of_lt_of_le ha.2 (hdisj.behind hempty (hL.get_cell hy) hlt)
    · rcases ha with ⟨⟨size', w', hold', hc⟩, hnot, -⟩
      obtain rfl := hsize size' w' hold'
      exact absurd hc hnot

end Caver.Runtime
