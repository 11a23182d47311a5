import Caver.Runtime.RbTreeBalance
import Caver.Runtime.RbTreeNodes

/-!
# Caver.Runtime.RbTreeMap — the tree as a map from addresses

The abstract view of a tree is a partial map from start addresses to the size
and value stored there. `Tracks s m` says that `s` holds a red-black tree with
exactly the entries of `m`; `rbtree_insert` and `rbtree_delete` keep it while
the map changes as `Op.apply` says, so it holds after every sequence of
operations.
-/

namespace Caver.Runtime

open Caver.Core Caver.Core.RedBlackTree

variable {s s' : RbTree} {C : Ctx Cell} {t l r : RedBlackTree Cell} {x y : Cell} {c : Color}
  {p : Ptr} {par : Ref}

/-! ## The abstract map -/

/-- The key and value stored in a node. -/
def Cell.entry (x : Cell) : Key × Uptr := (x.key, x.value)

/-- Start address to size and value. -/
abbrev Entries := Uptr → Option (Uptr × Uptr)

/-- What an operation does to the map: inserting at an address that is there
already sets the value and keeps the size. -/
def Op.apply (m : Entries) : Op → Entries
  | .insert key value => fun a =>
    if a = key.addr then some ((m a).elim key.size (·.1), value) else m a
  | .delete key => fun a => if a = key.addr then none else m a

/-- The list has the entries of `m`, in increasing order of address. -/
structure Listing (L : List (Key × Uptr)) (m : Entries) : Prop where
  sorted : Sorted (fun e : Key × Uptr => e.1.addr.toNat) L
  mem_iff : ∀ a size value, m a = some (size, value) ↔ ((⟨a, size⟩, value) : Key × Uptr) ∈ L

/-- The state holds a red-black tree with the entries of `m`. -/
def Tracks (s : RbTree) (m : Entries) : Prop :=
  ∃ T : RedBlackTree Cell, Holds s [] T ∧ (∃ n, Balanced T .black n) ∧
    Listing (T.toList.map Cell.entry) m

section Listing

variable {B A : List (Key × Uptr)} {m : Entries} {key : Key}

/-- An address between two entries is absent. -/
theorem Listing.absent (h : Listing (B ++ A) m)
    (hB : ∀ e ∈ B, e.1.addr.toNat < key.addr.toNat)
    (hA : ∀ e ∈ A, key.addr.toNat < e.1.addr.toNat) :
    m key.addr = none := by
  cases hm : m key.addr with
  | none => rfl
  | some e =>
    have hmem := (h.mem_iff key.addr e.1 e.2).mp hm
    rcases List.mem_append.mp hmem with he | he
    · exact absurd (hB _ he) (lt_irrefl _)
    · exact absurd (hA _ he) (lt_irrefl _)

theorem Listing.insert (value : Uptr) (h : Listing (B ++ A) m)
    (hB : ∀ e ∈ B, e.1.addr.toNat < key.addr.toNat)
    (hA : ∀ e ∈ A, key.addr.toNat < e.1.addr.toNat) :
    Listing (B ++ (key, value) :: A) (Op.apply m (.insert key value)) := by
  have habs := h.absent hB hA
  refine ⟨?_, fun a size v => ?_⟩
  · have hs := h.sorted
    simp only [Sorted, List.pairwise_append, List.pairwise_cons, List.mem_cons] at hs ⊢
    rcases hs with ⟨hsB, hsA, hBA⟩
    refine ⟨hsB, ⟨hA, hsA⟩, ?_⟩
    rintro e he f (rfl | hf)
    · exact hB e he
    · exact hBA e he f hf
  · have hiff := h.mem_iff a size v
    simp only [Op.apply, List.mem_append, List.mem_cons, Prod.mk.injEq] at hiff ⊢
    split
    · next ha =>
      subst ha
      -- no entry of the address was there
      rw [habs] at hiff ⊢
      rcases key with ⟨ka, ks⟩
      simp only [reduceCtorEq, false_iff, not_or] at hiff
      simp [hiff.1, hiff.2, eq_comm]
    · next ha =>
      rw [hiff]
      rcases key with ⟨ka, ks⟩
      simp [ha]

theorem Listing.sides {e : Key × Uptr} (h : Listing (B ++ e :: A) m) :
    (∀ f ∈ B, f.1.addr.toNat < e.1.addr.toNat) ∧ ∀ f ∈ A, e.1.addr.toNat < f.1.addr.toNat := by
  have hs := h.sorted
  simp only [Sorted, List.pairwise_append, List.pairwise_cons] at hs
  exact ⟨fun f hf => hs.2.2 f hf e List.mem_cons_self, hs.2.1.1⟩

/-- An address with an entry has no entry before or after that. -/
theorem Listing.not_mem {e : Key × Uptr} (h : Listing (B ++ e :: A) m) (size v : Uptr) :
    ((⟨e.1.addr, size⟩, v) : Key × Uptr) ∉ B ∧ ((⟨e.1.addr, size⟩, v) : Key × Uptr) ∉ A :=
  ⟨fun hB => lt_irrefl e.1.addr.toNat (h.sides.1 (⟨e.1.addr, size⟩, v) hB),
    fun hA => lt_irrefl e.1.addr.toNat (h.sides.2 (⟨e.1.addr, size⟩, v) hA)⟩

theorem Listing.set {e : Key × Uptr} (value : Uptr) (h : Listing (B ++ e :: A) m)
    (he : e.1.addr = key.addr) :
    Listing (B ++ (e.1, value) :: A) (Op.apply m (.insert key value)) := by
  rcases e with ⟨⟨ea, es⟩, ev⟩
  rcases key with ⟨ka, ks⟩
  obtain rfl : ea = ka := he
  refine ⟨?_, fun a size v => ?_⟩
  · have hs := h.sorted
    simpa only [Sorted, List.pairwise_append, List.pairwise_cons, List.mem_cons,
      forall_eq_or_imp] using hs
  · have hm : m ea = some (es, ev) := (h.mem_iff ea es ev).mpr (by simp)
    have hiff := h.mem_iff a size v
    simp only [Op.apply, List.mem_append, List.mem_cons, Prod.mk.injEq, Key.mk.injEq] at hiff ⊢
    split
    · next ha =>
      subst ha
      have hnot := h.not_mem size v
      simp only at hnot
      simp [hm, hnot.1, hnot.2, eq_comm]
    · next ha =>
      rw [hiff]
      simp [ha]

theorem Listing.erase {e : Key × Uptr} (h : Listing (B ++ e :: A) m) (he : e.1.addr = key.addr) :
    Listing (B ++ A) (Op.apply m (.delete key)) := by
  rcases e with ⟨⟨ea, es⟩, ev⟩
  rcases key with ⟨ka, ks⟩
  obtain rfl : ea = ka := he
  refine ⟨?_, fun a size v => ?_⟩
  · refine List.Pairwise.sublist ?_ h.sorted
    exact List.Sublist.append_left (List.sublist_cons_self _ _) _
  · have hiff := h.mem_iff a size v
    simp only [Op.apply, List.mem_append, List.mem_cons, Prod.mk.injEq, Key.mk.injEq] at hiff ⊢
    split
    · next ha =>
      subst ha
      have hnot := h.not_mem size v
      simp only at hnot
      simp [hnot.1, hnot.2]
    · next ha =>
      rw [hiff]
      simp [ha]

end Listing

/-! ## Comparisons -/

/-- The position of a node in the order of the tree. -/
def Cell.pos (x : Cell) : ℕ := x.key.addr.toNat

theorem compareObj_lt {a b : Key} :
    compareObj a b = .lt ↔ a.addr.toNat < b.addr.toNat := by
  simp only [compareObj, UInt64.lt_iff_toNat_lt, gt_iff_lt]
  split
  · simpa
  · split <;> simp_all

theorem compareObj_gt {a b : Key} :
    compareObj a b = .gt ↔ b.addr.toNat < a.addr.toNat := by
  simp only [compareObj, UInt64.lt_iff_toNat_lt, gt_iff_lt]
  split
  · simp; omega
  · split <;> simp_all

theorem compareObj_eq {a b : Key} : compareObj a b = .eq ↔ a.addr.toNat = b.addr.toNat := by
  simp only [compareObj, UInt64.lt_iff_toNat_lt, gt_iff_lt]
  split
  · simp; omega
  · split
    · simp; omega
    · simp; omega

/-! ## Lookup by address -/

theorem lookupNodeLoop_spec (key : Key) (hr : Rep s.heap par t) (C : Ctx Cell) (fuel : ℕ)
    (hfuel : t.toList.length < fuel) :
    lookupNodeLoop key fuel (ref t) s =
      some (ref (zoom Cell.pos key.addr.toNat C t).2, s) := by
  induction t generalizing par C fuel with
  | nil =>
    cases fuel with
    | zero => omega
    | succ fuel => rfl
  | node c l x r ihl ihr =>
    cases fuel with
    | zero => omega
    | succ fuel =>
      rcases hr with ⟨hx, hl, hr⟩
      simp only [toList_node, List.length_append, List.length_cons] at hfuel
      refine eval_of_wp ?_
      simp only [lookupNodeLoop, wp_bind, ref_node, reduceCtorEq, if_false,
        wp_eval (load_some hx), zoom]
      -- the loop goes where the zoom goes
      cases hcmp : compareObj key x.key with
      | lt =>
        have hlt : key.addr.toNat < x.pos := compareObj_lt.mp hcmp
        rw [if_pos hlt]
        simp only [wp_bind, wp_eval (load_some hx)]
        exact (wp_eval (ihl hl _ fuel (by omega))).mpr ⟨rfl, rfl⟩
      | eq =>
        have heq : key.addr.toNat = x.pos := compareObj_eq.mp hcmp
        rw [if_neg (by omega), if_neg (by omega)]
        simp
      | gt =>
        have hgt : x.pos < key.addr.toNat := compareObj_gt.mp hcmp
        rw [if_neg (by omega), if_pos hgt]
        simp only [wp_bind, wp_eval (load_some hx)]
        exact (wp_eval (ihr hr _ fuel (by omega))).mpr ⟨rfl, rfl⟩

/-- `lookup_node` finds the end of the search for the key. -/
theorem lookupNode_spec (key : Key) (hs : Holds s [] t) :
    lookupNode key s = some (ref (zoom Cell.pos key.addr.toNat [] t).2, s) := by
  have hlen : t.toList.length < s.heap.bound + 1 := Nat.lt_succ_of_le hs.length_le
  have hroot : s.root = ref t := hs.ctx
  refine eval_of_wp ?_
  simp only [lookupNode, treeFuel, wp_bind, wp_get, wp_pure, hroot]
  exact (wp_eval (lookupNodeLoop_spec key hs.focus [] _ hlen)).mpr ⟨rfl, rfl⟩

/-! ## Insertion -/

/-- The loop of `rbtree_insert`: it ends at the node with the key, whose value
it sets, or at an empty hole, where it hangs the new node. -/
theorem insertLoop_spec (key : Key) (value : Uptr) (inserted : Ref) (fuel : ℕ)
    (hs : Holds s C t) (hp : ref t = some p) (hfuel : t.toList.length < fuel) :
    wp (insertLoop key value inserted fuel (some p)) (fun res s' =>
      match (zoom Cell.pos key.addr.toNat C t).2 with
      | .nil => res = some (up (zoom Cell.pos key.addr.toNat C t).1) ∧
          s' = s.setHole (zoom Cell.pos key.addr.toNat C t).1 inserted
      | .node c l x r => res = none ∧
          Holds s' (zoom Cell.pos key.addr.toNat C t).1
            (node c l { x with value := value } r)) s := by
  induction t generalizing C p fuel with
  | nil => cases hp
  | node c l x r ihl ihr =>
    cases hp
    cases fuel with
    | zero => omega
    | succ fuel =>
      simp only [toList_node, List.length_append, List.length_cons] at hfuel
      simp only [insertLoop, wp_bind, wp_eval hs.load, zoom]
      cases hcmp : compareObj key x.key with
      | lt =>
        have hlt : key.addr.toNat < x.pos := compareObj_lt.mp hcmp
        simp only [if_pos hlt, wp_bind, wp_ite, wp_eval hs.load]
        cases l with
        | nil =>
          -- the hole on the left
          simp only [ref_nil, if_true, wp_store (Option.isSome_of_eq_some hs.get), wp_pure]
          exact ⟨rfl, rfl⟩
        | node cl ll xl rl =>
          simp only [ref_node, reduceCtorEq, if_false]
          exact ihl _ (holds_cons.mpr hs) rfl (by omega)
      | eq =>
        have heq : key.addr.toNat = x.pos := compareObj_eq.mp hcmp
        rw [if_neg (by omega), if_neg (by omega)]
        -- the value is overwritten, the key with its size stays
        simp only [wp_bind]
        refine hs.set_node (d := .left) { x with value := value } c rfl (fun _ _ _ => rfl)
          fun s' hs' => ?_
        exact (wp_pure _).mpr ⟨rfl, hs'⟩
      | gt =>
        have hgt : x.pos < key.addr.toNat := compareObj_gt.mp hcmp
        have hnlt : ¬ key.addr.toNat < x.pos := by omega
        simp only [if_pos hgt, if_neg hnlt, wp_bind, wp_ite, wp_eval hs.load]
        cases r with
        | nil =>
          simp only [ref_nil, if_true, wp_store (Option.isSome_of_eq_some hs.get), wp_pure]
          exact ⟨rfl, rfl⟩
        | node cr lr xr rr =>
          simp only [ref_node, reduceCtorEq, if_false]
          exact ihr _ (holds_cons.mpr hs) rfl (by omega)

/-- The search for a key in a tree with the entries of a map splits the
entries into smaller and larger ones. -/
theorem zoom_split {T : RedBlackTree Cell} {m : Entries} (hL : Listing (T.toList.map Cell.entry) m)
    (key : Key) :
    (∀ e ∈ (before (zoom Cell.pos key.addr.toNat [] T).1).map Cell.entry,
        e.1.addr.toNat < key.addr.toNat) ∧
      ∀ e ∈ (after (zoom Cell.pos key.addr.toNat [] T).1).map Cell.entry,
        key.addr.toNat < e.1.addr.toNat := by
  have hsorted : Sorted Cell.pos (plug [] T).toList := by
    have h := hL.sorted
    rwa [Sorted, List.pairwise_map] at h
  obtain ⟨hb, ha⟩ := zoom_bounds Cell.pos (k := key.addr.toNat) hsorted (by simp) (by simp)
  simp only [List.mem_map, forall_exists_index, and_imp, forall_apply_eq_imp_iff₂]
  exact ⟨hb, ha⟩

/-- `rbtree_malloc` of a node changes no stored tree; the node is new. -/
theorem rbtreeMalloc_spec {Q : Ref → RbTree → Prop} (malloc : Malloc) (nd : Node)
    (hs : Holds s C t)
    (hQ : ∀ p s', p = malloc.answer s.mallocs s.heap → Holds s' C t →
      s'.heap.get p = some nd → s'.root = s.root →
      (∀ z ∈ (plug C t).toList, z.ptr ≠ p) → Q (some p) s') :
    wp (rbtreeMalloc malloc nd) Q s := by
  have hfresh := malloc.answer_fresh s.mallocs s.heap
  have hne : ∀ z ∈ (plug C t).toList, z.ptr ≠ malloc.answer s.mallocs s.heap := by
    intro z hz heq
    have hsome := hs.isSome z hz
    rw [heq, hfresh] at hsome
    cases hsome
  simp only [rbtreeMalloc, wp_bind, wp_get, wp_modify, wp_pure]
  refine hQ _ _ rfl (hs.congr rfl fun y hy => ?_) ?_ rfl hne
  · exact Heap.get_insert_of_ne _ _ (hne y hy)
  · exact Heap.get_insert_self _ _ _

/-- A new red leaf in an empty hole, from which `insert_case1` repairs the tree. -/
theorem insertCase1_leaf {key : Key} {value : Uptr} {n : ℕ}
    (hs : Holds s C (node .red .nil ⟨p, key, value⟩ .nil))
    (hbal : Balanced (plug C .nil) .black n) :
    wp (insertCase1 (s.heap.bound + 1) (some p))
      (fun _ s' => Holds s' [] (repairRed C (node .red .nil ⟨p, key, value⟩ .nil))) s := by
  rcases hbal.of_plug with ⟨c, k, hC, hnil⟩
  cases hnil
  exact insertCase1_spec _ hs hC hs.context_lt

/-- The trees that `rbtree_insert` makes of `T`: where the key is absent it has a
new node with the address `p`, and where it is there its node has the value. -/
inductive Inserted (T : RedBlackTree Cell) (key : Key) (value : Uptr) (p : Ptr) (s : RbTree) : Prop
  | absent (C : Ctx Cell) : zoom Cell.pos key.addr.toNat [] T = (C, .nil) →
      Holds s [] (repairRed C (.node .red .nil ⟨p, key, value⟩ .nil)) → Inserted T key value p s
  | present (C : Ctx Cell) (c : Color) (l : RedBlackTree Cell) (x : Cell) (r : RedBlackTree Cell) :
      T = plug C (.node c l x r) → x.key.addr = key.addr →
      Holds s [] (plug C (.node c l { x with value := value } r)) → Inserted T key value p s

theorem rbtreeInsert_inserted {T : RedBlackTree Cell} {n : ℕ} (malloc : Malloc) (key : Key)
    (value : Uptr) (hT : Holds s [] T) (hbal : Balanced T .black n)
    (hsorted : Sorted Cell.pos T.toList) :
    wp (rbtreeInsert malloc key value)
      (fun _ s' => Inserted T key value (malloc.answer s.mallocs s.heap) s') s := by
  have hplug := plug_zoom Cell.pos key.addr.toNat [] T
  have hend := zoom_snd Cell.pos key.addr.toNat [] T
  simp only [rbtreeInsert, newNode, wp_bind]
  -- the new node is allocated before the search
  refine rbtreeMalloc_spec malloc _ hT ?_
  intro p s hp' hT hp _ hfresh
  rw [← hp']
  have hroot : s.root = ref T := hT.ctx
  have hset : ∀ s Q, wp (setParent none (some p)) Q s ↔ Q () s := fun s Q => wp_setParent (by simp)
  simp only [hset, wp_pure, wp_get, wp_ite, hroot, treeFuel, wp_bind]
  cases hTn : T with
  | nil =>
    -- the tree was empty
    subst hTn
    simp only [ref_nil, if_true, setRoot, wp_modify]
    have hleaf : Holds { s with root := some p } [] (node .red .nil ⟨p, key, value⟩ .nil) :=
      ⟨rfl, ⟨hp, trivial, trivial⟩, by simp⟩
    refine (insertCase1_leaf hleaf hbal).mono ?_
    intro _ s' hs'
    exact .absent [] rfl hs'
  | node c l x r =>
    have hlen : T.toList.length < s.heap.bound + 1 := Nat.lt_succ_of_le hT.length_le
    simp only [ref_node, reduceCtorEq, if_false]
    refine (insertLoop_spec key value (some p) _ hT (by rw [hTn]; rfl) hlen).mono ?_
    intro res s' hres
    rw [← hTn]
    clear hTn
    generalize hz : zoom Cell.pos key.addr.toNat [] T = z at *
    rcases z with ⟨C, t⟩
    dsimp only at hplug hend hres
    rcases hend with rfl | ⟨c, l, x, r, rfl, hx⟩
    · -- a new node was hung under the last node of the search
      rcases hres with ⟨rfl, rfl⟩
      obtain rfl : plug C .nil = T := hplug
      have hC : Holds s C .nil := holds_root.mpr hT
      have hne : ∀ z ∈ before C ++ after C, z.ptr ≠ p := by
        simpa [toList_plug] using hfresh
      have hleaf := hC.hang hp rfl hne
      simp only [wp_bind]
      rw [wp_store (by rw [get_setHole hne, hp]; rfl)]
      simp only [wp_get, wp_pure]
      exact (insertCase1_leaf hleaf hbal).mono fun _ s' hs' => .absent C hz hs'
    · -- the key was there
      rcases hres with ⟨rfl, hs'⟩
      rw [wp_pure]
      obtain rfl : plug C (.node c l x r) = T := hplug
      exact .present C c l x r rfl (UInt64.toNat_inj.mp hx) (holds_root.mp hs')

/-- A node without its value. -/
def Cell.place (x : Cell) : Ptr × Key := (x.ptr, x.key)

/-- What has been inserted is in the map. A new key has the new node, and the tree
is repaired from there; for another one the tree stays as it is but for the value. -/
theorem Inserted.tree {T : RedBlackTree Cell} {n : ℕ} {m : Entries} {key : Key} {value : Uptr}
    (h : Inserted T key value p s) (hbal : Balanced T .black n)
    (hL : Listing (T.toList.map Cell.entry) m) :
    ∃ T', Holds s [] T' ∧ (∃ n, Balanced T' .black n) ∧
      Listing (T'.toList.map Cell.entry) (Op.apply m (.insert key value)) ∧
      ((m key.addr = none ∧ (T'.toList.map Cell.ptr).Perm (p :: T.toList.map Cell.ptr) ∧
          T' = repairRed (zoom Cell.pos key.addr.toNat [] T).1
            (.node .red .nil ⟨p, key, value⟩ .nil)) ∨
        (m key.addr ≠ none ∧ T'.map Cell.place = T.map Cell.place)) := by
  cases h with
  | absent C hz hs =>
    obtain ⟨hB, hA⟩ := zoom_split hL key
    have hplug := plug_zoom Cell.pos key.addr.toNat [] T
    rw [hz] at hB hA hplug
    obtain rfl : plug C .nil = T := hplug
    rcases hbal.of_plug with ⟨c, k, hC, hnil⟩
    cases hnil
    -- the repair moves nodes, and their order stays
    have hcells : (repairRed C (.node .red .nil ⟨p, key, value⟩ .nil)).toList =
        before C ++ ⟨p, key, value⟩ :: after C := by
      simp [toList_repairRed, toList_plug]
    have hL' : Listing ((before C).map Cell.entry ++ (after C).map Cell.entry) m := by
      simpa [toList_plug] using hL
    refine ⟨_, hs, balanced_repairRed hC (.red .nil .nil), ?_,
      Or.inl ⟨hL'.absent hB hA, ?_, by rw [hz]⟩⟩
    · simpa [hcells, Cell.entry] using hL'.insert value hB hA
    · simp [hcells, toList_plug, List.perm_middle]
  | present C c l x r hT hx hs =>
    subst hT
    have hL' : Listing (((before C).map Cell.entry ++ l.toList.map Cell.entry) ++
        x.entry :: (r.toList.map Cell.entry ++ (after C).map Cell.entry)) m := by
      simpa [toList_plug] using hL
    -- a node of the tree has the key already
    have hm : m key.addr = some (x.key.size, x.value) := by
      refine (hL.mem_iff _ _ _).mpr (List.mem_map.mpr ⟨x, by simp [toList_plug], ?_⟩)
      rw [← hx]
      rfl
    refine ⟨_, hs, ?_, ?_, Or.inr ⟨by simp [hm], map_plug_congr C rfl⟩⟩
    · rcases hbal.of_plug with ⟨c', k, hC, ht⟩
      exact hC.plug (ht.relabel _)
    · simpa [toList_plug, Cell.entry] using hL'.set value hx

theorem Listing.sorted_cells {L : List Cell} {m : Entries} (h : Listing (L.map Cell.entry) m) :
    Sorted Cell.pos L := by
  have hs := h.sorted
  rwa [Sorted, List.pairwise_map] at hs

theorem rbtreeInsert_spec {m : Entries} (malloc : Malloc) (key : Key) (value : Uptr)
    (hs : Tracks s m) :
    wp (rbtreeInsert malloc key value)
      (fun _ s' => Tracks s' (Op.apply m (.insert key value))) s := by
  rcases hs with ⟨T, hT, ⟨n, hbal⟩, hL⟩
  refine (rbtreeInsert_inserted malloc key value hT hbal hL.sorted_cells).mono ?_
  intro _ s' hs'
  rcases hs'.tree hbal hL with ⟨T', hT', hbal', hL', -⟩
  exact ⟨T', hT', hbal', hL'⟩

/-! ## Deletion -/

/-- The loop of `maximum_node` ends at the rightmost node. -/
theorem maximumNode_spec (fuel : ℕ) (D : Ctx Cell) (hs : Holds s C t) (hp : ref t = some p)
    (hfuel : t.toList.length < fuel) :
    maximumNode fuel (some p) s = some (ref (rightmost D t).2, s) := by
  induction fuel generalizing C D t p with
  | zero => omega
  | succ fuel ih =>
    cases t with
    | nil => cases hp
    | node c l x r =>
      cases hp
      simp only [toList_node, List.length_append, List.length_cons] at hfuel
      refine eval_of_wp ?_
      simp only [maximumNode, wp_bind, wp_ite, wp_eval hs.load]
      cases r with
      | nil => simp [rightmost]
      | node cr lr xr rr =>
        simp only [ref_node, ne_eq, reduceCtorEq, not_false_eq_true, if_true]
        have hlen : (node cr lr xr rr).toList.length < fuel := by omega
        have hright := (holds_cons (f := ⟨.right, c, x, l⟩)).mpr hs
        exact (wp_eval (ih _ hright rfl hlen)).mpr ⟨rfl, rfl⟩

/-- `rbtree_free` of a node outside a stored tree. -/
theorem rbtreeFree_spec {Q : Unit → RbTree → Prop} {nd : Node} (hs : Holds s C t)
    (hp : s.heap.get p = some nd) (hne : ∀ z ∈ (plug C t).toList, z.ptr ≠ p)
    (hQ : ∀ s', Holds s' C t → Q () s') : wp (rbtreeFree (some p)) Q s := by
  simp only [rbtreeFree, wp_bind, wp_eval (load_some hp), wp_modify]
  exact hQ _ (hs.congr rfl fun y hy => Heap.get_erase_of_ne _ (hne y hy))

/-- The last steps of `rbtree_delete`: the focus is replaced by its only
child, a red root is blackened, and the node is freed. -/
theorem replace_free_spec {d : Side} {ch : RedBlackTree Cell} {cc : Color}
    (hs : Holds s C (join d c ch x .nil)) (hch : Balanced ch cc 0)
    (hC : CtxBal C cc 0 ∨ C = []) :
    wp (do
      replaceNode (some x.ptr) (ref ch)
      if (← load (some x.ptr)).parent = none ∧ ref ch ≠ none then
        store (ref ch) fun nd => { nd with color := .black }
      rbtreeFree (some x.ptr))
      (fun _ s' => Settled s' (before C ++ ch.toList ++ after C)) s := by
  simp only [wp_bind]
  refine hs.replaceNode ?_
  intro s hs hx hne
  rcases hx with ⟨nd, hx, hpar⟩
  simp only [wp_eval (load_some hx), wp_ite, hpar]
  split
  · next hroot =>
    rcases hroot with ⟨hup, hnull⟩
    -- the node was the root, its child is blackened
    obtain rfl : C = [] := by
      cases C with
      | nil => rfl
      | cons f C => cases hup
    cases ch with
    | nil => exact absurd rfl hnull
    | node c' l y r =>
      have hy := Option.isSome_of_eq_some hs.get
      have hblack := (wp_store hy).mp
        (hs.set_color .black (Q := fun _ s' => Holds s' [] _) fun _ h => h)
      have hyx : y.ptr ≠ x.ptr := hne y (by simp)
      rw [ref_node, wp_bind, wp_store hy]
      refine rbtreeFree_spec hblack (?_ : _ = some nd) (by simpa using hne) fun s' hs' => ?_
      · rw [get_update, if_neg (by simpa using hyx), hx]
      · obtain rfl := hch.color_eq
        exact ⟨_, hs', hch.blacken, by simp⟩
  · next hroot =>
    -- no colour changes
    refine rbtreeFree_spec hs hx hne ?_
    intro s' hs'
    refine ⟨_, holds_root.mp hs', ?_, by rw [toList_plug]⟩
    rcases hC with hC | rfl
    · exact hC.plug hch
    · obtain rfl : ch = .nil := by
        cases ch with
        | nil => rfl
        | node c' l y r => exact absurd ⟨rfl, by simp⟩ hroot
      exact ⟨0, .nil⟩

/-- `rbtree_delete` of a node with at most one child. -/
theorem deleteNode_spec {d : Side} {ch : RedBlackTree Cell} {n : ℕ}
    (hs : Holds s C (join d c ch x .nil)) (hbal : Balanced (plug C (join d c ch x .nil)) .black n) :
    wp (deleteNode (some x.ptr)) (fun _ s' => Settled s' (before C ++ ch.toList ++ after C)) s := by
  rcases hbal.of_plug with ⟨c', k, hC, ht⟩
  have hload := load_some hs.get_join
  have hcolor : nodeColor (some x.ptr) s = some (c, s) := by
    have h := hs.focus.nodeColor
    rwa [ref_join, color_join] at h
  have hchild : (if (x.node d c (up C) (ref ch) (ref .nil)).right = none
      then (x.node d c (up C) (ref ch) (ref .nil)).left
      else (x.node d c (up C) (ref ch) (ref .nil)).right) = ref ch := by
    cases d
    · simp [Cell.node]
    · cases ch <;> simp [Cell.node]
  simp only [deleteNode, wp_bind, wp_eval hload, hchild, wp_ite, wp_eval hcolor]
  rcases ht.join_nil with ⟨rfl, ⟨rfl, rfl, hch⟩ | ⟨rfl, rfl, ct, hch⟩⟩
  · -- a red node has no child, and nothing needs repair
    have hend := replace_free_spec hs hch (Or.inl hC.to_black)
    simpa only [reduceCtorEq, if_false, wp_bind, wp_ite] using hend
  · -- a black node takes the colour of its child and leaves a deficit
    have hrep := (rep_join.mp hs.focus).2.1
    simp only [if_true, wp_eval hrep.nodeColor]
    refine hs.set_node x ch.color rfl (fun _ _ _ => ?_) fun s hs => ?_
    · cases d <;> rfl
    simp only [treeFuel, wp_bind, wp_get, wp_pure]
    refine (deleteCase1_spec _ hs (ref_join ..) hC hs.context_lt).mono ?_
    rintro - s' ⟨C', hs', hacc, hb, ha⟩
    have hend := replace_free_spec hs' hch (hacc.ctxBal_or ct)
    rw [hb, ha] at hend
    simpa only [wp_bind, wp_ite] using hend

/-- From the cells `cells` the entry in the middle has gone, with some node `y`,
which has been freed. -/
structure Removed (s s' : RbTree) (cells : List Cell) (entries : List (Key × Uptr)) (y : Ptr)
    (L : List Cell) : Prop where
  settled : Settled s' L
  entries_eq : L.map Cell.entry = entries
  perm : (cells.map Cell.ptr).Perm (y :: L.map Cell.ptr)
  freed : allocatedNodes s' = allocatedNodes s \ {y}

section Delete

variable {n : ℕ} (hs : Holds s C (.node c l x r))
  (hbal : Balanced (plug C (.node c l x r)) .black n)

include hs hbal

/-- A node with one child at most is removed itself. -/
theorem deleteNode_single (h : l = .nil ∨ r = .nil) :
    wp (deleteNode (some x.ptr)) (fun _ s' => ∃ y L, Removed s s' (plug C (.node c l x r)).toList
      ((before C ++ l.toList ++ (r.toList ++ after C)).map Cell.entry) y L) s := by
  have hfrees : FreesNode x.ptr (deleteNode (some x.ptr)) := inferInstance
  rcases h with rfl | rfl
  · refine ((deleteNode_spec (d := .right) hs hbal).and_wlp (hfrees.frees s)).mono ?_
    rintro - s' ⟨hs', hfree⟩
    refine ⟨x.ptr, _, hs', by simp, ?_, hfree⟩
    simp [toList_plug, List.perm_middle]
  · refine ((deleteNode_spec (d := .left) hs hbal).and_wlp (hfrees.frees s)).mono ?_
    rintro - s' ⟨hs', hfree⟩
    refine ⟨x.ptr, _, hs', by simp, ?_, hfree⟩
    have hmiddle : ((before C ++ l.toList).map Cell.ptr ++ x.ptr :: (after C).map Cell.ptr).Perm
        (x.ptr :: ((before C ++ l.toList).map Cell.ptr ++ (after C).map Cell.ptr)) :=
      List.perm_middle
    simpa [toList_plug] using hmiddle

/-- A node with two children takes the key and the value of its predecessor, and
that is removed. -/
theorem deletePredecessor_spec (hl : l ≠ .nil) :
    wp (do
      let pred ← maximumNode (← treeFuel) (← load (some x.ptr)).left
      let np ← load pred
      store (some x.ptr) fun nd => { nd with key := np.key }
      store (some x.ptr) fun nd => { nd with value := np.value }
      deleteNode pred) (fun _ s' => ∃ y L, Removed s s' (plug C (.node c l x r)).toList
      ((before C ++ l.toList ++ (r.toList ++ after C)).map Cell.entry) y L) s := by
  obtain ⟨pl, hpl⟩ : ∃ pl, ref l = some pl := by
    cases l with
    | nil => exact absurd rfl hl
    | node cl ll xl rl => exact ⟨xl.ptr, rfl⟩
  -- the predecessor `y` is the rightmost node on the left
  rcases rightmost_snd [] hl with ⟨cp, lp, y, hy⟩
  have hplug : plug _ _ = l := plug_rightmost [] l
  have hafter := after_rightmost [] l
  have hup : Holds s (⟨.left, c, x, r⟩ :: C) l := holds_cons.mpr hs
  have hlen : l.toList.length < s.heap.bound + 1 := by
    have h := hs.length_le
    simp only [toList_plug, toList_node, List.length_append] at h
    omega
  have hmax := maximumNode_spec _ [] hup hpl hlen
  rw [hy] at hplug hmax
  obtain ⟨D, hD⟩ : ∃ D, (rightmost [] l).1 = D := ⟨_, rfl⟩
  rw [hD] at hplug hafter
  have hpred : Holds s (D ++ ⟨.left, c, x, r⟩ :: C) (.node cp lp y .nil) := by
    rw [holds_plug, hplug]
    exact hup
  have hlist : l.toList = before D ++ lp.toList ++ [y] := by
    rw [← hplug, toList_plug, hafter]
    simp
  -- the node `y` is freed, whatever the repair does
  have hfrees : FreesNode y.ptr (do
    let np ← load (some y.ptr)
    store (some x.ptr) fun nd => { nd with key := np.key }
    store (some x.ptr) fun nd => { nd with value := np.value }
    deleteNode (some y.ptr)) := inferInstance
  rw [treeFuel, wp_bind, wp_bind, wp_get, wp_pure, wp_bind, wp_eval hs.load]
  dsimp only [ref_node] at hmax ⊢
  rw [hpl, wp_bind, wp_eval hmax]
  refine wp.mono (wp.and_wlp (Q := fun _ s' => Settled s' (before C ++ before D ++ lp.toList ++
    ⟨x.ptr, y.key, y.value⟩ :: (r.toList ++ after C))) ?_ (hfrees.frees s)) ?_
  · simp only [wp_bind, wp_eval hpred.load]
    refine hs.set_node (d := .left) { x with key := y.key } c rfl (fun _ _ _ => rfl)
      fun s hs => ?_
    refine hs.set_node (d := .left) ⟨x.ptr, y.key, y.value⟩ c rfl (fun _ _ _ => rfl)
      fun s hs => ?_
    -- the predecessor has no right child
    have hdel : Holds s (D ++ ⟨.left, c, ⟨x.ptr, y.key, y.value⟩, r⟩ :: C)
        (join .left cp lp y .nil) := by
      rw [holds_plug, join_left, hplug]
      exact holds_cons.mpr hs
    obtain ⟨k, hbal'⟩ : ∃ k, Balanced (plug (D ++ ⟨.left, c, ⟨x.ptr, y.key, y.value⟩, r⟩ :: C)
        (join .left cp lp y .nil)) .black k := by
      rcases hbal.of_plug with ⟨c', k, hC, ht⟩
      rw [plug_append, join_left, hplug]
      exact hC.plug (ht.relabel _)
    refine (deleteNode_spec hdel hbal').mono ?_
    intro _ s' hs'
    rw [before_append, after_append, hafter] at hs'
    simpa [before, after] using hs'
  · rintro - s' ⟨hs', hfree⟩
    refine ⟨y.ptr, _, hs', by simp [hlist, Cell.entry], ?_, hfree⟩
    simp only [toList_plug, toList_node, hlist, List.map_append, List.map_cons, List.append_assoc,
      List.cons_append, List.nil_append]
    rw [← List.append_assoc, ← List.append_assoc, ← List.append_assoc, ← List.append_assoc]
    exact List.perm_middle

end Delete

/-- The trees that `rbtree_delete` makes of `T` in the state `s`. -/
inductive Deleted (T : RedBlackTree Cell) (key : Key) (s s' : RbTree) : Prop
  | absent (C : Ctx Cell) : T = plug C .nil →
      (∀ z ∈ before C, z.pos < key.addr.toNat) → (∀ z ∈ after C, key.addr.toNat < z.pos) →
      s' = s → Deleted T key s s'
  | present (C : Ctx Cell) (c : Color) (l : RedBlackTree Cell) (x : Cell) (r : RedBlackTree Cell)
      (y : Ptr) (L : List Cell) :
      T = plug C (.node c l x r) → x.key.addr = key.addr →
      Removed s s' T.toList ((before C ++ l.toList ++ (r.toList ++ after C)).map Cell.entry) y L →
      Deleted T key s s'

theorem rbtreeDelete_deleted {T : RedBlackTree Cell} {n : ℕ} (key : Key) (hT : Holds s [] T)
    (hbal : Balanced T .black n) (hsorted : Sorted Cell.pos T.toList) :
    wp (rbtreeDelete key) (fun _ s' => Deleted T key s s') s := by
  obtain ⟨hB, hA⟩ := zoom_bounds Cell.pos (k := key.addr.toNat) (C := []) hsorted (by simp)
    (by simp)
  have hplug := plug_zoom Cell.pos key.addr.toNat [] T
  have hend := zoom_snd Cell.pos key.addr.toNat [] T
  rw [rbtreeDelete, wp_bind, wp_eval (lookupNode_spec key hT), wp_ite]
  generalize zoom Cell.pos key.addr.toNat [] T = z at *
  rcases z with ⟨C, t⟩
  dsimp only at hplug hend hB hA ⊢
  rcases hend with rfl | ⟨c, l, x, r, rfl, hx⟩
  · -- the key is not there
    rw [ref_nil, if_pos rfl, wp_pure]
    exact .absent C hplug.symm hB hA rfl
  · obtain rfl : plug C (.node c l x r) = T := hplug
    have hs : Holds s C (.node c l x r) := holds_root.mpr hT
    have hdone : ∀ s', (∃ y L, Removed s s' (plug C (.node c l x r)).toList
        ((before C ++ l.toList ++ (r.toList ++ after C)).map Cell.entry) y L) →
        Deleted (plug C (.node c l x r)) key s s' := by
      rintro s' ⟨y, L, hremoved⟩
      exact .present C c l x r y L rfl (UInt64.toNat_inj.mp hx) hremoved
    rw [ref_node, if_neg (by simp), wp_bind, wp_eval hs.load, wp_bind, wp_eval hs.load, wp_ite]
    split
    · next hboth =>
      refine (deletePredecessor_spec hs hbal ?_).mono fun _ s' => hdone s'
      rintro rfl
      exact hboth.1 rfl
    · next hboth =>
      refine (deleteNode_single hs hbal ?_).mono fun _ s' => hdone s'
      by_contra hchildren
      rw [not_or] at hchildren
      rcases hchildren with ⟨hl, hr⟩
      cases l with
      | nil => exact hl rfl
      | node cl ll xl rl =>
        cases r with
        | nil => exact hr rfl
        | node cr lr xr rr => exact hboth ⟨by simp, by simp⟩

/-- Deleting an absent address does nothing. -/
theorem Listing.delete_absent {B A : List (Key × Uptr)} {m : Entries} {key : Key}
    (h : Listing (B ++ A) m) (hB : ∀ e ∈ B, e.1.addr.toNat < key.addr.toNat)
    (hA : ∀ e ∈ A, key.addr.toNat < e.1.addr.toNat) : Op.apply m (.delete key) = m := by
  have habs := h.absent hB hA
  funext a
  simp only [Op.apply]
  split
  · next ha => rw [ha, habs]
  · rfl

/-- What has been deleted is not in the map. A node of the tree has been freed,
unless the key was not there. -/
theorem Deleted.tree {T : RedBlackTree Cell} {n : ℕ} {m : Entries} {key : Key}
    (h : Deleted T key s s') (hT : Holds s [] T) (hbal : Balanced T .black n)
    (hL : Listing (T.toList.map Cell.entry) m) :
    ∃ T', Holds s' [] T' ∧ (∃ n, Balanced T' .black n) ∧
      Listing (T'.toList.map Cell.entry) (Op.apply m (.delete key)) ∧
      ((s' = s ∧ T' = T) ∨ ∃ y, (T.toList.map Cell.ptr).Perm (y :: T'.toList.map Cell.ptr) ∧
        allocatedNodes s' = allocatedNodes s \ {y}) := by
  cases h with
  | absent C hTC hB hA hs =>
    subst hTC hs
    have hL' : Listing ((before C).map Cell.entry ++ (after C).map Cell.entry) m := by
      simpa [toList_plug] using hL
    refine ⟨_, hT, ⟨n, hbal⟩, ?_, Or.inl ⟨rfl, rfl⟩⟩
    rwa [hL'.delete_absent (by simpa [Cell.entry, Cell.pos] using hB)
      (by simpa [Cell.entry, Cell.pos] using hA)]
  | present C c l x r y L hTC hx hremoved =>
    rcases hremoved with ⟨⟨T', hT', hbal', hcells⟩, hentries, hperm, hfreed⟩
    refine ⟨T', hT', hbal', ?_, Or.inr ⟨y, by rwa [hcells], hfreed⟩⟩
    have hL' : Listing (((before C).map Cell.entry ++ l.toList.map Cell.entry) ++
        x.entry :: (r.toList.map Cell.entry ++ (after C).map Cell.entry)) m := by
      simpa [hTC, toList_plug] using hL
    -- the entries without the node's own
    have herase := hL'.erase (e := x.entry) (hx : _ = key.addr)
    rw [hcells, hentries]
    simpa using herase

theorem rbtreeDelete_spec {m : Entries} (key : Key) (hs : Tracks s m) :
    wp (rbtreeDelete key) (fun _ s' => Tracks s' (Op.apply m (.delete key))) s := by
  rcases hs with ⟨T, hT, ⟨n, hbal⟩, hL⟩
  refine (rbtreeDelete_deleted key hT hbal hL.sorted_cells).mono ?_
  intro _ s' hs'
  rcases hs'.tree hT hbal hL with ⟨T', hT', hbal', hL', -⟩
  exact ⟨T', hT', hbal', hL'⟩

/-! ## Whole runs -/

theorem Tracks.create (h : Heap Node) : Tracks (rbtreeCreate h) fun _ => none := by
  refine ⟨.nil, ⟨rfl, trivial, by simp⟩, ⟨0, .nil⟩, ?_, ?_⟩
  · exact List.Pairwise.nil
  · simp

/-- One operation succeeds and does to the tree what it does to the map. -/
theorem runOp_spec (malloc : Malloc) {m : Entries} (op : Op) (hs : Tracks s m) :
    ∃ s', runOp malloc s op = some s' ∧ Tracks s' (op.apply m) := by
  cases op with
  | insert key value =>
    rcases rbtreeInsert_spec malloc key value hs with ⟨a, s', hrun, hs'⟩
    exact ⟨s', by simp [runOp, hrun], hs'⟩
  | delete key =>
    rcases rbtreeDelete_spec key hs with ⟨a, s', hrun, hs'⟩
    exact ⟨s', by simp [runOp, hrun], hs'⟩

/-- The entries after a sequence of operations on an empty tree. -/
def entriesOf (ops : List Op) : Entries := ops.foldl Op.apply fun _ => none

theorem runOps_spec (malloc : Malloc) (h : Heap Node) (ops : List Op) :
    ∃ s, runOps malloc ops (rbtreeCreate h) = some s ∧ Tracks s (entriesOf ops) :=
  run_simulation (fun _ _ op hs => runOp_spec malloc op hs) ops (Tracks.create h)

end Caver.Runtime
