import Mathlib.Algebra.Group.Nat.Defs
import Mathlib.Data.List.TakeWhile

/-!
# Caver.Core.Bytes — bytes in memory

A memory with 64-bit addresses, which wrap, and lists of bytes in it.

* `Placed mem a bs`: the bytes `bs` are in memory from the address `a` on.
* `load64_placed`, `cString_placed`: words and strings read from such bytes.
* `Placed.record`: arrays of records of one size.
-/

namespace Caver.Core

/-! ## Little-endian words -/

/-- The `w` lowest bytes of a number, the lowest one first. -/
def bytesLE : ℕ → ℕ → List UInt8
  | 0, _ => []
  | w + 1, n => UInt8.ofNat n :: bytesLE w (n / 256)

/-- The number with the given bytes. -/
def ofBytesLE : List UInt8 → ℕ
  | [] => 0
  | b :: bs => b.toNat + 256 * ofBytesLE bs

@[simp] theorem length_bytesLE (w n : ℕ) : (bytesLE w n).length = w := by
  induction w generalizing n with
  | zero => rfl
  | succ w ih => rw [bytesLE, List.length_cons, ih]

theorem ofBytesLE_bytesLE (w n : ℕ) : ofBytesLE (bytesLE w n) = n % 256 ^ w := by
  induction w generalizing n with
  | zero => rw [bytesLE, ofBytesLE, Nat.pow_zero, Nat.mod_one]
  | succ w ih =>
    have hmod : n % 256 ^ (w + 1) = n % 256 + 256 * (n / 256 % 256 ^ w) := by
      rw [Nat.pow_succ', Nat.mod_mul]
    rw [bytesLE, ofBytesLE, ih, UInt8.toNat_ofNat', hmod]

/-- The bytes of a 64-bit word. -/
def wordBytes (v : UInt64) : List UInt8 := bytesLE 8 v.toNat

@[simp] theorem length_wordBytes (v : UInt64) : (wordBytes v).length = 8 :=
  length_bytesLE 8 v.toNat

/-! ## Memory -/

/-- Bytes by address. -/
abbrev Memory := UInt64 → UInt8

/-- The `n` bytes from `a` on. -/
def readBytes (mem : Memory) (a : UInt64) : ℕ → List UInt8
  | 0 => []
  | n + 1 => mem a :: readBytes mem (a + 1) n

/-- A 64-bit word. -/
@[irreducible] def load64 (mem : Memory) (a : UInt64) : UInt64 :=
  UInt64.ofNat (ofBytesLE (readBytes mem a 8))

/-- The string up to the first zero byte; `fuel` bounds the search for it. -/
def cString (mem : Memory) (a : UInt64) : ℕ → Option (List UInt8)
  | 0 => none
  | fuel + 1 => if mem a = 0 then some [] else (cString mem (a + 1) fuel).map (mem a :: ·)

/-- The bytes are in memory from `a` on. -/
def Placed (mem : Memory) (a : UInt64) (bs : List UInt8) : Prop := readBytes mem a bs.length = bs

instance (mem : Memory) (a : UInt64) (bs : List UInt8) : Decidable (Placed mem a bs) :=
  inferInstanceAs (Decidable (_ = _))

variable {mem : Memory} {a : UInt64} {bs cs : List UInt8}

@[simp] theorem length_readBytes (mem : Memory) (a : UInt64) (n : ℕ) :
    (readBytes mem a n).length = n := by
  induction n generalizing a with
  | zero => rfl
  | succ n ih => rw [readBytes, List.length_cons, ih]

theorem readBytes_add (mem : Memory) (a : UInt64) (m n : ℕ) :
    readBytes mem a (m + n) = readBytes mem a m ++ readBytes mem (a + UInt64.ofNat m) n := by
  induction m generalizing a with
  | zero => simp [readBytes]
  | succ m ih =>
    have haddr : a + 1 + UInt64.ofNat m = a + UInt64.ofNat (m + 1) := by
      rw [UInt64.ofNat_add, UInt64.add_assoc, UInt64.add_comm 1]
      rfl
    rw [Nat.add_right_comm, readBytes, readBytes, ih, haddr, List.cons_append]

/-- Bytes in a row. -/
theorem placed_append :
    Placed mem a (bs ++ cs) ↔ Placed mem a bs ∧ Placed mem (a + UInt64.ofNat bs.length) cs := by
  unfold Placed
  rw [List.length_append, readBytes_add]
  constructor
  · intro h
    exact List.append_inj h (by rw [length_readBytes])
  · rintro ⟨hbs, hcs⟩
    rw [hbs, hcs]

theorem placed_cons {b : UInt8} : Placed mem a (b :: bs) ↔ mem a = b ∧ Placed mem (a + 1) bs := by
  unfold Placed
  rw [List.length_cons, readBytes, List.cons.injEq]

theorem load64_placed {v : UInt64} (h : Placed mem a (wordBytes v)) : load64 mem a = v := by
  unfold Placed at h
  rw [length_wordBytes] at h
  unfold load64
  have hlt : v.toNat < 256 ^ 8 := v.toNat_lt
  rw [h, wordBytes, ofBytesLE_bytesLE, Nat.mod_eq_of_lt hlt, UInt64.ofNat_toNat]

/-- The string that is read ends at the first zero byte, which may be inside. -/
theorem cString_placed (h : Placed mem a (bs ++ [0])) {fuel : ℕ} (hfuel : bs.length < fuel) :
    cString mem a fuel = some (bs.takeWhile (· ≠ 0)) := by
  induction bs generalizing a fuel with
  | nil =>
    rcases Nat.exists_eq_add_one_of_ne_zero (Nat.ne_zero_of_lt hfuel) with ⟨fuel, rfl⟩
    rcases placed_cons.mp h with ⟨hzero, -⟩
    rw [cString, if_pos hzero, List.takeWhile_nil]
  | cons b bs ih =>
    rcases Nat.exists_eq_add_one_of_ne_zero (Nat.ne_zero_of_lt hfuel) with ⟨fuel, rfl⟩
    rcases placed_cons.mp h with ⟨hb, hbs⟩
    rw [List.length_cons] at hfuel
    rw [cString, hb, List.takeWhile_cons]
    by_cases hzero : b = 0
    · rw [if_pos hzero, if_neg (by simpa using hzero)]
    · rw [if_neg hzero, if_pos (by simpa using hzero), ih hbs (by omega), Option.map_some]

/-! ## Records -/

variable {α : Type} {enc : α → List UInt8} {w : ℕ} {xs : List α}

theorem length_records (hw : ∀ x, (enc x).length = w) :
    (xs.flatMap enc).length = w * xs.length := by
  induction xs with
  | nil => rfl
  | cons x xs ih =>
    rw [List.flatMap_cons, List.length_append, hw, ih, List.length_cons, Nat.mul_succ, Nat.add_comm]

/-- In an array of records of `w` bytes, record `i` is at `w * i`. -/
theorem Placed.record (hw : ∀ x, (enc x).length = w) (h : Placed mem a (xs.flatMap enc)) (i : ℕ)
    (hi : i < xs.length) : Placed mem (a + UInt64.ofNat (w * i)) (enc xs[i]) := by
  have hsplit : xs.flatMap enc =
      (xs.take i).flatMap enc ++ (enc xs[i] ++ (xs.drop (i + 1)).flatMap enc) := by
    rw [← List.flatMap_cons, List.getElem_cons_drop, ← List.flatMap_append,
      List.take_append_drop]
  rw [hsplit, placed_append, placed_append, length_records hw, List.length_take,
    Nat.min_eq_left hi.le] at h
  exact h.2.1

/-- Reading the records of an array one by one. -/
theorem Placed.records (hw : ∀ x, (enc x).length = w) (h : Placed mem a (xs.flatMap enc))
    {read : UInt64 → α} (hread : ∀ b x, Placed mem b (enc x) → read b = x) :
    (List.range xs.length).map (fun i => read (a + UInt64.ofNat (w * i))) = xs := by
  refine List.ext_getElem (by simp) ?_
  intro i hi hi'
  rw [List.getElem_map, List.getElem_range]
  exact hread _ _ (h.record hw i hi')

end Caver.Core
