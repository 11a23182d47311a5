import Caver.Basic
import Caver.Core.Prog

/-!
# Caver.Runtime.CastCache — the two-level verdict cache

`cver_cache.h`: a direct-mapped first cache of 2048 keys, and a second cache of
65537 keys with five probes. An empty cell is zero, so the key zero is in the
cache from the start.

* `Cache.Within K`: every key that the cache stores is in `K`.
* A hit is a key of `K` or zero (`isInCache_spec`), and a key that was stored
  last is a hit (`isInCache_updateCache`).
-/

namespace Caver.Runtime

open Caver.Core

/-! ## The cache -/

/-- `FirstCache` and `SecondCache`. -/
structure Cache where
  first : ℕ → Uptr
  second : ℕ → Uptr

def firstCacheSize : ℕ := 2048
def secondCacheSize : ℕ := 65537

/-- The caches as the program is loaded. -/
def Cache.empty : Cache := ⟨fun _ => 0, fun _ => 0⟩

/-- `Key % FirstCacheSize`. -/
def firstSlot (key : Uptr) : ℕ := key.toNat % firstCacheSize

/-- `Probe += ((V >> 16) & 65535) + 1`, and back into the table. -/
def nextProbe (v : Uptr) (probe : ℕ) : ℕ :=
  let probe := probe + ((v >>> 16) &&& 65535).toNat + 1
  if probe ≥ secondCacheSize then probe - secondCacheSize else probe

/-- The loop of `getSecondCacheBucket`: the first probed cell that is empty or
has the key. -/
def probeLoop (c : Cache) (v : Uptr) : ℕ → ℕ → Option ℕ
  | 0, _ => none
  | tries + 1, probe =>
    if c.second probe = 0 ∨ c.second probe = v then some probe
    else probeLoop c v tries (nextProbe v probe)

/-- `getSecondCacheBucket`; where all five probes fail, the first one. -/
def getSecondCacheBucket (c : Cache) (v : Uptr) : ℕ :=
  let first := ((v &&& 65535) ^^^ 1).toNat
  (probeLoop c v 5 first).getD first

/-- `IsInCache`, with the bucket to evict where the key is not in the cache. -/
def isInCache (key : Uptr) : Prog Cache (Bool × ℕ) := do
  let c ← get
  if c.first (firstSlot key) = key then return (true, 0)
  else do
    let bucket := getSecondCacheBucket c key
    if c.second bucket = key then do
      modify fun c => { c with first := Function.update c.first (firstSlot key) key }
      return (true, 0)
    else return (false, bucket)

/-- `UpdateCache`. -/
def updateCache (key : Uptr) (evictSecondCacheBucket : ℕ) : Prog Cache PUnit :=
  modify fun c =>
    { first := Function.update c.first (firstSlot key) key
      second := Function.update c.second evictSecondCacheBucket key }

/-! ## What it stores -/

/-- Every stored key is in `K`. -/
def Cache.Within (K : Set Uptr) (c : Cache) : Prop :=
  ∀ i, (c.first i = 0 ∨ c.first i ∈ K) ∧ (c.second i = 0 ∨ c.second i ∈ K)

variable {K : Set Uptr} {c : Cache} {key : Uptr}

theorem Cache.within_empty : Cache.empty.Within K := fun _ => ⟨Or.inl rfl, Or.inl rfl⟩

/-- A table that is set at one cell to a key of `K`. -/
theorem update_within {f : ℕ → Uptr} (hf : ∀ i, f i = 0 ∨ f i ∈ K) (hkey : key = 0 ∨ key ∈ K)
    (j i : ℕ) : Function.update f j key i = 0 ∨ Function.update f j key i ∈ K := by
  by_cases hij : i = j
  · subst hij
    rwa [Function.update_self]
  · rw [Function.update_of_ne hij]
    exact hf i

/-- Looking a key up keeps what is stored; a hit is stored, or the key zero. -/
theorem isInCache_spec (hc : c.Within K) (key : Uptr) :
    wp (isInCache key) (fun r c' => c'.Within K ∧ (r.1 = true → key = 0 ∨ key ∈ K)) c := by
  simp only [isInCache, wp_bind, wp_get, wp_ite, wp_pure]
  split
  · next hfirst =>
    refine ⟨hc, ?_⟩
    intro _
    rw [← hfirst]
    exact (hc _).1
  · split
    · next hsecond =>
      have hkey : key = 0 ∨ key ∈ K := by
        rw [← hsecond]
        exact (hc _).2
      rw [wp_modify]
      refine ⟨fun i => ⟨?_, (hc i).2⟩, fun _ => hkey⟩
      exact update_within (fun j => (hc j).1) hkey _ i
    · exact ⟨hc, fun h => absurd h Bool.false_ne_true⟩

/-- Storing a key of `K` keeps the cache within `K`. -/
theorem updateCache_spec (hc : c.Within K) (hkey : key ∈ K) (bucket : ℕ) :
    wp (updateCache key bucket) (fun _ c' => c'.Within K) c := by
  rw [updateCache, wp_modify]
  intro i
  exact ⟨update_within (fun j => (hc j).1) (Or.inr hkey) _ i,
    update_within (fun j => (hc j).2) (Or.inr hkey) _ i⟩

/-- A key that has just been stored is a hit. -/
theorem isInCache_updateCache (key : Uptr) (bucket : ℕ) :
    wp (do
      updateCache key bucket
      isInCache key) (fun r _ => r.1 = true) c := by
  simp only [updateCache, isInCache, wp_bind, wp_modify, wp_get, Function.update_self, if_true,
    wp_pure]

/-- In the empty cache the key zero is a hit, and no other. -/
theorem isInCache_empty (key : Uptr) :
    wp (isInCache key) (fun r c' => (r.1 = true ↔ key = 0) ∧ c' = Cache.empty) Cache.empty := by
  by_cases hkey : key = 0
  · subst hkey
    simp [isInCache, Cache.empty]
  · have hne : (0 : Uptr) ≠ key := fun h => hkey h.symm
    simp [isInCache, Cache.empty, hkey, hne]

end Caver.Runtime
