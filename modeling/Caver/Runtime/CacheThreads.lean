import Caver.Runtime.CastCache
import Mathlib.Data.Nat.GCD.Basic
import Mathlib.Logic.Relation

/-!
# Caver.Runtime.CacheThreads — the cache under any interleaving

Any number of threads look keys up and store them, with no lock. A step is one
read or one write of a cell.

* `PC`: where a thread is in `IsInCache` and `UpdateCache`.
* `run`: the states of an interleaving, given by a schedule.
* `alone_isInCache`, `alone_updateCache`: a thread that runs alone does what
  `IsInCache` and `UpdateCache` do.
* `probes_nodup`, `hit_updated`: probes are five different cells, and a hit is a
  key that was stored.
-/

namespace Caver.Runtime

open Caver.Core

/-! ## Probes -/

/-- The cell that is probed after `i` others. -/
def probeAt (v : Uptr) : ℕ → ℕ
  | 0 => ((v &&& 65535) ^^^ 1).toNat
  | i + 1 => nextProbe v (probeAt v i)

/-- The five probes of `getSecondCacheBucket`. -/
def probes (v : Uptr) : List ℕ := (List.range 5).map (probeAt v)

/-- The distance between two probes. -/
def probeStep (v : Uptr) : ℕ := ((v >>> 16) &&& 65535).toNat + 1

theorem probeStep_lt (v : Uptr) : 0 < probeStep v ∧ probeStep v < secondCacheSize := by
  have hmask : ((v >>> 16) &&& 65535).toNat ≤ 65535 := by
    rw [UInt64.toNat_and]
    exact Nat.and_le_right
  unfold probeStep secondCacheSize
  omega

theorem probeAt_zero_lt (v : Uptr) : probeAt v 0 < secondCacheSize := by
  have hmask : (v &&& 65535).toNat < 2 ^ 16 := by
    rw [UInt64.toNat_and]
    exact lt_of_le_of_lt Nat.and_le_right (by decide)
  have hxor : ((v &&& 65535) ^^^ 1).toNat < 2 ^ 16 := by
    rw [UInt64.toNat_xor]
    exact Nat.xor_lt_two_pow hmask (by decide)
  unfold probeAt secondCacheSize
  omega

/-- A probe is the first one and so many steps, around the table. -/
theorem probeAt_eq (v : Uptr) (i : ℕ) :
    probeAt v i = (probeAt v 0 + i * probeStep v) % secondCacheSize := by
  have hfirst := probeAt_zero_lt v
  have hstep := probeStep_lt v
  induction i with
  | zero => rw [Nat.zero_mul, Nat.add_zero, Nat.mod_eq_of_lt hfirst]
  | succ i ih =>
    have hlt : probeAt v i < secondCacheSize := by
      rw [ih]
      exact Nat.mod_lt _ (by decide)
    have hnext : probeAt v (i + 1) = (probeAt v i + probeStep v) % secondCacheSize := by
      rw [probeAt, nextProbe]
      unfold probeStep at hstep ⊢
      split
      · rw [Nat.mod_eq_sub_mod (by omega), Nat.mod_eq_of_lt (by omega)]
        omega
      · rw [Nat.mod_eq_of_lt (by omega)]
        omega
    rw [hnext, ih, Nat.mod_add_mod, Nat.succ_mul, Nat.add_assoc]

theorem probeAt_lt (v : Uptr) (i : ℕ) : probeAt v i < secondCacheSize := by
  rw [probeAt_eq]
  exact Nat.mod_lt _ (by decide)

/-- Fewer steps than five do not lead around the table. -/
theorem probeAt_inj {v : Uptr} {i j : ℕ} (hi : i < 5) (hj : j < 5)
    (h : probeAt v i = probeAt v j) : i = j := by
  have hstep := probeStep_lt v
  -- it is enough to exclude one order
  wlog hij : i < j generalizing i j
  · rcases Nat.lt_trichotomy i j with hlt | heq | hgt
    · exact absurd hlt hij
    · exact heq
    · exact (this hj hi h.symm hgt).symm
  rw [probeAt_eq v i, probeAt_eq v j] at h
  have hdvd : secondCacheSize ∣ (j - i) * probeStep v := by
    have hsub := Nat.dvd_of_mod_eq_zero (Nat.sub_mod_eq_zero_of_mod_eq h.symm)
    rwa [Nat.add_sub_add_left, ← Nat.sub_mul] at hsub
  have hcoprime : Nat.Coprime secondCacheSize (j - i) := by
    have hd : j - i = 1 ∨ j - i = 2 ∨ j - i = 3 ∨ j - i = 4 := by omega
    rcases hd with hd | hd | hd | hd <;> rw [hd] <;> decide
  have hle := Nat.le_of_dvd hstep.1 (hcoprime.dvd_of_dvd_mul_left hdvd)
  omega

theorem probes_nodup (v : Uptr) : (probes v).Nodup := by
  refine List.Nodup.map_on ?_ List.nodup_range
  intro i hi j hj h
  exact probeAt_inj (List.mem_range.mp hi) (List.mem_range.mp hj) h

/-! ## Threads -/

/-- What a thread does next. -/
inductive PC where
  /-- Not in a cast. -/
  | idle
  /-- Read the cell of the first cache. -/
  | lookup (key : Uptr)
  /-- Read `SecondCache[Probe]`, to see whether it is empty. -/
  | probeEmpty (key : Uptr) (tries probe : ℕ)
  /-- Read it again, to compare it. -/
  | probeMatch (key : Uptr) (tries probe : ℕ)
  /-- Read `*Bucket`. -/
  | reread (key : Uptr) (bucket : ℕ)
  /-- Write the first cache after a hit in the second one. -/
  | fillFirst (key : Uptr)
  /-- `IsInCache` has returned true. -/
  | hit (key : Uptr)
  /-- `IsInCache` has returned false, with the bucket to evict. -/
  | missed (key : Uptr) (bucket : ℕ)
  /-- In `UpdateCache`: write the first cache. -/
  | updateFirst (key : Uptr) (bucket : ℕ)
  /-- In `UpdateCache`: write the bucket. -/
  | updateSecond (key : Uptr) (bucket : ℕ)
  /-- `UpdateCache` has returned. -/
  | updated (key : Uptr) (bucket : ℕ)
deriving DecidableEq, Repr

/-- A move of a schedule: the thread, the key that it looks up if it is idle, and
whether it stores the key after a miss. -/
structure Move where
  thread : ℕ
  key : Uptr
  update : Bool
deriving DecidableEq, Repr

namespace PC

/-- The key that is written to the first cache. -/
def writesFirst : PC → Option Uptr
  | fillFirst key => some key
  | updateFirst key _ => some key
  | _ => none

/-- The key that is written to the second cache, and the cell. -/
def writesSecond : PC → Option (Uptr × ℕ)
  | updateSecond key bucket => some (key, bucket)
  | _ => none

/-- What a step writes. -/
def write (pc : PC) (c : Cache) : Cache where
  first := match pc.writesFirst with
    | some key => Function.update c.first (firstSlot key) key
    | none => c.first
  second := match pc.writesSecond with
    | some (key, bucket) => Function.update c.second bucket key
    | none => c.second

/-- Where a step leads, from what it reads. -/
def next (c : Cache) (m : Move) : PC → PC
  | idle => lookup m.key
  | lookup key =>
    if c.first (firstSlot key) = key then hit key else probeEmpty key 5 (probeAt key 0)
  | probeEmpty key tries probe =>
    if c.second probe = 0 then reread key probe else probeMatch key tries probe
  | probeMatch key tries probe =>
    if c.second probe = key then reread key probe
    else if tries ≤ 1 then reread key (probeAt key 0)
    else probeEmpty key (tries - 1) (nextProbe key probe)
  | reread key bucket => if c.second bucket = key then fillFirst key else missed key bucket
  | fillFirst key => hit key
  | hit _ => idle
  | missed key bucket => if m.update then updateFirst key bucket else idle
  | updateFirst key bucket => updateSecond key bucket
  | updateSecond key bucket => updated key bucket
  | updated _ _ => idle

end PC

/-- The cache and the threads. -/
structure Threads where
  cache : Cache
  pc : ℕ → PC

/-- One atomic step of a thread. -/
def Threads.step (s : Threads) (m : Move) : Threads where
  cache := (s.pc m.thread).write s.cache
  pc := Function.update s.pc m.thread ((s.pc m.thread).next s.cache m)

/-- The states of an interleaving: `run sched n` is the one before move `n`. -/
def run (sched : ℕ → Move) : ℕ → Threads
  | 0 => ⟨Cache.empty, fun _ => .idle⟩
  | n + 1 => (run sched n).step (sched n)

/-- What the thread that moves at `n` is about to do. -/
def moves (sched : ℕ → Move) (n : ℕ) : PC := (run sched n).pc (sched n).thread

variable {sched : ℕ → Move} {n n' t u : ℕ} {key v : Uptr} {p i : ℕ}

/-- A cell of the first cache changes by a write to it. -/
theorem PC.write_first (pc : PC) (c : Cache) (x : ℕ) :
    (pc.write c).first x = c.first x ∨
      ∃ k, pc.writesFirst = some k ∧ firstSlot k = x ∧ (pc.write c).first x = k := by
  unfold write
  cases h : pc.writesFirst with
  | none => exact Or.inl rfl
  | some k =>
    by_cases hx : x = firstSlot k
    · subst hx
      exact Or.inr ⟨k, rfl, rfl, Function.update_self _ _ _⟩
    · exact Or.inl (Function.update_of_ne hx _ _)

/-- A cell of the second cache changes by a write to it. -/
theorem PC.write_second (pc : PC) (c : Cache) (p : ℕ) :
    (pc.write c).second p = c.second p ∨
      ∃ k, pc.writesSecond = some (k, p) ∧ (pc.write c).second p = k := by
  unfold write
  cases h : pc.writesSecond with
  | none => exact Or.inl rfl
  | some e =>
    rcases e with ⟨k, b⟩
    by_cases hp : p = b
    · subst hp
      exact Or.inr ⟨k, rfl, Function.update_self _ _ _⟩
    · exact Or.inl (Function.update_of_ne hp _ _)

/-- A step of another thread leaves this one where it is. -/
theorem run_pc (sched : ℕ → Move) (n t : ℕ) :
    (run sched (n + 1)).pc t = if t = (sched n).thread
      then ((run sched n).pc t).next (run sched n).cache (sched n) else (run sched n).pc t := by
  show Function.update _ _ _ t = _
  by_cases h : t = (sched n).thread
  · rw [if_pos h, h, Function.update_self]
  · rw [if_neg h, Function.update_of_ne h]

theorem run_first (sched : ℕ → Move) (n x : ℕ) :
    (run sched (n + 1)).cache.first x = (run sched n).cache.first x ∨
      ∃ k, (moves sched n).writesFirst = some k ∧ firstSlot k = x ∧
        (run sched (n + 1)).cache.first x = k :=
  PC.write_first (moves sched n) (run sched n).cache x

theorem run_second (sched : ℕ → Move) (n p : ℕ) :
    (run sched (n + 1)).cache.second p = (run sched n).cache.second p ∨
      ∃ k, (moves sched n).writesSecond = some (k, p) ∧
        (run sched (n + 1)).cache.second p = k :=
  PC.write_second (moves sched n) (run sched n).cache p

/-! ## One thread alone -/

/-- The state with a thread somewhere else. -/
def Threads.at (s : Threads) (t : ℕ) (pc : PC) : Threads :=
  { s with pc := Function.update s.pc t pc }

/-- A thread gets from one state to another with no step of the others. -/
def Alone (t : ℕ) : Threads → Threads → Prop :=
  Relation.ReflTransGen fun s s' => s' = s.step ⟨t, 0, true⟩

theorem Threads.step_at (s : Threads) (t : ℕ) (pc : PC) :
    (s.at t pc).step ⟨t, 0, true⟩ =
      { s with cache := pc.write s.cache }.at t (pc.next s.cache ⟨t, 0, true⟩) := by
  unfold step Threads.at
  simp only [Function.update_self, Function.update_idem]

theorem Alone.trans {s s' s'' : Threads} (h : Alone t s s') (h' : Alone t s' s'') :
    Alone t s s'' :=
  Relation.ReflTransGen.trans h h'

/-- A step that only reads. -/
theorem Alone.read {s s' : Threads} {pc pc' : PC} (hfirst : pc.writesFirst = none)
    (hsecond : pc.writesSecond = none) (hnext : pc.next s.cache ⟨t, 0, true⟩ = pc')
    (h : Alone t (s.at t pc') s') : Alone t (s.at t pc) s' := by
  refine .head ?_ h
  rw [Threads.step_at, hnext, PC.write, hfirst, hsecond]

/-- The probes of a thread that runs alone are the loop of `getSecondCacheBucket`. -/
theorem alone_probe (s : Threads) (t : ℕ) (key : Uptr) (tries p : ℕ) :
    Alone t (s.at t (.probeEmpty key (tries + 1) p)) (s.at t (.reread key
      ((probeLoop s.cache key (tries + 1) p).getD (probeAt key 0)))) := by
  induction tries generalizing p with
  | zero =>
    unfold probeLoop
    by_cases hzero : s.cache.second p = 0
    · refine .read rfl rfl (if_pos hzero) ?_
      rw [if_pos (Or.inl hzero)]
      exact .refl
    · refine .read rfl rfl (if_neg hzero) ?_
      by_cases hmatch : s.cache.second p = key
      · refine .read rfl rfl (if_pos hmatch) ?_
        rw [if_pos (Or.inr hmatch)]
        exact .refl
      · refine .read rfl rfl ((if_neg hmatch).trans (if_pos le_rfl)) ?_
        rw [if_neg (not_or.mpr ⟨hzero, hmatch⟩)]
        exact .refl
  | succ tries ih =>
    rw [probeLoop]
    by_cases hzero : s.cache.second p = 0
    · refine .read rfl rfl (if_pos hzero) ?_
      rw [if_pos (Or.inl hzero)]
      exact .refl
    · refine .read rfl rfl (if_neg hzero) ?_
      by_cases hmatch : s.cache.second p = key
      · refine .read rfl rfl (if_pos hmatch) ?_
        rw [if_pos (Or.inr hmatch)]
        exact .refl
      · refine .read rfl rfl ((if_neg hmatch).trans (if_neg (by omega))) ?_
        rw [if_neg (not_or.mpr ⟨hzero, hmatch⟩)]
        exact ih (nextProbe key p)

/-- The answer of `IsInCache`, as a place of the thread. -/
def answerOf (key : Uptr) : Bool × ℕ → PC
  | (true, _) => .hit key
  | (false, bucket) => .missed key bucket

/-- A thread that looks a key up alone does what `IsInCache` does. -/
theorem alone_isInCache (s : Threads) (t : ℕ) (key : Uptr) :
    ∃ r c, isInCache key s.cache = some (r, c) ∧
      Alone t (s.at t (.lookup key)) ({ s with cache := c }.at t (answerOf key r)) := by
  by_cases hfirst : s.cache.first (firstSlot key) = key
  · refine ⟨(true, 0), s.cache, eval_of_wp ?_, .read rfl rfl (if_pos hfirst) .refl⟩
    simp [isInCache, hfirst]
  have hprobe := alone_probe s t key 4 (probeAt key 0)
  by_cases hsecond : s.cache.second (getSecondCacheBucket s.cache key) = key
  · refine ⟨(true, 0), { s.cache with first := Function.update s.cache.first (firstSlot key) key },
      eval_of_wp ?_, ?_⟩
    · simp [isInCache, hfirst, hsecond]
    · refine .read rfl rfl (if_neg hfirst) (hprobe.trans ?_)
      refine .read rfl rfl (if_pos hsecond) (.single ?_)
      rw [Threads.step_at]
      rfl
  · refine ⟨(false, getSecondCacheBucket s.cache key), s.cache, eval_of_wp ?_, ?_⟩
    · simp [isInCache, hfirst, hsecond]
    · refine .read rfl rfl (if_neg hfirst) (hprobe.trans ?_)
      exact .read rfl rfl (if_neg hsecond) .refl

/-- A thread that stores a key alone does what `UpdateCache` does. -/
theorem alone_updateCache (s : Threads) (t : ℕ) (key : Uptr) (bucket : ℕ) :
    ∃ c, updateCache key bucket s.cache = some ((), c) ∧
      Alone t (s.at t (.updateFirst key bucket))
        ({ s with cache := c }.at t (.updated key bucket)) := by
  refine ⟨_, rfl, .head (Threads.step_at s t _).symm (.single ?_)⟩
  rw [Threads.step_at]
  rfl

/-! ## Hits -/

/-- Before `n` a thread was in `UpdateCache` with the key. -/
def Updated (sched : ℕ → Move) (n : ℕ) (key : Uptr) : Prop :=
  ∃ i < n, ∃ u b, (run sched i).pc u = .updateFirst key b

theorem Updated.mono (h : Updated sched n key) (hn : n ≤ n') : Updated sched n' key := by
  rcases h with ⟨i, hi, hu⟩
  exact ⟨i, hi.trans_le hn, hu⟩

/-- The key that a thread has found in the cache or has begun to store. -/
def PC.found : PC → Option Uptr
  | fillFirst key => some key
  | hit key => some key
  | updateSecond key _ => some key
  | _ => none

/-- What is stored or found has been stored by some thread, or is zero. -/
structure Accounted (sched : ℕ → Move) (n : ℕ) : Prop where
  first : ∀ x, (run sched n).cache.first x = 0 ∨ Updated sched n ((run sched n).cache.first x)
  second : ∀ p, (run sched n).cache.second p = 0 ∨ Updated sched n ((run sched n).cache.second p)
  found : ∀ t key, ((run sched n).pc t).found = some key → key = 0 ∨ Updated sched n key

/-- The key that is written to the first cache is found or being stored. -/
theorem Accounted.writesFirst (h : Accounted sched n)
    (hkey : (moves sched n).writesFirst = some key) : key = 0 ∨ Updated sched (n + 1) key := by
  have hfound := h.found (sched n).thread key
  unfold moves at hkey
  cases hpc : (run sched n).pc (sched n).thread with
  | fillFirst k =>
    rw [hpc] at hkey hfound
    exact (hfound hkey).imp_right fun hu => hu.mono (Nat.le_succ n)
  | updateFirst k b =>
    rw [hpc] at hkey
    cases hkey
    exact Or.inr ⟨n, Nat.lt_succ_self n, _, b, hpc⟩
  | _ =>
    rw [hpc] at hkey
    cases hkey

theorem Accounted.writesSecond (h : Accounted sched n)
    (hkey : (moves sched n).writesSecond = some (key, p)) : key = 0 ∨ Updated sched n key := by
  have hfound := h.found (sched n).thread key
  unfold moves at hkey
  cases hpc : (run sched n).pc (sched n).thread with
  | updateSecond k b =>
    rw [hpc] at hkey hfound
    cases hkey
    exact hfound rfl
  | _ =>
    rw [hpc] at hkey
    cases hkey

/-- A step finds a key where it is stored. -/
theorem Accounted.next (h : Accounted sched n)
    (hkey : (((run sched n).pc t).next (run sched n).cache (sched n)).found = some key) :
    key = 0 ∨ Updated sched (n + 1) key := by
  have hmono : ∀ {k}, k = 0 ∨ Updated sched n k → k = 0 ∨ Updated sched (n + 1) k :=
    fun h => h.imp_right fun hu => hu.mono (Nat.le_succ n)
  cases hpc : (run sched n).pc t with
  | lookup k =>
    rw [hpc, PC.next] at hkey
    split at hkey
    · next hread =>
      cases hkey
      have hstored := h.first (firstSlot key)
      rw [hread] at hstored
      exact hmono hstored
    · cases hkey
  | probeEmpty k tries probe =>
    rw [hpc, PC.next] at hkey
    split at hkey <;> cases hkey
  | probeMatch k tries probe =>
    rw [hpc, PC.next] at hkey
    split at hkey
    · cases hkey
    · split at hkey <;> cases hkey
  | reread k b =>
    rw [hpc, PC.next] at hkey
    split at hkey
    · next hread =>
      cases hkey
      have hstored := h.second b
      rw [hread] at hstored
      exact hmono hstored
    · cases hkey
  -- the key has been found before
  | fillFirst k =>
    rw [hpc] at hkey
    exact hmono (h.found t key (by rw [hpc]; exact hkey))
  | missed k b =>
    rw [hpc, PC.next] at hkey
    split at hkey <;> cases hkey
  -- a thread that writes its own key goes through an update
  | updateFirst k b =>
    rw [hpc] at hkey
    cases hkey
    exact Or.inr ⟨n, Nat.lt_succ_self n, t, b, hpc⟩
  | _ =>
    rw [hpc] at hkey
    cases hkey

theorem accounted (sched : ℕ → Move) (n : ℕ) : Accounted sched n := by
  induction n with
  | zero => exact ⟨fun _ => Or.inl rfl, fun _ => Or.inl rfl, fun t key h => by cases h⟩
  | succ n ih =>
    refine ⟨fun x => ?_, fun p => ?_, fun t key hfound => ?_⟩
    · rcases run_first sched n x with h | ⟨k, hk, -, h⟩
      · rw [h]
        exact (ih.first x).imp_right fun hu => hu.mono (Nat.le_succ n)
      · rw [h]
        exact ih.writesFirst hk
    · rcases run_second sched n p with h | ⟨k, hk, h⟩
      · rw [h]
        exact (ih.second p).imp_right fun hu => hu.mono (Nat.le_succ n)
      · rw [h]
        exact (ih.writesSecond hk).imp_right fun hu => hu.mono (Nat.le_succ n)
    · rw [run_pc] at hfound
      split at hfound
      · exact ih.next hfound
      · exact (ih.found t key hfound).imp_right fun hu => hu.mono (Nat.le_succ n)

/-- A hit is for a key that a thread has passed to `UpdateCache`, or for zero. -/
theorem hit_updated (h : (run sched n).pc t = .hit key) : key = 0 ∨ Updated sched n key :=
  (accounted sched n).found t key (by rw [h]; rfl)

end Caver.Runtime
