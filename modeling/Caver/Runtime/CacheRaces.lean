import Caver.Runtime.CacheThreads

/-!
# Caver.Runtime.CacheRaces — keys that are missed

A lookup reads the second cache cell by cell while other threads write to it, and
a thread stores a key in a bucket that it chose some time before.

* `Scan`: what a thread has read since its lookup began. Every step keeps it.
* `missed_after_update`: how a key that was stored can be missed.
* `cache_interleaving`: what holds in every interleaving.
-/

namespace Caver.Runtime

variable {sched : ℕ → Move} {n n' t u : ℕ} {key v : Uptr} {p i : ℕ}

/-! ## What a lookup has read -/

/-- Since `a` the cell had a value with the property. -/
def Seen (sched : ℕ → Move) (a n p : ℕ) (P : Uptr → Prop) : Prop :=
  ∃ r, a ≤ r ∧ r < n ∧ P ((run sched r).cache.second p)

/-- Since `a` the cell had the key, and then another one. -/
def Lost (sched : ℕ → Move) (a n p : ℕ) (key : Uptr) : Prop :=
  ∃ r r', a ≤ r ∧ r ≤ r' ∧ r' < n ∧ (run sched r).cache.second p = key ∧
    (run sched r').cache.second p ≠ key

/-- The probe `i` was neither empty nor had it the key. -/
def Passed (sched : ℕ → Move) (a n : ℕ) (key : Uptr) (i : ℕ) : Prop :=
  Seen sched a n (probeAt key i) (· ≠ 0) ∧ Seen sched a n (probeAt key i) (· ≠ key)

/-- The search for the key has ended with the bucket, for a reason: `stop` of the
bucket, or that no probe was empty or had the key. -/
def Ended (sched : ℕ → Move) (a n : ℕ) (key : Uptr) (bucket : ℕ) (stop : Prop) : Prop :=
  (∃ i < 5, bucket = probeAt key i ∧ (∀ j < i, Passed sched a n key j) ∧ stop) ∨
    bucket = probeAt key 0 ∧ ∀ j < 5, Passed sched a n key j

/-- What a thread that has begun to look up `key` at `a` has read by `n`. -/
def Scan (sched : ℕ → Move) (a : ℕ) (key : Uptr) (n : ℕ) : PC → Prop
  | .idle => False
  | .lookup k => k = key
  | .probeEmpty k tries p => k = key ∧ ∃ i < 5, tries = 5 - i ∧ p = probeAt key i ∧
      ∀ j < i, Passed sched a n key j
  | .probeMatch k tries p => k = key ∧ ∃ i < 5, tries = 5 - i ∧ p = probeAt key i ∧
      (∀ j < i, Passed sched a n key j) ∧ Seen sched a n p (· ≠ 0)
  | .reread k b => k = key ∧
      Ended sched a n key b (Seen sched a n b (· = 0) ∨ Seen sched a n b (· = key))
  | .fillFirst k => k = key
  | .hit k => k = key
  | .missed k b => k = key ∧
      Ended sched a n key b (Seen sched a n b (· = 0) ∨ Lost sched a n b key)
  | .updateFirst k b => k = key ∧
      Ended sched a n key b (Seen sched a n b (· = 0) ∨ Lost sched a n b key)
  | .updateSecond k b => k = key ∧
      Ended sched a n key b (Seen sched a n b (· = 0) ∨ Lost sched a n b key)
  | .updated k _ => k = key

section Scan

variable {a b : ℕ} {P : Uptr → Prop} {stop stop' : Prop} {pc : PC}

theorem Seen.mono (h : Seen sched a n p P) (hn : n ≤ n') : Seen sched a n' p P := by
  rcases h with ⟨r, ha, hr, hP⟩
  exact ⟨r, ha, hr.trans_le hn, hP⟩

theorem Seen.now (ha : a ≤ n) (h : P ((run sched n).cache.second p)) :
    Seen sched a (n + 1) p P :=
  ⟨n, ha, Nat.lt_succ_self n, h⟩

theorem Lost.mono (h : Lost sched a n p key) (hn : n ≤ n') : Lost sched a n' p key := by
  rcases h with ⟨r, r', ha, hr, hr', hkey⟩
  exact ⟨r, r', ha, hr, hr'.trans_le hn, hkey⟩

theorem Passed.mono (h : Passed sched a n key i) (hn : n ≤ n') : Passed sched a n' key i :=
  ⟨h.1.mono hn, h.2.mono hn⟩

theorem Ended.imp (h : Ended sched a n key b stop) (hn : n ≤ n') (hstop : stop → stop') :
    Ended sched a n' key b stop' := by
  rcases h with ⟨i, hi, hb, hpassed, hs⟩ | ⟨hb, hpassed⟩
  · exact Or.inl ⟨i, hi, hb, fun j hj => (hpassed j hj).mono hn, hstop hs⟩
  · exact Or.inr ⟨hb, fun j hj => (hpassed j hj).mono hn⟩

/-- What has been read stays read. -/
theorem Scan.mono (h : Scan sched a key n pc) (hn : n ≤ n') : Scan sched a key n' pc := by
  cases pc with
  | probeEmpty k tries p =>
    rcases h with ⟨hk, i, hi, ht, hp, hpassed⟩
    exact ⟨hk, i, hi, ht, hp, fun j hj => (hpassed j hj).mono hn⟩
  | probeMatch k tries p =>
    rcases h with ⟨hk, i, hi, ht, hp, hpassed, hne⟩
    exact ⟨hk, i, hi, ht, hp, fun j hj => (hpassed j hj).mono hn, hne.mono hn⟩
  | reread k b => exact ⟨h.1, h.2.imp hn (Or.imp (·.mono hn) (·.mono hn))⟩
  | missed k b => exact ⟨h.1, h.2.imp hn (Or.imp (·.mono hn) (·.mono hn))⟩
  | updateFirst k b => exact ⟨h.1, h.2.imp hn (Or.imp (·.mono hn) (·.mono hn))⟩
  | updateSecond k b => exact ⟨h.1, h.2.imp hn (Or.imp (·.mono hn) (·.mono hn))⟩
  | _ => exact h

/-- A step of the thread itself. -/
theorem Scan.next (h : Scan sched a key n pc) (ha : a ≤ n) (m : Move)
    (hbusy : pc.next (run sched n).cache m ≠ .idle) :
    Scan sched a key (n + 1) (pc.next (run sched n).cache m) := by
  have hlater := Nat.le_succ n
  cases pc with
  | idle => exact h.elim
  | lookup k =>
    obtain rfl : k = key := h
    rw [PC.next]
    split
    · exact rfl
    · exact ⟨rfl, 0, by omega, rfl, rfl, fun j hj => absurd hj (Nat.not_lt_zero j)⟩
  | probeEmpty k tries p =>
    rcases h with ⟨rfl, i, hi, ht, hp, hpassed⟩
    rw [PC.next]
    split
    · next hzero =>
      exact ⟨rfl, Or.inl ⟨i, hi, hp, fun j hj => (hpassed j hj).mono hlater,
        Or.inl (.now ha hzero)⟩⟩
    · next hne =>
      exact ⟨rfl, i, hi, ht, hp, fun j hj => (hpassed j hj).mono hlater, .now ha hne⟩
  | probeMatch k tries p =>
    rcases h with ⟨rfl, i, hi, ht, hp, hpassed, hne⟩
    rw [PC.next]
    split
    · next hmatch =>
      exact ⟨rfl, Or.inl ⟨i, hi, hp, fun j hj => (hpassed j hj).mono hlater,
        Or.inr (.now ha hmatch)⟩⟩
    · next hother =>
      -- this probe has been passed too
      have hall : ∀ j < i + 1, Passed sched a (n + 1) k j := by
        intro j hj
        rcases Nat.lt_succ_iff_lt_or_eq.mp hj with hj | rfl
        · exact (hpassed j hj).mono hlater
        · subst hp
          exact ⟨hne.mono hlater, .now ha hother⟩
      split
      · obtain rfl : i = 4 := by omega
        exact ⟨rfl, Or.inr ⟨rfl, hall⟩⟩
      · refine ⟨rfl, i + 1, by omega, by omega, ?_, hall⟩
        rw [hp, probeAt]
  | reread k b =>
    rcases h with ⟨rfl, hended⟩
    rw [PC.next]
    split
    · exact rfl
    · next hother =>
      refine ⟨rfl, hended.imp hlater (Or.imp (·.mono hlater) ?_)⟩
      rintro ⟨r, har, hr, hmatch⟩
      exact ⟨r, n, har, hr.le, Nat.lt_succ_self n, hmatch, hother⟩
  | fillFirst k => exact h
  | hit k => exact absurd rfl hbusy
  | missed k b =>
    rw [PC.next] at hbusy ⊢
    split
    · exact ⟨h.1, h.2.imp hlater (Or.imp (·.mono hlater) (·.mono hlater))⟩
    · next hno =>
      rw [if_neg hno] at hbusy
      exact absurd rfl hbusy
  | updateFirst k b => exact ⟨h.1, h.2.imp hlater (Or.imp (·.mono hlater) (·.mono hlater))⟩
  | updateSecond k b => exact h.1
  | updated k b => exact absurd rfl hbusy

/-- From the beginning of a lookup on, as long as the thread is in that cast. -/
theorem scan (hstart : (run sched a).pc t = .lookup key) (hn : a ≤ n)
    (hbusy : ∀ r, a ≤ r → r ≤ n → (run sched r).pc t ≠ .idle) :
    Scan sched a key n ((run sched n).pc t) := by
  induction n, hn using Nat.le_induction with
  | base =>
    rw [hstart]
    exact rfl
  | succ n hn ih =>
    have hscan := ih fun r har hr => hbusy r har (hr.trans (Nat.le_succ n))
    have hlast := hbusy (n + 1) (hn.trans (Nat.le_succ n)) le_rfl
    rw [run_pc] at hlast ⊢
    split
    · next ht =>
      rw [if_pos ht] at hlast
      exact hscan.next hn _ hlast
    · exact hscan.mono (Nat.le_succ n)

/-- A lookup that has gone past the first cache has read another key there. -/
theorem first_read (hstart : (run sched a).pc t = .lookup key) (hn : a ≤ n)
    (hbusy : ∀ r, a ≤ r → r ≤ n → (run sched r).pc t ≠ .idle) :
    (run sched n).pc t = .lookup key ∨ (run sched n).pc t = .hit key ∨
      ∃ r, a ≤ r ∧ r < n ∧ (run sched r).cache.first (firstSlot key) ≠ key := by
  induction n, hn using Nat.le_induction with
  | base => exact Or.inl hstart
  | succ n hn ih =>
    have hlast := hbusy (n + 1) (hn.trans (Nat.le_succ n)) le_rfl
    rw [run_pc] at hlast ⊢
    rcases ih fun r har hr => hbusy r har (hr.trans (Nat.le_succ n)) with h | h | ⟨r, har, hr, hne⟩
    · split
      · rw [h, PC.next]
        split
        · exact Or.inr (Or.inl rfl)
        · next hne => exact Or.inr (Or.inr ⟨n, hn, Nat.lt_succ_self n, hne⟩)
      · exact Or.inl h
    · split
      · next ht =>
        rw [if_pos ht, h] at hlast
        exact absurd rfl hlast
      · exact Or.inr (Or.inl h)
    · exact Or.inr (Or.inr ⟨r, har, hr.trans (Nat.lt_succ_self n), hne⟩)

end Scan

/-! ## What overwrites a key -/

/-- Between `a` and `n` another key is written to the cell of the first cache. -/
def FirstOverwritten (sched : ℕ → Move) (a n : ℕ) (key : Uptr) : Prop :=
  ∃ r k, a ≤ r ∧ r < n ∧ (moves sched r).writesFirst = some k ∧ firstSlot k = firstSlot key ∧
    k ≠ key

/-- Between `a` and `n` another key is written over the key in the bucket. -/
def SecondOverwritten (sched : ℕ → Move) (a n bucket : ℕ) (key : Uptr) : Prop :=
  ∃ r k, a ≤ r ∧ r < n ∧ (moves sched r).writesSecond = some (k, bucket) ∧ k ≠ key ∧
    (run sched r).cache.second bucket = key

/-- Between `a` and `n` the key zero is written to a cell that is probed. -/
def Emptied (sched : ℕ → Move) (a n : ℕ) (key : Uptr) : Prop :=
  ∃ r p, a ≤ r ∧ r < n ∧ p ∈ probes key ∧ (moves sched r).writesSecond = some (0, p)

theorem firstOverwritten_of_ne {a : ℕ} (ha : a ≤ n)
    (hkey : (run sched a).cache.first (firstSlot key) = key)
    (hne : (run sched n).cache.first (firstSlot key) ≠ key) : FirstOverwritten sched a n key := by
  induction n, ha using Nat.le_induction with
  | base => exact absurd hkey hne
  | succ n hn ih =>
    rcases run_first sched n (firstSlot key) with h | ⟨k, hk, hslot, h⟩
    · rw [h] at hne
      rcases ih hne with ⟨r, k, har, hr, hw⟩
      exact ⟨r, k, har, hr.trans (Nat.lt_succ_self n), hw⟩
    · exact ⟨n, k, hn, Nat.lt_succ_self n, hk, hslot, h ▸ hne⟩

theorem secondOverwritten_of_ne {a b : ℕ} (ha : a ≤ n)
    (hkey : (run sched a).cache.second b = key) (hne : (run sched n).cache.second b ≠ key) :
    SecondOverwritten sched a n b key := by
  induction n, ha using Nat.le_induction with
  | base => exact absurd hkey hne
  | succ n hn ih =>
    by_cases hn' : (run sched n).cache.second b = key
    · rcases run_second sched n b with h | ⟨k, hk, h⟩
      · exact absurd (h.trans hn') hne
      · exact ⟨n, k, hn, Nat.lt_succ_self n, hk, h ▸ hne, hn'⟩
    · rcases ih hn' with ⟨r, k, har, hr, hw⟩
      exact ⟨r, k, har, hr.trans (Nat.lt_succ_self n), hw⟩

theorem emptied_of_zero {a : ℕ} (ha : a ≤ n) (hp : p ∈ probes key)
    (hne : (run sched a).cache.second p ≠ 0) (hzero : (run sched n).cache.second p = 0) :
    Emptied sched a n key := by
  induction n, ha using Nat.le_induction with
  | base => exact absurd hzero hne
  | succ n hn ih =>
    rcases run_second sched n p with h | ⟨k, hk, h⟩
    · rcases ih (h.symm.trans hzero) with ⟨r, p, har, hr, hw⟩
      exact ⟨r, p, har, hr.trans (Nat.lt_succ_self n), hw⟩
    · obtain rfl : k = 0 := h.symm.trans hzero
      exact ⟨n, p, hn, Nat.lt_succ_self n, hp, hk⟩

/-! ## Missing a key that was stored -/

/-- A thread looks the key up at `a`, misses it, and stores it in the bucket that
the lookup gave: the write to the first cache is move `i`, that to the bucket is
move `j`. -/
structure Stores (sched : ℕ → Move) (t : ℕ) (key : Uptr) (bucket a i j : ℕ) : Prop where
  start : (run sched a).pc t = .lookup key
  le : a ≤ i
  lt : i < j
  busy : ∀ r, a ≤ r → r ≤ j → (run sched r).pc t ≠ .idle
  writeFirst : (sched i).thread = t ∧ (run sched i).pc t = .updateFirst key bucket
  writeSecond : (sched j).thread = t ∧ (run sched j).pc t = .updateSecond key bucket

/-- A thread looks the key up at `a`, and by `n` the answer is that it is not in
the cache. -/
structure Misses (sched : ℕ → Move) (t : ℕ) (key : Uptr) (a n : ℕ) : Prop where
  start : (run sched a).pc t = .lookup key
  le : a ≤ n
  busy : ∀ r, a ≤ r → r ≤ n → (run sched r).pc t ≠ .idle
  answer : ∃ bucket, (run sched n).pc t = .missed key bucket

section Miss

variable {a a' b i j : ℕ}

theorem Stores.first (h : Stores sched t key b a i j) :
    (run sched (i + 1)).cache.first (firstSlot key) = key := by
  show (((run sched i).pc (sched i).thread).write _).first _ = key
  rw [h.writeFirst.1, h.writeFirst.2]
  exact Function.update_self _ _ _

theorem Stores.second (h : Stores sched t key b a i j) :
    (run sched (j + 1)).cache.second b = key := by
  show (((run sched j).pc (sched j).thread).write _).second _ = key
  rw [h.writeSecond.1, h.writeSecond.2]
  exact Function.update_self _ _ _

/-- The bucket is a probe, and the probes before it were not empty. -/
theorem Stores.bucket (h : Stores sched t key b a i j) :
    ∃ k < 5, b = probeAt key k ∧ ∀ l < k, Seen sched a j (probeAt key l) (· ≠ 0) := by
  have hscan := scan h.start (h.le.trans h.lt.le) h.busy
  rw [h.writeSecond.2] at hscan
  rcases hscan with ⟨-, ⟨k, hk, hb, hpassed, -⟩ | ⟨hb, -⟩⟩
  · exact ⟨k, hk, hb, fun l hl => (hpassed l hl).1⟩
  · exact ⟨0, by omega, hb, fun l hl => absurd hl (Nat.not_lt_zero l)⟩

/-- A lookup of a key that was stored before misses it only where another key has
been written over it in the first cache, and has been written over it in its
bucket too, or a probed cell was emptied by the key zero, or during the lookup
another key is written over the same key in another cell. -/
theorem missed_after_update (hkey : key ≠ 0) (hstore : Stores sched t key b a i j)
    (hafter : j < a') (hmiss : Misses sched u key a' n) :
    FirstOverwritten sched (i + 1) n key ∧
      (SecondOverwritten sched (j + 1) n b key ∨ Emptied sched a n key ∨
        ∃ p ∈ probes key, SecondOverwritten sched a' n p key) := by
  rcases hmiss.answer with ⟨bucket, hanswer⟩
  have hle := hmiss.le
  constructor
  · have hread := first_read hmiss.start hle hmiss.busy
    rw [hanswer] at hread
    rcases hread with h | h | ⟨r, har, hr, hne⟩
    · cases h
    · cases h
    · have hlt := hstore.lt
      obtain ⟨r', k, hr', hlt', hw⟩ := firstOverwritten_of_ne (by omega) hstore.first hne
      exact ⟨r', k, hr', hlt'.trans hr, hw⟩
  · by_cases hover : SecondOverwritten sched (j + 1) n b key
    · exact Or.inl hover
    refine Or.inr ?_
    -- the bucket has the key all the time
    have hholds : ∀ r, j + 1 ≤ r → r < n → (run sched r).cache.second b = key := by
      intro r hjr hr
      by_contra hne
      rcases secondOverwritten_of_ne hjr hstore.second hne with ⟨r', k, hr', hlt', hw⟩
      exact hover ⟨r', k, hr', hlt'.trans hr, hw⟩
    rcases hstore.bucket with ⟨k, hk, hb, hbefore⟩
    -- so the search has not gone past it
    have hnot : ¬ Passed sched a' n key k := by
      rintro ⟨-, r, har, hr, hne⟩
      rw [← hb] at hne
      exact hne (hholds r (by omega) hr)
    have hscan := scan hmiss.start hle hmiss.busy
    rw [hanswer] at hscan
    rcases hscan with ⟨-, ⟨m, hm, hp, hpassed, hstop⟩ | ⟨-, hall⟩⟩
    · have hprobe : bucket ∈ probes key := by
        rw [hp]
        exact List.mem_map.mpr ⟨m, List.mem_range.mpr hm, rfl⟩
      rcases hstop with ⟨r, har, hr, hzero⟩ | ⟨r, r', har, hrr', hr', hmatch, hother⟩
      · -- it ended at an empty cell, which comes before the bucket
        rcases Nat.lt_trichotomy m k with hmk | rfl | hkm
        · rcases hbefore m hmk with ⟨r₀, har₀, hr₀, hne⟩
          rw [← hp] at hne
          obtain ⟨r', p, hr', hlt', hw⟩ := emptied_of_zero (by omega) hprobe hne hzero
          exact Or.inl ⟨r', p, har₀.trans hr', hlt'.trans hr, hw⟩
        · rw [hp, ← hb, hholds r (by omega) hr] at hzero
          exact absurd hzero hkey
        · exact absurd (hpassed k hkm) hnot
      · -- it ended at the key, and that was overwritten
        rcases secondOverwritten_of_ne hrr' hmatch hother with ⟨r'', k', hr'', hlt', hw⟩
        exact Or.inr ⟨bucket, hprobe, r'', k', har.trans hr'', hlt'.trans hr', hw⟩
    · exact absurd (hall k hk) hnot

end Miss

/-- The cell that a thread probes, or the bucket that it has chosen, for a key. -/
def PC.cell : PC → Option (Uptr × ℕ)
  | probeEmpty key _ probe => some (key, probe)
  | probeMatch key _ probe => some (key, probe)
  | reread key bucket => some (key, bucket)
  | missed key bucket => some (key, bucket)
  | updateFirst key bucket => some (key, bucket)
  | updateSecond key bucket => some (key, bucket)
  | _ => none

/-- A thread that still has tries left is at the probe after the others. -/
def PC.OnTrack : PC → Prop
  | probeEmpty key tries p => ∃ i < 5, tries = 5 - i ∧ p = probeAt key i
  | probeMatch key tries p => ∃ i < 5, tries = 5 - i ∧ p = probeAt key i
  | pc => ∀ key p, pc.cell = some (key, p) → p ∈ probes key

theorem mem_probes (hi : i < 5) : probeAt key i ∈ probes key :=
  List.mem_map.mpr ⟨i, List.mem_range.mpr hi, rfl⟩

theorem PC.OnTrack.mem {pc : PC} (h : pc.OnTrack) (hcell : pc.cell = some (key, p)) :
    p ∈ probes key := by
  cases pc with
  | probeEmpty k tries q =>
    cases hcell
    rcases h with ⟨i, hi, -, rfl⟩
    exact mem_probes hi
  | probeMatch k tries q =>
    cases hcell
    rcases h with ⟨i, hi, -, rfl⟩
    exact mem_probes hi
  | _ => exact h key p hcell

theorem PC.OnTrack.next {pc : PC} (h : pc.OnTrack) (c : Cache) (m : Move) :
    (pc.next c m).OnTrack := by
  cases pc with
  | lookup k =>
    rw [PC.next]
    split
    · exact fun _ _ hcell => by cases hcell
    · exact ⟨0, by omega, rfl, rfl⟩
  | probeEmpty k tries q =>
    rw [PC.next]
    split
    · exact fun _ _ hcell => h.mem hcell
    · exact h
  | probeMatch k tries q =>
    -- the probe is the `i`th of the key, and the next one is the `i + 1`st
    rcases h with ⟨i, hi, ht, hq⟩
    rw [PC.next]
    split
    · intro key p hcell
      cases hcell
      rw [hq]
      exact mem_probes hi
    · split
      · intro key p hcell
        cases hcell
        exact mem_probes (by omega)
      · refine ⟨i + 1, by omega, by omega, ?_⟩
        rw [hq, probeAt]
  | reread k b =>
    rw [PC.next]
    split
    · exact fun _ _ hcell => by cases hcell
    · exact fun _ _ hcell => h.mem hcell
  | missed k b =>
    rw [PC.next]
    split
    · exact fun _ _ hcell => h.mem hcell
    · exact fun _ _ hcell => by cases hcell
  | updateFirst k b => exact fun _ _ hcell => h.mem hcell
  | _ => exact fun _ _ hcell => by cases hcell

theorem run_onTrack (sched : ℕ → Move) (n t : ℕ) : ((run sched n).pc t).OnTrack := by
  induction n with
  | zero => exact fun _ _ hcell => by cases hcell
  | succ n ih =>
    rw [run_pc]
    split
    · exact ih.next _ _
    · exact ih

/-- In every interleaving: a lookup probes five different cells of the table; it
hits a key only after a thread has passed that to `UpdateCache`; and it misses a
key that was stored only where the key has been overwritten in the first cache,
and in its bucket too unless a probed cell was emptied by the key zero or the key
was overwritten in another cell during the lookup. -/
theorem cache_interleaving (sched : ℕ → Move) (key : Uptr) (hkey : key ≠ 0) :
    ((∀ n t p, ((run sched n).pc t).cell = some (key, p) → p ∈ probes key) ∧
      (∀ p ∈ probes key, p < secondCacheSize) ∧ (probes key).Nodup ∧ (probes key).length = 5) ∧
    (∀ n t, (run sched n).pc t = .hit key → Updated sched n key) ∧
    ∀ t u b a i j a' n, Stores sched t key b a i j → j < a' → Misses sched u key a' n →
      FirstOverwritten sched (i + 1) n key ∧
        (SecondOverwritten sched (j + 1) n b key ∨ Emptied sched a n key ∨
          ∃ p ∈ probes key, SecondOverwritten sched a' n p key) := by
  refine ⟨⟨fun n t p hcell => (run_onTrack sched n t).mem hcell, fun p hp => ?_,
    probes_nodup key, rfl⟩, fun n t hhit => (hit_updated hhit).resolve_left hkey,
    fun t u b a i j a' n hstore hafter hmiss => missed_after_update hkey hstore hafter hmiss⟩
  rcases List.mem_map.mp hp with ⟨i, -, rfl⟩
  exact probeAt_lt key i

/-- Three keys whose first probe is cell 1. Threads 1 and 3 look up `0x10000` and
`0x30000` and are given that cell, thread 2 stores `0x20000` there, thread 0 stores
`0x10000` in cell 3, and thread 1 in cell 1. While thread 0 looks it up again,
thread 3 writes its key over cell 1. -/
def raceMoves : List Move :=
  List.replicate 4 ⟨1, 0x10000, true⟩ ++ List.replicate 4 ⟨3, 0x30000, true⟩ ++
    List.replicate 7 ⟨2, 0x20000, true⟩ ++ List.replicate 9 ⟨0, 0x10000, true⟩ ++
    List.replicate 3 ⟨1, 0x10000, true⟩ ++ List.replicate 2 ⟨3, 0x30000, true⟩ ++
    List.replicate 5 ⟨0, 0x10000, true⟩ ++ [⟨3, 0x30000, true⟩, ⟨0, 0x10000, true⟩]

def raceSchedule (n : ℕ) : Move := (raceMoves[n]?).getD ⟨0, 0, false⟩

theorem race_stores : Stores raceSchedule 0 0x10000 3 16 22 23 where
  start := by decide +kernel
  le := by decide
  lt := by decide
  busy := by decide +kernel
  writeFirst := by decide +kernel
  writeSecond := by decide +kernel

theorem race_misses : Misses raceSchedule 0 0x10000 31 36 where
  start := by decide +kernel
  le := by decide
  busy := by decide +kernel
  answer := ⟨1, by decide +kernel⟩

/-- The key is in its bucket, cell 3, all the time, but the lookup misses it. -/
theorem cache_interleaving_race_missed :
    Stores raceSchedule 0 0x10000 3 16 22 23 ∧ Misses raceSchedule 0 0x10000 31 36 ∧
      ¬ ∃ r k, 24 ≤ r ∧ r < 36 ∧ (moves raceSchedule r).writesSecond = some (k, 3) := by
  refine ⟨race_stores, race_misses, ?_⟩
  rintro ⟨r, k, hr, hr', hw⟩
  have hnone : ∀ r, 24 ≤ r → r < 36 →
      (moves raceSchedule r).writesSecond.map Prod.snd ≠ some 3 := by decide +kernel
  exact hnone r hr hr' (by rw [hw]; rfl)

/-- In the race the key is overwritten in the first cache, and in cell 1. -/
theorem cache_interleaving_race :
    (0x10000 : Uptr) ≠ 0 ∧ FirstOverwritten raceSchedule 23 36 0x10000 ∧
      (SecondOverwritten raceSchedule 24 36 3 0x10000 ∨ Emptied raceSchedule 16 36 0x10000 ∨
        ∃ p ∈ probes 0x10000, SecondOverwritten raceSchedule 31 36 p 0x10000) := by
  have hkey : (0x10000 : Uptr) ≠ 0 := by decide
  rcases cache_interleaving raceSchedule 0x10000 hkey with ⟨-, -, hmissed⟩
  exact ⟨hkey, hmissed 0 0 3 16 22 23 31 36 race_stores (by decide) race_misses⟩

end Caver.Runtime
