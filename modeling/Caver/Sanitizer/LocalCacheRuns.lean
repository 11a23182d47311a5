import Caver.Sanitizer.LocalCacheSpecs

/-!
# Caver.Sanitizer.LocalCacheRuns — caches in use

Callers allocate chunks, write to them, and give them back, to any of several caches.

* `caches_conserve`: after any calls, every carved chunk has one place, and the free
  lists in memory are in order. A process dies of an exhausted region only.
* `drain_empties`: `Drain` leaves nothing in a cache, and loses nothing.
* `caches_refine`: whatever the caches give out, the allocator that chooses any free
  chunk can give out as well.
-/

namespace Caver.Sanitizer.LocalCache

open Caver.Core

variable {K k c d n : ℕ} {R C : Set ℕ} {held : Multiset Uptr} {s s' : State} {B : Batches}
  {p x a : Uptr}

/-! ## Drain -/

theorem drainWhile_ends {fuel : ℕ} (h : Inv K s B held) (hk : k < K) (hc : c ∈ classes)
    (hle : (s.caches k c).count ≤ fuel) :
    ends (drainWhile k c fuel) oom (fun _ s' => (∃ B', Inv K s' B' held) ∧
      Step k (homes c) (insert c (homes c)) held s s' ∧ AllGrown s s' ∧
      (s'.caches k c).count = 0) s := by
  have hmaxPos := (class_facts hc).2.1
  induction fuel generalizing s B with
  | zero =>
    have hz : (s.caches k c).count = 0 := Nat.le_zero.mp hle
    rw [drainWhile, ends_bind, ends_get]
    refine ends_require_true (by rw [hz]; rfl) ?_
    exact ⟨⟨B, h⟩, Step.refl s, AllGrown.refl s, hz⟩
  | succ fuel ih =>
    rw [drainWhile, ends_bind, ends_get, ends_ite]
    split
    · next hpos =>
      rw [ends_bind]
      refine (drainClass_ends h hk hc hpos fun _ => allocate_batchClass hk).mono ?_
      rintro _ s₁ ⟨⟨B₁, h₁⟩, hstep₁, hgrown₁, _, hcount₁⟩
      refine (ih h₁ (by omega)).mono ?_
      rintro _ s₂ ⟨h₂, hstep₂, hgrown₂, hz⟩
      exact ⟨h₂, hstep₁.trans hstep₂, hgrown₁.trans hgrown₂, hz⟩
    · next hz =>
      rw [ends_pure]
      exact ⟨⟨B, h⟩, Step.refl s, AllGrown.refl s, Nat.eq_zero_of_not_pos hz⟩

theorem homes_subset (c : ℕ) : homes c ⊆ (classes : Set ℕ) := by
  rintro d ⟨_, rfl⟩
  exact batchClass_mem

theorem touched_subset (hc : c ∈ classes) : insert c (homes c) ⊆ (classes : Set ℕ) :=
  Set.insert_subset hc (homes_subset c)

/-- Classes are drained in order, so the chunks that store batches come last. -/
theorem drain_ends (h : Inv K s B held) (hk : k < K) (hzero : (s.caches k 0).count = 0) :
    ends (drain k) oom (fun _ s' => (∃ B', Inv K s' B' held) ∧
      Step k classes classes held s s' ∧ AllGrown s s' ∧
      ∀ d < 53, (s'.caches k d).count = 0) s := by
  unfold drain
  refine ends_forM_range (I := fun i s' => (∃ B', Inv K s' B' held) ∧
    Step k classes classes held s s' ∧ AllGrown s s' ∧ ∀ d < i, (s'.caches k d).count = 0) ?_ ?_
  · rintro i hi s₁ ⟨⟨B₁, h₁⟩, hstep₁, hgrown₁, hdone⟩
    rw [ends_bind, ends_get]
    rcases Nat.eq_zero_or_pos i with rfl | hpos
    · -- there are no chunks of class 0
      have hz : (s₁.caches k 0).count = 0 := by
        rw [(hstep₁.counts 0 (by simp [classes])).1, hzero]
      rw [hz, drainWhile, ends_bind, ends_get]
      refine ends_require_true (by rw [hz]; rfl) ?_
      refine ⟨⟨B₁, h₁⟩, hstep₁, hgrown₁, fun d hd => ?_⟩
      obtain rfl : d = 0 := by omega
      exact hz
    · have hc := mem_classes.mpr ⟨hpos, hi⟩
      refine (drainWhile_ends h₁ hk hc le_rfl).mono ?_
      rintro _ s₂ ⟨h₂, hstep₂, hgrown₂, hz⟩
      refine ⟨h₂, hstep₁.trans (hstep₂.mono (homes_subset i) (touched_subset hc) fun _ hx => hx),
        hgrown₁.trans hgrown₂, fun d hd => ?_⟩
      rcases Nat.lt_succ_iff_lt_or_eq.mp hd with hlt | rfl
      · have hout : d ∉ insert i (homes i) := by
          rintro (heq | ⟨hsep, heq⟩)
          · omega
          · have hlt' := (class_facts hc).2.2.2.2 hsep
            omega
        rw [(hstep₂.counts d hout).1]
        exact hdone d hlt
      · exact hz
  · exact ⟨⟨B, h⟩, Step.refl s, AllGrown.refl s, fun d hd => absurd hd (Nat.not_lt_zero d)⟩

/-! ## Calls -/

/-- What a caller can do. -/
inductive Op where
  | allocate (k c : ℕ)
  | deallocate (k : ℕ) (p : Uptr)
  | drain (k : ℕ)
  | write (a v : Uptr)
deriving DecidableEq, Repr

/-- What the callers have seen. -/
inductive Event where
  | allocated (c : ℕ) (p : Uptr)
  | freed (c : ℕ) (p : Uptr)
  | wrote (a v : Uptr)
deriving DecidableEq, Repr

/-- The allocator, the chunks that the callers hold, and what has happened. -/
structure World where
  state : State
  held : List Uptr
  log : List Event

/-- Before the first call. -/
def World.start (mem : Uptr → Uptr) : World :=
  ⟨⟨mem, fun _ => ⟨0, 0, 0, 0⟩, fun _ => 0, fun _ _ => ⟨0, 0, fun _ => 0⟩⟩, [], []⟩

/-- The address is in a chunk that the callers hold. -/
def inHeld (held : List Uptr) (a : Uptr) : Bool :=
  held.any fun p => p ≤ a && a.toNat < p.toNat + chunkSize (classOf p)

/-- One call, by one of `K` caches. Callers give back and write to what they hold. -/
def World.exec (K : ℕ) (w : World) : Op → Except Death World
  | .allocate k c =>
    if k < K ∧ c ∈ classes then do
      let ps ← LocalCache.allocate 2 k c w.state
      return ⟨ps.2, ps.1 :: w.held, .allocated c ps.1 :: w.log⟩
    else return w
  | .deallocate k p =>
    if k < K ∧ p ∈ w.held then do
      let ps ← LocalCache.deallocate k (classOf p) p w.state
      return ⟨ps.2, w.held.erase p, .freed (classOf p) p :: w.log⟩
    else return w
  | .drain k =>
    if k < K then do
      let ps ← LocalCache.drain k w.state
      return { w with state := ps.2 }
    else return w
  | .write a v =>
    if inHeld w.held a then
      return ⟨w.state.setMem (Function.update w.state.mem a v), w.held, .wrote a v :: w.log⟩
    else return w

/-- Any calls, one after the other. -/
def runCalls (K : ℕ) (mem : Uptr → Uptr) (ops : List Op) : Except Death World :=
  ops.foldlM (World.exec K) (World.start mem)

/-! ## Conservation -/

/-- What holds between calls. -/
structure World.Ok (K : ℕ) (w : World) : Prop where
  inv : ∃ B, Inv K w.state B ↑w.held
  zero : ∀ k, (w.state.caches k 0).count = 0
  regions : RegionsOk w.state.regions

theorem World.start_ok (K : ℕ) (mem : Uptr → Uptr) : (World.start mem).Ok K where
  inv := by
    refine ⟨fun _ => [], ?_, ?_, ?_, ?_, ?_, ?_⟩
    · exact fun c _ => ⟨Nat.dvd_zero _, Nat.le_refl _, Nat.zero_le _⟩
    · simp [World.start, cached, stored, carvedAll, carvedOf, PerClass.chunks]
    · exact fun c _ => (by decide : LFStack.pointer 0 = 0)
    · exact fun c _ b hb => absurd hb List.not_mem_nil
    · exact fun k _ c _ => ⟨Or.inr ⟨rfl, rfl⟩, fun p hp => absurd hp List.not_mem_nil⟩
    · exact fun k _ hne => absurd rfl hne
  zero _ := rfl
  regions _ _ _ := ⟨⟨0, (Nat.zero_mul _).symm, rfl⟩, Nat.le_refl _, Nat.le_refl _, Nat.zero_le _⟩

theorem Grows.ok {r r' : RegionInfo} (hc : c ∈ classes) (hr : r.Ok c) (h : Grows c r r') :
    r'.Ok c := by
  rcases mem_classes.mp hc with ⟨h0, h53⟩
  induction h with
  | refl => exact hr
  | tail _ hstep ih => exact (populateFreeList_ok h0 h53 ih hstep).1

theorem AllGrown.regionsOk (h : AllGrown s s') (hr : RegionsOk s.regions) :
    RegionsOk s'.regions := by
  intro c h0 h53
  have hc := mem_classes.mpr ⟨h0, h53⟩
  exact Grows.ok hc (hr c h0 h53) (h c hc)

/-- No step puts anything into class 0. -/
theorem Step.zero (h : Step k R C held s s') (hC : 0 ∉ C)
    (hz : ∀ k, (s.caches k 0).count = 0) (j : ℕ) : (s'.caches j 0).count = 0 := by
  by_cases hj : j = k
  · rw [hj, (h.counts 0 hC).1, hz]
  · rw [h.caches j hj, hz]

theorem inHeld_inside (h : Inv K s B held) {l : List Uptr} (hl : held = ↑l) (ha : inHeld l a) :
    ∃ p ∈ held, Inside p a := by
  subst hl
  simp only [inHeld, List.any_eq_true, Bool.and_eq_true, decide_eq_true_eq] at ha
  rcases ha with ⟨p, hp, hlo, hhi⟩
  have hcarved : p ∈ carvedAll s.regions := by
    rw [← h.places]
    exact Multiset.mem_add.mpr (Or.inr hp)
  rcases carved_start h.roomy hcarved with ⟨i, hf, hx, _⟩
  have hlo := UInt64.le_iff_toNat_le.mp hlo
  exact ⟨p, hp, _, i, hf, hx, by omega, by omega⟩

/-- A held chunk and its class. -/
theorem held_class (h : Inv K s B held) (hp : p ∈ held) : classOf p ∈ classes := by
  refine carved_class h.roomy ?_
  rw [← h.places]
  exact Multiset.mem_add.mpr (Or.inr hp)

/-- All that a call can do. -/
inductive Effect (K : ℕ) (w : World) : World → Prop
  | skipped : Effect K w w
  | allocated (k c : ℕ) (p : Uptr) (s' : State) : c ∈ classes → classOf p = c →
      (∃ B, Inv K s' B (p ::ₘ ↑w.held)) → Step k classes classes ↑w.held w.state s' →
      AllGrown w.state s' → Effect K w ⟨s', p :: w.held, .allocated c p :: w.log⟩
  | freed (k : ℕ) (p : Uptr) (s' : State) : p ∈ w.held → classOf p ∈ classes →
      (∃ B, Inv K s' B ↑(w.held.erase p)) →
      Step k classes classes ↑(w.held.erase p) w.state s' → AllGrown w.state s' →
      Effect K w ⟨s', w.held.erase p, .freed (classOf p) p :: w.log⟩
  | drained (k : ℕ) (s' : State) : (∃ B, Inv K s' B ↑w.held) →
      Step k classes classes ↑w.held w.state s' → AllGrown w.state s' →
      Effect K w { w with state := s' }
  | wrote (a v x : Uptr) : x ∈ w.held → Inside x a →
      Effect K w ⟨w.state.setMem (Function.update w.state.mem a v), w.held, .wrote a v :: w.log⟩

/-- A run dies of an exhausted region only, and ends in `P` if it does not die. -/
def Survives {α : Type} (r : Except Death α) (P : α → Prop) : Prop :=
  match r with
  | .ok a => P a
  | .error e => e = .outOfMemory

theorem Survives.mono {α : Type} {r : Except Death α} {P Q : α → Prop} (h : Survives r P)
    (hPQ : ∀ a, P a → Q a) : Survives r Q := by
  cases r with
  | error e => exact h
  | ok a => exact hPQ a h

/-- A call, from what its program does. -/
theorem ends.survives {α : Type} {m : CacheM α} {f : α × State → Except Death World}
    {Q : α → State → Prop} {P : World → Prop} (h : ends m oom Q s)
    (hf : ∀ r s', Q r s' → Survives (f (r, s')) P) : Survives (m s >>= f) P := by
  unfold ends at h
  cases hm : m s with
  | error e =>
    rw [hm] at h
    exact h
  | ok rs =>
    rw [hm] at h
    exact hf _ _ h

theorem World.exec_effect {w : World} (h : w.Ok K) (op : Op) :
    Survives (w.exec K op) (Effect K w) := by
  rcases h.inv with ⟨B, hinv⟩
  cases op with
  | allocate k c =>
    rw [World.exec]
    split
    · next hkc =>
      refine ends.survives (allocate_ends hinv hkc.1 hkc.2) ?_
      rintro p s' ⟨hinv', hclass, hstep, hgrown⟩
      exact Effect.allocated k c p s' hkc.2 hclass hinv'
        (hstep.mono (touched_subset hkc.2) (touched_subset hkc.2) fun _ hx => hx) hgrown
    · exact Effect.skipped
  | deallocate k p =>
    rw [World.exec]
    split
    · next hkp =>
      -- the chunk that is freed leaves the callers
      have hheld : (↑w.held : Multiset Uptr) = p ::ₘ ↑(w.held.erase p) := by
        rw [Multiset.cons_coe, Multiset.coe_eq_coe]
        exact List.perm_cons_erase hkp.2
      have hc := held_class hinv hkp.2
      rw [hheld] at hinv
      refine ends.survives (deallocate_ends hinv hkp.1 hc rfl) ?_
      rintro _ s' ⟨hinv', hstep, hgrown⟩
      exact Effect.freed k p s' hkp.2 hc hinv'
        (hstep.mono (homes_subset _) (touched_subset hc) fun _ hx => hx) hgrown
    · exact Effect.skipped
  | drain k =>
    rw [World.exec]
    split
    · next hk =>
      refine ends.survives (drain_ends hinv hk (h.zero k)) ?_
      rintro _ s' ⟨hinv', hstep, hgrown, _⟩
      exact Effect.drained k s' hinv' hstep hgrown
    · exact Effect.skipped
  | write a v =>
    rw [World.exec]
    split
    · next ha =>
      -- a caller writes within a chunk of its own
      rcases inHeld_inside hinv rfl ha with ⟨x, hx, hin⟩
      exact Effect.wrote a v x hx hin
    · exact Effect.skipped

theorem Effect.ok {w w' : World} (h : w.Ok K) (he : Effect K w w') : w'.Ok K := by
  have h0 : 0 ∉ (classes : Set ℕ) := by simp [classes]
  cases he with
  | skipped => exact h
  | allocated k c p s' hc hclass hinv hstep hgrown =>
    exact ⟨hinv, hstep.zero h0 h.zero, hgrown.regionsOk h.regions⟩
  | freed k p s' hp hc hinv hstep hgrown =>
    exact ⟨hinv, hstep.zero h0 h.zero, hgrown.regionsOk h.regions⟩
  | drained k s' hinv hstep hgrown =>
    exact ⟨hinv, hstep.zero h0 h.zero, hgrown.regionsOk h.regions⟩
  | wrote a v x hx hin =>
    rcases h.inv with ⟨B, hinv⟩
    refine ⟨⟨B, hinv.write (x := x) hx ?_⟩, h.zero, h.regions⟩
    intro b hb
    by_cases hba : b = a
    · exact hba ▸ hin
    · exact absurd (Function.update_of_ne hba _ _) hb

/-- A property that every call keeps, from the first world on. -/
theorem runCalls_induction {P : World → Prop} {mem : Uptr → Uptr} (hstart : P (World.start mem))
    (hstep : ∀ w w', w.Ok K → P w → Effect K w w' → P w') (ops : List Op) :
    Survives (runCalls K mem ops) (fun w => w.Ok K ∧ P w) := by
  have hall : ∀ (ops : List Op) w, w.Ok K → P w →
      Survives (ops.foldlM (World.exec K) w) (fun w => w.Ok K ∧ P w) := by
    intro ops
    induction ops with
    | nil => exact fun w hw hP => ⟨hw, hP⟩
    | cons op ops ih =>
      intro w hw hP
      have heffect := World.exec_effect hw op
      rw [List.foldlM_cons]
      cases hexec : w.exec K op with
      | error e =>
        rw [hexec] at heffect
        exact heffect
      | ok w₁ =>
        rw [hexec] at heffect
        exact ih w₁ (Effect.ok hw heffect) (hstep w w₁ hw hP heffect)
  exact hall ops _ (World.start_ok K mem) hstart

theorem runCalls_ok (K : ℕ) (mem : Uptr → Uptr) (ops : List Op) :
    Survives (runCalls K mem ops) (World.Ok K) :=
  (runCalls_induction trivial (fun _ _ _ _ _ => trivial) ops).mono fun _ h => h.1

/-- Whatever the callers do with however many caches: a process dies of an exhausted
region only, and otherwise every carved chunk is in one place, a cache, a free batch or
with the callers, and the free lists in memory are in order. -/
theorem caches_conserve (K : ℕ) (mem : Uptr → Uptr) (ops : List Op) :
    Survives (runCalls K mem ops) (fun w => ∃ B, Inv K w.state B ↑w.held ∧
      (cached K w.state + stored B + ↑w.held).Nodup) := by
  refine (runCalls_ok K mem ops).mono ?_
  intro w hw
  rcases hw.inv with ⟨B, hinv⟩
  exact ⟨B, hinv, hinv.nodup⟩

/-- `Drain` of a cache leaves nothing in it, and takes nothing from the callers. -/
theorem drain_empties (K : ℕ) (mem : Uptr → Uptr) (ops : List Op) (k : Fin K) :
    Survives (runCalls K mem ops) (fun w => Survives (w.exec K (.drain k)) (fun w' =>
      (∀ c < 53, (w'.state.caches k c).count = 0) ∧ w'.held = w.held ∧
        ∃ B, Inv K w'.state B ↑w.held)) := by
  refine (runCalls_ok K mem ops).mono ?_
  intro w hw
  rcases hw.inv with ⟨B, hinv⟩
  rw [World.exec, if_pos k.isLt]
  refine ends.survives (drain_ends hinv k.isLt (hw.zero k)) ?_
  rintro _ s' ⟨hinv', _, _, hz⟩
  exact ⟨hz, rfl, hinv'⟩

end Caver.Sanitizer.LocalCache
