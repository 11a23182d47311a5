import Caver.Sanitizer.LocalCacheRuns

/-!
# Caver.Sanitizer.LocalCacheRefines — the caches are an allocator that chooses

`cacheAllocate` hands out any carved chunk that is not out, and `cacheDeallocate` takes
it back. The caches do nothing that this allocator could not do: free lists, batches
and caches only make its choices.

* `Refines`: the chunks that are out are the ones that the callers hold, and memory
  agrees, but for what is written into free chunks.
* `caches_refine`: the same calls with the same results.
-/

namespace Caver.Sanitizer.LocalCache

open Caver.Core

/-- A run of the allocator that chooses, with the calls it has answered. The contents
of a new chunk are arbitrary. -/
inductive ChoosingRun (h₀ : HeapState) : List Event → HeapState → Prop
  | start : ChoosingRun h₀ [] h₀
  | populated {log : List Event} {h h' : HeapState} (c : ℕ) : ChoosingRun h₀ log h →
      Sanitizer.populate c h = some (⟨⟩, h') → ChoosingRun h₀ log h'
  | allocated {log : List Event} {h h' : HeapState} (i c : ℕ) (p : Uptr) (mem : Uptr → Uptr) :
      ChoosingRun h₀ log h → cacheAllocate i (UInt64.ofNat c) h = some (p, h') →
      (∀ a, ¬ Inside p a → mem a = h'.mem a) →
      ChoosingRun h₀ (.allocated c p :: log) { h' with mem := mem }
  | freed {log : List Event} {h h' : HeapState} (c : ℕ) (p : Uptr) : ChoosingRun h₀ log h →
      cacheDeallocate (UInt64.ofNat c) p h = some (⟨⟩, h') →
      ChoosingRun h₀ (.freed c p :: log) h'
  | wrote {log : List Event} {h : HeapState} (a v : Uptr) : ChoosingRun h₀ log h →
      ChoosingRun h₀ (.wrote a v :: log) { h with mem := Function.update h.mem a v }

/-- The allocator before the first call. -/
def choosingStart (mem : Uptr → Uptr) : HeapState :=
  ⟨mem, fun _ => ⟨0, 0, 0, 0⟩, fun _ => false, [], false⟩

/-- The regions agree, what is out is held, and memory agrees outside of free chunks. -/
structure Refines (s : State) (held : Multiset Uptr) (h : HeapState) : Prop where
  regions : ∀ c ∈ classes, h.regions c = s.regions c
  out : ∀ x, h.out x = true ↔ x ∈ held
  mem : ∀ a, (∀ x ∈ carvedAll s.regions, Inside x a → x ∈ held) → h.mem a = s.mem a

variable {K k c n : ℕ} {s s' : State} {held : Multiset Uptr} {h h' h₀ : HeapState}
  {log : List Event} {R C : Set ℕ} {B : Batches} {p : Uptr}

/-! ## Growth -/

theorem populate_eval {r : RegionInfo} (hc : c ∈ classes)
    (hr : populateFreeList c (h.regions c) = some r) :
    Sanitizer.populate c h =
      some (⟨⟩, { h with regions := Function.update h.regions c r }) := by
  rcases mem_classes.mp hc with ⟨h0, h53⟩
  refine eval_of_wp ?_
  simp only [Sanitizer.populate, wp_bind, wp_check, wp_get, Bool.and_eq_true, decide_eq_true_eq]
  refine ⟨⟨h0, h53⟩, ?_⟩
  rw [hr, wp_modify]
  exact ⟨trivial, rfl⟩

/-- One region is populated as often as it has grown. -/
theorem ChoosingRun.grow (hrun : ChoosingRun h₀ log h) (hc : c ∈ classes) {r : RegionInfo}
    (hgrown : Grows c (h.regions c) r) :
    ChoosingRun h₀ log { h with regions := Function.update h.regions c r } := by
  induction hgrown with
  | refl =>
    rw [Function.update_eq_self]
    exact hrun
  | @tail r₁ r₂ _ hstep ih =>
    obtain ⟨g, hg⟩ : ∃ g : HeapState, g = { h with regions := Function.update h.regions c r₁ } :=
      ⟨_, rfl⟩
    have hself : g.regions c = r₁ := by
      rw [hg]
      exact Function.update_self _ _ _
    have heval := populate_eval (h := g) hc (hself.symm ▸ hstep)
    rw [hg] at heval
    simp only [Function.update_idem] at heval
    exact .populated c ih heval

/-- All regions are. -/
theorem ChoosingRun.growAll (hrun : ChoosingRun h₀ log h)
    (hregions : ∀ c ∈ classes, h.regions c = s.regions c) (hgrown : AllGrown s s') :
    ∃ regions, ChoosingRun h₀ log { h with regions := regions } ∧
      ∀ c ∈ classes, regions c = s'.regions c := by
  -- one class after the other: those below `n` have grown
  have hall : ∀ n, ∃ regions, ChoosingRun h₀ log { h with regions := regions } ∧
      ∀ c ∈ classes, regions c = if c < n then s'.regions c else s.regions c := by
    intro n
    induction n with
    | zero => exact ⟨h.regions, hrun, hregions⟩
    | succ n ih =>
      rcases ih with ⟨regions, hrun', heq⟩
      by_cases hn : n ∈ classes
      · have hold := heq n hn
        rw [if_neg (Nat.lt_irrefl n)] at hold
        have hg := hgrown n hn
        rw [← hold] at hg
        refine ⟨_, hrun'.grow hn hg, fun c hc => ?_⟩
        by_cases hcn : c = n
        · subst hcn
          rw [Function.update_self, if_pos (Nat.lt_succ_self c)]
        · rw [Function.update_of_ne hcn]
          show regions c = _
          have hiff : c < n ↔ c < n + 1 := by omega
          rw [heq c hc]
          simp only [hiff]
      · refine ⟨regions, hrun', fun c hc => ?_⟩
        have hcn : c ≠ n := fun hcn => hn (hcn ▸ hc)
        have hiff : c < n ↔ c < n + 1 := by omega
        rw [heq c hc]
        simp only [hiff]
  rcases hall 53 with ⟨regions, hrun', heq⟩
  refine ⟨regions, hrun', fun c hc => ?_⟩
  rw [heq c hc, if_pos (mem_classes.mp hc).2]

/-! ## Calls -/

/-- A chunk that the caches give out is one that can be chosen. -/
theorem cacheAllocate_eval (hinv : Inv K s' B (p ::ₘ held)) (hc : c ∈ classes)
    (hclass : classOf p = c) (hregions : h.regions c = s'.regions c) (hout : h.out p = false) :
    ∃ i, cacheAllocate i (UInt64.ofNat c) h =
      some (p, { h with out := Function.update h.out p true }) := by
  rcases mem_classes.mp hc with ⟨h0, h53⟩
  have hcarved : p ∈ carvedAll s'.regions := by
    rw [← hinv.places]
    exact Multiset.mem_add.mpr (Or.inr (Multiset.mem_cons_self p held))
  rcases carved_start hinv.roomy hcarved with ⟨i, hf, hx, hi⟩
  rw [hclass] at hf hx hi
  have hpos := chunkSize_pos h0 h53
  have hp : UInt64.ofNat (chunkBeg c i) = p :=
    UInt64.toNat_inj.mp (hf.chunkBeg_toNat.trans hx.symm)
  have hnat : (UInt64.ofNat c).toNat = c := by
    rw [UInt64.toNat_ofNat', Nat.mod_eq_of_lt (by omega)]
  have hne : UInt64.ofNat c ≠ 0 := by
    intro hz
    have hz' := congrArg UInt64.toNat hz
    rw [hnat, UInt64.toNat_zero] at hz'
    omega
  have hlt : UInt64.ofNat c < kNumClasses := by
    rw [UInt64.lt_iff_toNat_lt, hnat]
    exact h53
  refine ⟨i, eval_of_wp ?_⟩
  simp only [cacheAllocate, wp_bind, wp_check, wp_get, wp_modify, wp_pure, hnat, hp, hout,
    Bool.and_eq_true, bne_iff_ne, decide_eq_true_eq, Bool.not_false, and_true]
  refine ⟨⟨hne, hlt⟩, h0, h53, ?_⟩
  rw [hregions]
  exact (Nat.mul_le_mul_right _ hi).trans (Nat.div_mul_le_self _ _)

theorem cacheDeallocate_eval (hc : c ∈ classes) :
    cacheDeallocate (UInt64.ofNat c) p h =
      some (⟨⟩, { h with out := Function.update h.out p false }) := by
  rcases mem_classes.mp hc with ⟨h0, h53⟩
  have hnat : (UInt64.ofNat c).toNat = c := by
    rw [UInt64.toNat_ofNat', Nat.mod_eq_of_lt (by omega)]
  have hne : UInt64.ofNat c ≠ 0 := by
    intro hz
    have hz' := congrArg UInt64.toNat hz
    rw [hnat, UInt64.toNat_zero] at hz'
    omega
  have hlt : UInt64.ofNat c < kNumClasses := by
    rw [UInt64.lt_iff_toNat_lt, hnat]
    exact h53
  refine eval_of_wp ?_
  simp only [cacheDeallocate, wp_bind, wp_check, wp_modify, Bool.and_eq_true, bne_iff_ne,
    decide_eq_true_eq]
  exact ⟨⟨hne, hlt⟩, trivial, trivial⟩

/-- What a step leaves of the agreement of memory. -/
theorem Refines.mem_step (href : Refines s held h) {held' : Multiset Uptr}
    (hstep : Step k R C held' s s') (hle : ∀ x ∈ held', x ∈ held) {a : Uptr}
    (ha : ∀ x ∈ carvedAll s'.regions, Inside x a → x ∈ held') : h.mem a = s'.mem a := by
  rw [hstep.mem a ha]
  exact href.mem a fun x hx hin => hle x (ha x (hstep.carved x hx) hin)

/-- Outside of a chunk it makes no difference whether the program holds it. -/
theorem held_of_not_inside {carved : Multiset Uptr} {xs : List Uptr} {a : Uptr}
    (ha : ∀ x ∈ carved, Inside x a → x ∈ p :: xs) (hout : ¬ Inside p a) :
    ∀ x ∈ carved, Inside x a → x ∈ xs := by
  intro x hx hin
  rcases List.mem_cons.mp (ha x hx hin) with heq | hmem
  · exact absurd (heq ▸ hin) hout
  · exact hmem

/-- Every effect of a call is one of the allocator that chooses. -/
theorem Effect.refine {w w' : World} (he : Effect K w w') (hok : w.Ok K)
    (hrun : ChoosingRun h₀ w.log h) (href : Refines w.state ↑w.held h) :
    ∃ h', ChoosingRun h₀ w'.log h' ∧ Refines w'.state ↑w'.held h' := by
  cases he with
  | skipped => exact ⟨h, hrun, href⟩
  | allocated k c p s' hc hclass hinv hstep hgrown =>
    rcases hinv with ⟨B, hinv⟩
    rcases hrun.growAll href.regions hgrown with ⟨regions, hrun', hregions⟩
    have hfree : p ∉ (↑w.held : Multiset Uptr) := by
      have hnodup := (Multiset.nodup_add.mp hinv.nodup).2.1
      exact (Multiset.nodup_cons.mp hnodup).1
    have hout : h.out p = false := by
      rw [Bool.eq_false_iff]
      exact fun ht => hfree ((href.out p).mp ht)
    rcases cacheAllocate_eval (h := { h with regions := regions }) hinv hc hclass (hregions c hc)
      hout with ⟨i, heval⟩
    -- the new chunk has whatever the allocator has left in it
    classical
    refine ⟨_, .allocated i c p (fun a => if Inside p a then s'.mem a else h.mem a) hrun' heval ?_,
      hregions, ?_, ?_⟩
    · exact fun a ha => if_neg ha
    · intro x
      show Function.update h.out p true x = true ↔ x ∈ (↑(p :: w.held) : Multiset Uptr)
      by_cases hxp : x = p
      · simp [hxp]
      · rw [Function.update_of_ne hxp, href.out x]
        simp [hxp]
    · intro a ha
      replace ha : ∀ x ∈ carvedAll s'.regions, Inside x a → x ∈ p :: w.held := ha
      show (if Inside p a then s'.mem a else h.mem a) = s'.mem a
      split
      · rfl
      · next hout =>
        exact href.mem_step hstep (fun _ hx => hx) (held_of_not_inside ha hout)
  | freed k p s' hp hc hinv hstep hgrown =>
    rcases hinv with ⟨B, hinv⟩
    rcases hrun.growAll href.regions hgrown with ⟨regions, hrun', hregions⟩
    have hnodup : w.held.Nodup := by
      rcases hok.inv with ⟨B₀, hinv₀⟩
      exact (Multiset.nodup_add.mp hinv₀.nodup).2.1
    refine ⟨_, .freed (classOf p) p hrun' (cacheDeallocate_eval hc), hregions, ?_, ?_⟩
    · intro x
      show Function.update h.out p false x = true ↔ x ∈ (↑(w.held.erase p) : Multiset Uptr)
      rw [Multiset.mem_coe, hnodup.mem_erase_iff]
      by_cases hxp : x = p
      · simp [hxp]
      · rw [Function.update_of_ne hxp, href.out x]
        simp [hxp]
    · intro a ha
      exact href.mem_step hstep (fun x hx => List.mem_of_mem_erase hx) ha
  | drained k s' hinv hstep hgrown =>
    rcases hrun.growAll href.regions hgrown with ⟨regions, hrun', hregions⟩
    exact ⟨_, hrun', hregions, href.out, fun a ha => href.mem_step hstep (fun _ hx => hx) ha⟩
  | wrote a v x hx hin =>
    refine ⟨_, .wrote a v hrun, href.regions, href.out, fun b hb => ?_⟩
    show Function.update h.mem a v b = Function.update w.state.mem a v b
    by_cases hba : b = a
    · rw [hba, Function.update_self, Function.update_self]
    · rw [Function.update_of_ne hba, Function.update_of_ne hba]
      exact href.mem b hb

theorem refines_start (mem : Uptr → Uptr) :
    Refines (World.start mem).state ↑(World.start mem).held (choosingStart mem) where
  regions _ _ := rfl
  out x := by simp [World.start, choosingStart]
  mem _ _ := rfl

/-- Any calls to any number of caches are answered as the allocator that chooses could
answer them, as long as the process does not die of an exhausted region. -/
theorem caches_refine (K : ℕ) (mem : Uptr → Uptr) (ops : List Op) :
    Survives (runCalls K mem ops) (fun w => ∃ h, ChoosingRun (choosingStart mem) w.log h ∧
      Refines w.state ↑w.held h) := by
  refine (runCalls_induction (P := fun w => ∃ h, ChoosingRun (choosingStart mem) w.log h ∧
    Refines w.state ↑w.held h) ⟨_, .start, refines_start mem⟩ ?_ ops).mono fun _ hw => hw.2
  rintro w w' hok ⟨h, hrun, href⟩ he
  exact he.refine hok hrun href

end Caver.Sanitizer.LocalCache
