import Caver.Runtime.HandleCast
import Caver.Runtime.HeapTracking

/-!
# Caver.Runtime.CastTransparency — when the verdict cache is transparent

The cache knows the type table and the hash of a cast, the slow path also looks
at where the pointer is in the object.

* `runCasts`: the verdicts of a sequence of casts, each with the objects
  registered at its time. `uncachedVerdict`: what a cast gives without a cache.
* `cache_transparent_iff`: over a set of casts the cache changes no verdict
  exactly if no accepted cast shares table and hash with one that is reported.
-/

namespace Caver.Runtime

open Caver.Core Caver.Sanitizer

/-! ## Sequences of casts -/

/-- A call of the hook, with the objects that are registered at its time. -/
structure Cast where
  objects : Objects
  data : CastHookArgs
  beforePtr : Uptr
  afterPtr : Uptr

variable {cfg : CastConfig} {c c' : Cast} {l l' : Located} {cache : Cache}

def Cast.run (cfg : CastConfig) (c : Cast) : Prog Cache Verdict :=
  handleCast cfg c.objects c.data c.beforePtr c.afterPtr

/-- The verdicts of a sequence of casts. It fails where one of them aborts. -/
def runCasts (cfg : CastConfig) : List Cast → Cache → Option (List Verdict)
  | [], _ => some []
  | c :: cs, cache => do
    let (v, cache') ← c.run cfg cache
    let vs ← runCasts cfg cs cache'
    return v :: vs

/-- The same configuration with `flags()->no_cache` set. -/
def withoutCache (cfg : CastConfig) : CastConfig :=
  { cfg with flags := { cfg.flags with noCache := true } }

/-- The object that a cast is judged against: `some none` where the hook
returns early. -/
def Cast.located (cfg : CastConfig) (c : Cast) : Option (Option Located) :=
  if cfg.flags.noCheck || cfg.flags.noHandleCast then some none
  else if c.beforePtr = 0 || c.afterPtr = 0 then some none
  else locate cfg.flags c.objects c.beforePtr

/-- The slow path accepts the cast. -/
def Accepts (cfg : CastConfig) (c : Cast) (l : Located) : Prop :=
  slowPath cfg l c.data c.beforePtr c.afterPtr = some true

/-- The slow path accepts the cast, or its report is switched off. -/
def Benign (cfg : CastConfig) (c : Cast) (l : Located) : Prop :=
  Accepts cfg c l ∨
    slowPath cfg l c.data c.beforePtr c.afterPtr = some false ∧
      rejectCast cfg l c.data c.beforePtr = some ⟨unknownCastRet, none⟩

/-- The verdict of the slow path. -/
def verdictOf (cfg : CastConfig) (c : Cast) (l : Located) : Option Verdict :=
  (slowPath cfg l c.data c.beforePtr c.afterPtr).bind fun matched =>
    if matched then some ⟨goodCastRet, none⟩ else rejectCast cfg l c.data c.beforePtr

/-- What a cast gives without a cache. -/
def uncachedVerdict (cfg : CastConfig) (c : Cast) : Option Verdict :=
  (c.located cfg).bind fun
    | none => some ⟨unknownCastRet, none⟩
    | some l => verdictOf cfg c l

/-! ## One cast -/

/-- The hook returns early or judges the object. -/
theorem Cast.run_eq (cfg : CastConfig) (c : Cast) (cache : Cache) :
    c.run cfg cache = (c.located cfg).bind fun
      | none => some (⟨unknownCastRet, none⟩, cache)
      | some l => judgeCast cfg l c.data c.beforePtr c.afterPtr cache := by
  unfold Cast.run Cast.located handleCast
  split
  · rfl
  · split
    · rfl
    · show (liftCast (locate cfg.flags c.objects c.beforePtr) >>= _ : Prog Cache Verdict) cache = _
      cases locate cfg.flags c.objects c.beforePtr with
      | none => rfl
      | some o => cases o <;> rfl

theorem Cast.run_located (hloc : c.located cfg = some (some l)) (cache : Cache) :
    c.run cfg cache = judgeCast cfg l c.data c.beforePtr c.afterPtr cache := by
  rw [Cast.run_eq, hloc]
  rfl

/-- The key of a cast. -/
def Cast.key (c : Cast) (l : Located) : Uptr := computeCacheKey l.containVec c.data.hash

/-- A hit is a good cast. -/
theorem judgeCast_hit (hon : cfg.flags.noCache = false) {bucket : ℕ} {cache' : Cache}
    (hhit : isInCache (c.key l) cache = some ((true, bucket), cache')) :
    judgeCast cfg l c.data c.beforePtr c.afterPtr cache =
      some (⟨goodCastRet, none⟩, cache') := by
  refine eval_of_wp ?_
  unfold Cast.key at hhit
  simp only [judgeCast, hon, Bool.false_eq_true, if_false, wp_bind, wp_eval hhit, if_true, wp_pure,
    and_self]

/-- A miss takes the slow path, and stores the key if that accepts. -/
theorem judgeCast_miss (hon : cfg.flags.noCache = false) {bucket : ℕ} {cache' : Cache}
    (hmiss : isInCache (c.key l) cache = some ((false, bucket), cache')) :
    judgeCast cfg l c.data c.beforePtr c.afterPtr cache =
      (slowPath cfg l c.data c.beforePtr c.afterPtr).bind fun matched =>
        if matched then
          (updateCache (c.key l) bucket cache').map fun r => (⟨goodCastRet, none⟩, r.2)
        else (rejectCast cfg l c.data c.beforePtr).map fun v => (v, cache') := by
  unfold Cast.key at hmiss ⊢
  simp only [judgeCast, hon]
  show (isInCache _ cache).bind _ = _
  rw [hmiss]
  cases slowPath cfg l c.data c.beforePtr c.afterPtr with
  | none => rfl
  | some matched => cases matched <;> rfl

/-- Without the cache, the verdict is that of the slow path. -/
theorem run_withoutCache (cfg : CastConfig) (c : Cast) (cache : Cache) :
    c.run (withoutCache cfg) cache = (uncachedVerdict cfg c).map fun v => (v, cache) := by
  rw [Cast.run_eq]
  unfold uncachedVerdict
  show (c.located cfg).bind _ = _
  cases c.located cfg with
  | none => rfl
  | some o =>
    cases o with
    | none => rfl
    | some l =>
      show judgeCast (withoutCache cfg) l c.data c.beforePtr c.afterPtr cache =
        (verdictOf cfg c l).map fun v => (v, cache)
      unfold verdictOf judgeCast
      show ((slowPath cfg l c.data c.beforePtr c.afterPtr).map fun a => (a, cache)).bind _ = _
      cases slowPath cfg l c.data c.beforePtr c.afterPtr with
      | none => rfl
      | some matched => cases matched <;> rfl

/-! ## Transparency -/

/-- No two different pairs of table and hash have one key. -/
def KeysInjective (cfg : CastConfig) (S : Set Cast) : Prop :=
  ∀ c ∈ S, ∀ c' ∈ S, ∀ l l', c.located cfg = some (some l) → c'.located cfg = some (some l') →
    c.key l = c'.key l' → l.containVec = l'.containVec ∧ c.data.hash = c'.data.hash

/-- The cast shares table and hash with an accepted one of `S`. -/
def SharesAccepted (cfg : CastConfig) (S : Set Cast) (c' : Cast) (l' : Located) : Prop :=
  ∃ c ∈ S, ∃ l, c.located cfg = some (some l) ∧ l.containVec = l'.containVec ∧
    c.data.hash = c'.data.hash ∧ Accepts cfg c l

/-- Casts that the cache can accept are benign by themselves. -/
def HitsBenign (cfg : CastConfig) (S : Set Cast) : Prop :=
  ∀ c ∈ S, ∀ l, c.located cfg = some (some l) →
    (c.key l = 0 ∨ SharesAccepted cfg S c l) → Benign cfg c l

/-- The keys of the accepted casts. -/
def acceptedKeys (cfg : CastConfig) (S : Set Cast) : Set Uptr :=
  {k | ∃ c ∈ S, ∃ l, c.located cfg = some (some l) ∧ Accepts cfg c l ∧ k = c.key l}

variable {S : Set Cast}

/-- A benign cast is a good one without the cache, and conversely. -/
theorem benign_iff (cfg : CastConfig) (c : Cast) (l : Located) :
    Benign cfg c l ↔ verdictOf cfg c l = some ⟨goodCastRet, none⟩ := by
  unfold Benign Accepts verdictOf
  cases slowPath cfg l c.data c.beforePtr c.afterPtr with
  | none => simp
  | some matched => cases matched <;> simp [goodCastRet, unknownCastRet]

/-- The run of a program gives the result `r` and leaves a state in `P`. -/
def Gives {α : Type} (P : Cache → Prop) (run : Option (α × Cache)) (r : Option α) : Prop :=
  run.map (·.1) = r ∧ ∀ v cache', run = some (v, cache') → P cache'

theorem gives_some {α : Type} {P : Cache → Prop} {v : α} (h : P cache) :
    Gives P (some (v, cache)) (some v) := by
  refine ⟨rfl, ?_⟩
  intro v' cache' heq
  cases heq
  exact h

theorem gives_map {α : Type} {P : Cache → Prop} (r : Option α) (h : P cache) :
    Gives P (r.map fun v => (v, cache)) r := by
  cases r with
  | none => exact ⟨rfl, fun _ _ heq => nomatch heq⟩
  | some v => exact gives_some h

/-- With a cache of accepted keys, an object is judged as it is without. -/
theorem judge_transparent (hon : cfg.flags.noCache = false) (hkeys : KeysInjective cfg S)
    (hbenign : HitsBenign cfg S) (hc : c ∈ S) (hloc : c.located cfg = some (some l))
    (hcache : cache.Within (acceptedKeys cfg S)) :
    Gives (Cache.Within (acceptedKeys cfg S))
      (judgeCast cfg l c.data c.beforePtr c.afterPtr cache) (verdictOf cfg c l) := by
  rcases isInCache_spec hcache (c.key l) with ⟨⟨hit, bucket⟩, cache₁, hlookup, hwithin, hhit⟩
  cases hit with
  | true =>
    -- the key is that of an accepted cast, so this one is benign
    have hgood : Benign cfg c l := by
      refine hbenign c hc l hloc ?_
      rcases hhit rfl with hz | ⟨d, hd, m, hm, haccept, hkey⟩
      · exact Or.inl hz
      · rcases hkeys c hc d hd l m hloc hm hkey with ⟨hvec, hhash⟩
        exact Or.inr ⟨d, hd, m, hm, hvec.symm, hhash.symm, haccept⟩
    rw [judgeCast_hit hon hlookup, (benign_iff cfg c l).mp hgood]
    exact gives_some hwithin
  | false =>
    rw [judgeCast_miss hon hlookup, verdictOf]
    cases hslow : slowPath cfg l c.data c.beforePtr c.afterPtr with
    | none => exact ⟨rfl, fun _ _ heq => nomatch heq⟩
    | some matched =>
      cases matched with
      | true =>
        have hkey : c.key l ∈ acceptedKeys cfg S := ⟨c, hc, l, hloc, hslow, rfl⟩
        rcases updateCache_spec hwithin hkey bucket with ⟨u, cache₂, hstore, hwithin₂⟩
        rw [Option.bind_some, if_pos rfl, hstore]
        exact gives_some hwithin₂
      | false => exact gives_map _ hwithin

/-- The same for a cast of `S`. -/
theorem run_transparent (hon : cfg.flags.noCache = false) (hkeys : KeysInjective cfg S)
    (hbenign : HitsBenign cfg S) (hc : c ∈ S) (hcache : cache.Within (acceptedKeys cfg S)) :
    Gives (Cache.Within (acceptedKeys cfg S)) (c.run cfg cache) (uncachedVerdict cfg c) := by
  rw [Cast.run_eq, uncachedVerdict]
  cases hloc : c.located cfg with
  | none => exact ⟨rfl, fun _ _ heq => nomatch heq⟩
  | some o =>
    cases o with
    | none => exact gives_some hcache
    | some l => exact judge_transparent hon hkeys hbenign hc hloc hcache

/-- Without the cache, the verdicts are those of the single casts. -/
theorem runCasts_withoutCache (cfg : CastConfig) (casts : List Cast) (cache : Cache) :
    runCasts (withoutCache cfg) casts cache = casts.mapM (uncachedVerdict cfg) := by
  induction casts generalizing cache with
  | nil => rfl
  | cons c cs ih =>
    rw [runCasts, run_withoutCache, List.mapM_cons]
    cases uncachedVerdict cfg c with
    | none => rfl
    | some v =>
      show (runCasts (withoutCache cfg) cs cache).bind _ = _
      rw [ih]
      rfl

/-- Whole runs, from a cache of accepted keys. -/
theorem runCasts_transparent (hon : cfg.flags.noCache = false) (hkeys : KeysInjective cfg S)
    (hbenign : HitsBenign cfg S) (casts : List Cast) (hcasts : ∀ c ∈ casts, c ∈ S)
    (hcache : cache.Within (acceptedKeys cfg S)) :
    runCasts cfg casts cache = casts.mapM (uncachedVerdict cfg) := by
  induction casts generalizing cache with
  | nil => rfl
  | cons c cs ih =>
    rcases run_transparent hon hkeys hbenign (hcasts c List.mem_cons_self) hcache with
        ⟨hverdict, hwithin⟩
    have hrest : ∀ d ∈ cs, d ∈ S := fun d hd => hcasts d (List.mem_cons_of_mem _ hd)
    rw [runCasts, List.mapM_cons, ← hverdict]
    cases hrun : c.run cfg cache with
    | none => rfl
    | some r =>
      rcases r with ⟨v, cache'⟩
      show (runCasts cfg cs cache').bind _ = _
      rw [ih hrest (hwithin v cache' hrun)]
      rfl

/-- A located cast that hits is a good one. -/
theorem run_hit (hon : cfg.flags.noCache = false) (hloc : c.located cfg = some (some l))
    {bucket : ℕ} {cache' : Cache}
    (hhit : isInCache (c.key l) cache = some ((true, bucket), cache')) :
    c.run cfg cache = some (⟨goodCastRet, none⟩, cache') :=
  (Cast.run_located hloc cache).trans (judgeCast_hit hon hhit)

/-- An accepted cast leaves its key in the cache. -/
theorem run_accepted (hon : cfg.flags.noCache = false) (hloc : c.located cfg = some (some l))
    (haccept : Accepts cfg c l) (hkey : c.key l ≠ 0) :
    ∃ cache', c.run cfg Cache.empty = some (⟨goodCastRet, none⟩, cache') ∧
      ∃ bucket cache'', isInCache (c.key l) cache' = some ((true, bucket), cache'') := by
  rcases isInCache_empty (c.key l) with ⟨⟨hit, bucket⟩, cache₁, hlookup, hhit, rfl⟩
  cases hit with
  | true => exact absurd (hhit.mp rfl) hkey
  | false =>
    rcases isInCache_updateCache (c := Cache.empty) (c.key l) bucket with
        ⟨⟨hit', bucket'⟩, cache₂, hboth, hhit'⟩
    obtain rfl : hit' = true := hhit'
    refine ⟨_, ?_, bucket', cache₂, hboth⟩
    unfold Accepts at haccept
    rw [Cast.run_located hloc, judgeCast_miss hon hlookup, haccept]
    rfl

/-- The cache is transparent over a set of casts exactly if it can only accept
benign ones. -/
theorem cache_transparent_iff (hon : cfg.flags.noCache = false) (hkeys : KeysInjective cfg S) :
    (∀ casts : List Cast, (∀ c ∈ casts, c ∈ S) →
      runCasts cfg casts Cache.empty = runCasts (withoutCache cfg) casts Cache.empty) ↔
    HitsBenign cfg S := by
  constructor
  · intro htransparent c' hc' l' hloc' hshares
    have hverdict : uncachedVerdict cfg c' = verdictOf cfg c' l' := by
      rw [uncachedVerdict, hloc']
      rfl
    rw [benign_iff, ← hverdict]
    by_cases hzero : c'.key l' = 0
    · -- the key zero is in the cache from the start
      rcases isInCache_empty (c'.key l') with ⟨⟨hit, bucket⟩, cache₁, hlookup, hhit, -⟩
      obtain rfl : hit = true := hhit.mpr hzero
      have hone := htransparent [c'] (by simpa using hc')
      rw [runCasts_withoutCache, runCasts, run_hit hon hloc' hlookup] at hone
      have hlist : [c'].mapM (uncachedVerdict cfg) = some [⟨goodCastRet, none⟩] := hone.symm
      simpa [Option.bind_eq_some_iff] using hlist
    · -- run the accepted cast before this one
      rcases hshares.resolve_left hzero with ⟨c, hc, l, hloc, hvec, hhash, haccept⟩
      have hkey : c.key l = c'.key l' := by
        unfold Cast.key
        rw [hvec, hhash]
      rcases run_accepted hon hloc haccept (hkey ▸ hzero) with ⟨cache₁, hrun, bucket, cache₂, hhit⟩
      rw [hkey] at hhit
      have hcached : runCasts cfg [c, c'] Cache.empty =
          some [⟨goodCastRet, none⟩, ⟨goodCastRet, none⟩] := by
        rw [runCasts, hrun]
        show (runCasts cfg [c'] cache₁).bind _ = _
        rw [runCasts, run_hit hon hloc' hhit]
        rfl
      have htwo := htransparent [c, c'] (by simp [hc, hc'])
      rw [runCasts_withoutCache, hcached] at htwo
      have hlist : [c, c'].mapM (uncachedVerdict cfg) =
          some [⟨goodCastRet, none⟩, ⟨goodCastRet, none⟩] := htwo.symm
      simp only [List.mapM_cons, List.mapM_nil, Option.bind_eq_bind, Option.bind_eq_some_iff,
        Option.pure_def, Option.some.injEq, List.cons.injEq] at hlist
      rcases hlist with ⟨-, -, -, ⟨v, hv, -, rfl, rfl⟩, -, rfl, -⟩
      exact hv
  · intro hbenign casts hcasts
    rw [runCasts_withoutCache]
    exact runCasts_transparent hon hkeys hbenign casts hcasts Cache.within_empty

/-! ## A container of two objects -/

/-- `struct T { int x; }; struct U : T { int y; }; struct Container { U u; T t; };`
with the tables of `Container`, `U` and `T` at 0x500000, 0x500100 and 0x500200. -/
def containerTables : TypeTables where
  table vec :=
    if vec = 0x500000 then
      some ⟨[⟨0, 8, 0x500100⟩, ⟨8, 4, 0x500200⟩], [⟨0x3000, 0⟩], "Container"⟩
    else if vec = 0x500100 then some ⟨[], [⟨0x2000, 0⟩, ⟨0x1000, 0⟩], "U"⟩
    else if vec = 0x500200 then some ⟨[], [⟨0x1000, 0⟩], "T"⟩
    else none
  depth vec := if vec = 0x500000 then 1 else 0
  nested := by
    intro vec t ht e he _
    split_ifs at ht with h0 h1 h2
    · cases ht
      simp only [List.mem_cons, List.not_mem_nil, or_false] at he
      rcases he with rfl | rfl <;> simp [h0]
    · cases ht
      exact absurd he List.not_mem_nil
    · cases ht
      exact absurd he List.not_mem_nil

def containerConfig : CastConfig := ⟨{}, containerTables, fun _ _ => false⟩

/-- `static_cast<U *>` of a pointer into a heap with one `Container`. -/
def castToU (p : Uptr) : Cast where
  objects := ⟨none, smallHeap ⟨12, 0x500000, 0⟩, rbtreeCreate .empty⟩
  data := ⟨"contain.cc", 0x500100, 0x2000⟩
  beforePtr := p
  afterPtr := p

theorem containerHeap_reachable :
    Reachable {} (smallHeap ⟨12, 0x500000, 0⟩) (smallLedger ⟨12, 0x500000, 0⟩) :=
  smallHeap_handleNew (smallHeap_malloc (by decide) (by decide) (by decide)) 0x500000 0

/-- Both fields are in the same object. -/
theorem castToU_located {p : Uptr} (hp : p = 0x602000000000 ∨ p = 0x602000000008) :
    (castToU p).located containerConfig =
      some (some ⟨0x500000, 0, 12, 0x602000000000⟩) := by
  rcases hp with rfl | rfl <;> rfl

theorem castToU_keysInjective :
    KeysInjective containerConfig {castToU 0x602000000000, castToU 0x602000000008} := by
  have hlocated : ∀ c ∈ ({castToU 0x602000000000, castToU 0x602000000008} : Set Cast), ∀ l,
      c.located containerConfig = some (some l) →
        l.containVec = 0x500000 ∧ c.data.hash = 0x2000 := by
    rintro c (rfl | rfl) l hl
    · rw [castToU_located (Or.inl rfl), Option.some.injEq, Option.some.injEq] at hl
      exact ⟨hl ▸ rfl, rfl⟩
    · rw [castToU_located (Or.inr rfl), Option.some.injEq, Option.some.injEq] at hl
      exact ⟨hl ▸ rfl, rfl⟩
  intro c hc c' hc' l l' hl hl' _
  rcases hlocated c hc l hl with ⟨hvec, hhash⟩
  rcases hlocated c' hc' l' hl' with ⟨hvec', hhash'⟩
  exact ⟨hvec.trans hvec'.symm, hhash.trans hhash'.symm⟩

/-- Casting the first field alone. -/
theorem cache_transparent_container : HitsBenign containerConfig {castToU 0x602000000000} ∧
    ∀ casts : List Cast, (∀ c ∈ casts, c ∈ ({castToU 0x602000000000} : Set Cast)) →
      runCasts containerConfig casts Cache.empty =
        runCasts (withoutCache containerConfig) casts Cache.empty := by
  have hkeys : KeysInjective containerConfig {castToU 0x602000000000} := by
    intro c hc c' hc'
    exact castToU_keysInjective c (Or.inl hc) c' (Or.inl hc')
  have hbenign : HitsBenign containerConfig {castToU 0x602000000000} := by
    rintro c rfl l hl -
    rw [castToU_located (Or.inl rfl), Option.some.injEq, Option.some.injEq] at hl
    subst hl
    exact Or.inl rfl
  exact ⟨hbenign, (cache_transparent_iff rfl hkeys).mpr hbenign⟩

/-- The field `u` is cast to `U`, then the field `t`: the second cast is
reported without the cache, and is good with it. -/
theorem cache_hides_bad_cast :
    Reachable {} (smallHeap ⟨12, 0x500000, 0⟩) (smallLedger ⟨12, 0x500000, 0⟩) ∧
    KeysInjective containerConfig {castToU 0x602000000000, castToU 0x602000000008} ∧
    runCasts (withoutCache containerConfig) [castToU 0x602000000000, castToU 0x602000000008]
      Cache.empty = some [⟨goodCastRet, none⟩,
        ⟨unknownCastRet, some ⟨"contain.cc", "U", "Container", 0x602000000008⟩⟩] ∧
    runCasts containerConfig [castToU 0x602000000000, castToU 0x602000000008] Cache.empty =
      some [⟨goodCastRet, none⟩, ⟨goodCastRet, none⟩] :=
  ⟨containerHeap_reachable, castToU_keysInjective, rfl, rfl⟩

end Caver.Runtime
