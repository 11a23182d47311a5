import Caver.Sanitizer.TemplateSearch
import Mathlib.Data.List.TakeWhile

/-!
# Caver.Sanitizer.FlagParse — flags from a string

`GetFlagValue` searches for the name of a flag and skips places that are the end of another
name. The place right behind a skipped one is not tested so.

* `flagLoop_eq`: the value is behind the first place that is not the end of another name,
  for names that cannot overlap themselves by all but one character.
* `Setting.sets`: a setting is taken for a flag if its key is the name of the flag, or ends in
  it behind a character that names do not have.
* `getFlagValue_rendered`: from settings written one behind the other, the first such one is
  read.
-/

namespace Caver.Sanitizer

open Caver.Core

/-! ## Flags -/

/-- A character of a name, where `GetFlagValue` looks before a name. -/
def isFlagChar (c : Char) : Bool := ('a' ≤ c && c ≤ 'z') || c == '_'

/-- The loop of `GetFlagValue`: what follows the name. -/
def flagLoop (name : List Char) : ℕ → List Char → Option (List Char)
  | 0, _ => none
  | fuel + 1, env => do
    let pos ← internalStrstr env name
    let nameEnd := env.drop (pos + name.length)
    let before := env.getD (pos - 1) terminator
    if pos ≠ 0 ∧ isFlagChar before = true ∨ nameEnd.head? ≠ some '=' then
      flagLoop name fuel (env.drop (pos + 1))
    else return nameEnd

/-- The value behind the name. It may be quoted. -/
def flagText : List Char → List Char
  | '=' :: '"' :: s => s.takeWhile (· ≠ '"')
  | '=' :: '\'' :: s => s.takeWhile (· ≠ '\'')
  | '=' :: s => s.takeWhile fun c => c ≠ ' ' ∧ c ≠ ':'
  | _ => []

/-- `GetFlagValue`. -/
def getFlagValue (env : Option (List Char)) (name : List Char) : Option (List Char) :=
  env.bind fun env => (flagLoop name (env.length + 1) env).map flagText

/-- `StartsWith`. -/
def startsWith (flag value : List Char) : Bool := value.isPrefixOf flag

/-- What a value makes of a flag. -/
def flagOf (flag : Bool) (value : List Char) : Bool :=
  let flag :=
    if startsWith value "0".toList || startsWith value "no".toList ||
      startsWith value "false".toList then false else flag
  if startsWith value "1".toList || startsWith value "yes".toList ||
    startsWith value "true".toList then true else flag

/-- `ParseFlag`, for a `bool`. -/
def parseFlag (env : Option (List Char)) (flag : Bool) (name : List Char) : Bool :=
  ((getFlagValue env name).map (flagOf flag)).getD flag

/-- `ParseFlag`, for a string. -/
def parseFlagString (env : Option (List Char)) (flag name : List Char) : List Char :=
  (getFlagValue env name).getD flag

/-! ## The first place -/

/-- The name, with `=` behind it and no character of a name before it. -/
def flagScan (name : List Char) : Option Char → List Char → Option (List Char)
  | _, [] => none
  | prev, c :: env =>
    if (name ++ ['=']).isPrefixOf (c :: env) ∧ prev.any isFlagChar = false then
      some ((c :: env).drop name.length)
    else flagScan name (some c) env

section Scan

variable {name env : List Char} {prev : Option Char}

theorem flagScan_found (h : name ++ ['='] <+: env) (hprev : prev.any isFlagChar = false) :
    flagScan name prev env = some (env.drop name.length) := by
  cases env with
  | nil => exact absurd (List.prefix_nil.1 h) (by simp)
  | cons c env => rw [flagScan, if_pos ⟨List.isPrefixOf_iff_prefix.2 h, hprev⟩]

theorem flagScan_skip {c : Char} (h : name ++ ['='] <+: c :: env → prev.any isFlagChar = true) :
    flagScan name prev (c :: env) = flagScan name (some c) env := by
  rw [flagScan, if_neg]
  rintro ⟨hbegins, hprev⟩
  rw [h (List.isPrefixOf_iff_prefix.1 hbegins)] at hprev
  cases hprev

/-- Where the name does not occur. -/
theorem flagScan_append (a s : List Char)
    (h : ∀ i < a.length, ¬ name <+: (a ++ s).drop i) :
    flagScan name prev (a ++ s) = flagScan name (a.getLast?.or prev) s := by
  induction a generalizing prev with
  | nil => rfl
  | cons c a ih =>
    have hfirst : ¬ name <+: c :: (a ++ s) := h 0 (Nat.succ_pos _)
    have hrest : ∀ i < a.length, ¬ name <+: (a ++ s).drop i := fun i hi =>
      h (i + 1) (Nat.succ_lt_succ hi)
    have hlast : (c :: a).getLast?.or prev = a.getLast?.or (some c) := by
      rw [List.getLast?_cons]
      cases a.getLast? <;> rfl
    rw [List.cons_append, flagScan_skip, ih hrest, hlast]
    intro hbegins
    exact absurd ((List.prefix_append name ['=']).trans hbegins) hfirst

theorem flagScan_accept {rest : List Char} (hprev : prev.any isFlagChar = false)
    (hrest : rest.head? = some '=') : flagScan name prev (name ++ rest) = some rest := by
  cases rest with
  | nil => cases hrest
  | cons x rest =>
    rw [List.head?_cons, Option.some_inj] at hrest
    have hbegins : name ++ ['='] <+: name ++ x :: rest := by
      rw [hrest]
      exact ⟨rest, by simp⟩
    rw [flagScan_found hbegins hprev, List.drop_left]

theorem flagScan_reject {c : Char} {rest : List Char}
    (h : prev.any isFlagChar = true ∨ rest.head? ≠ some '=') :
    flagScan (c :: name) prev (c :: name ++ rest) =
      flagScan (c :: name) (some c) (name ++ rest) := by
  apply flagScan_skip
  rintro ⟨t, ht⟩
  have hrest : '=' :: t = rest := by simpa using ht
  rw [← hrest] at h
  exact h.resolve_right (by simp)

/-- Two places of a name, one right behind the other. -/
theorem not_again {c : Char} (hname : ¬ name <+: c :: name) (rest : List Char) :
    ¬ c :: name <+: name ++ rest := by
  intro hagain
  exact hname (List.prefix_of_prefix_length_le (List.prefix_append name rest) hagain
    (Nat.le_succ _))

/-- The character before a place, which is not looked at for the first one. -/
theorem before_iff {a s : List Char} (h : a = [] → prev = none) :
    (a.length ≠ 0 ∧ isFlagChar ((a ++ s).getD (a.length - 1) terminator) = true) ↔
      (a.getLast?.or prev).any isFlagChar = true := by
  rcases List.eq_nil_or_concat a with rfl | ⟨b, x, rfl⟩
  · rw [h rfl]
    simp
  · have hget : (b ++ [x] ++ s).getD ((b ++ [x]).length - 1) terminator = x := by
      simp [List.getD_eq_getElem?_getD]
    rw [List.concat_eq_append, hget]
    simp

/-- The loop finds the first place. A place right behind one that was skipped is not tested,
but there the name cannot be. -/
theorem flagLoop_eq (hname : ¬ name.tail <+: name) {fuel : ℕ} (hfuel : env.length < fuel)
    (hprev : prev = none ∨ ¬ name <+: env) :
    flagLoop name fuel env = flagScan name prev env := by
  induction fuel generalizing env prev with
  | zero => exact absurd hfuel (Nat.not_lt_zero _)
  | succ fuel ih =>
    rw [flagLoop, internalStrstr_eq]
    cases hocc : firstOccurrence name env with
    -- no occurrence: the scan gets to the end as well
    | none =>
      have hnone : ∀ i < env.length, ¬ name <+: (env ++ []).drop i := by
        rintro i - ⟨t, ht⟩
        rw [List.append_nil] at ht
        apply firstOccurrence_none hocc (env.take i) t
        rw [ht, List.take_append_drop]
      have hscan : flagScan name prev (env ++ []) = flagScan name (env.getLast?.or prev) [] :=
        flagScan_append env [] hnone
      rw [List.append_nil] at hscan
      rw [hscan]
      rfl
    | some pos =>
      rcases firstOccurrence_some hocc with ⟨⟨a, rfl, henv⟩, hfirst⟩
      obtain ⟨rest, hrest⟩ : ∃ rest, env.drop (a.length + name.length) = rest := ⟨_, rfl⟩
      rw [hrest] at henv
      -- both get to the first occurrence, which is behind `a`
      have hscan : flagScan name prev env = flagScan name (a.getLast?.or prev) (name ++ rest) := by
        rw [henv]
        apply flagScan_append
        rintro i hi ⟨t, ht⟩
        have hsplit : env = (a ++ (name ++ rest)).take i ++ (name ++ t) := by
          rw [ht, List.take_append_drop, henv]
        have hle := hfirst _ t hsplit
        rw [List.length_take] at hle
        omega
      have hbefore : (a.length ≠ 0 ∧ isFlagChar (env.getD (a.length - 1) terminator) = true) ↔
          (a.getLast?.or prev).any isFlagChar = true := by
        rw [henv]
        exact before_iff fun hprev' => hprev.resolve_right fun h => h (by
          rw [henv, hprev']
          exact List.prefix_append name rest)
      rw [hscan]
      change (if _ ∨ (env.drop (a.length + name.length)).head? ≠ some '=' then
        flagLoop name fuel (env.drop (a.length + 1)) else some (env.drop _)) = _
      rw [hrest]
      simp only [hbefore]
      by_cases hplace : (a.getLast?.or prev).any isFlagChar = true ∨ rest.head? ≠ some '='
      · rw [if_pos hplace]
        cases name with
        | nil => exact absurd (List.prefix_refl []) hname
        | cons c name =>
          have hnext : env.drop (a.length + 1) = name ++ rest := by
            rw [henv, ← List.drop_drop, List.drop_left]
            rfl
          have hlength := congrArg List.length henv
          rw [List.length_append, List.cons_append, List.length_cons] at hlength
          rw [flagScan_reject hplace, hnext]
          exact ih (by omega) (.inr (not_again hname rest))
      · rw [if_neg hplace]
        rw [not_or, not_not, Bool.not_eq_true] at hplace
        rw [flagScan_accept hplace.1 hplace.2]

end Scan

/-! ## Settings -/

/-- How the value of a setting is written. -/
inductive Quoting where
  | plain
  | double
  | single
deriving DecidableEq, Repr

structure Setting where
  key : List Char
  value : List Char
  quoting : Quoting
deriving DecidableEq, Repr

def Setting.text (s : Setting) : List Char :=
  match s.quoting with
  | .plain => s.value
  | .double => '"' :: (s.value ++ ['"'])
  | .single => '\'' :: (s.value ++ ['\''])

def Setting.written (s : Setting) : List Char := s.key ++ '=' :: s.text

/-- The key is the name, or it ends in the name behind a character that no name has. -/
def Setting.sets (s : Setting) (name : List Char) : Bool :=
  s.key == name || s.key.any fun c => !isFlagChar c && (c :: name).isSuffixOf s.key

/-- The key and the value hold no `=`, and the value can be told from what is behind it. -/
structure Setting.Ok (s : Setting) : Prop where
  key : '=' ∉ s.key
  value : '=' ∉ s.value
  plain : s.quoting = .plain → (∀ c ∈ s.value, c ≠ ' ' ∧ c ≠ ':') ∧
    s.value.head? ≠ some '"' ∧ s.value.head? ≠ some '\''
  double : s.quoting = .double → '"' ∉ s.value
  single : s.quoting = .single → '\'' ∉ s.value

/-- The settings one behind the other. -/
def rendered (sep : Char) (settings : List Setting) : List Char :=
  [sep].intercalate (settings.map Setting.written)

/-- What may stand between settings. -/
def IsSeparator (sep : Char) : Prop := sep = ':' ∨ sep = ' '

theorem rendered_cons (sep : Char) (s s' : Setting) (settings : List Setting) :
    rendered sep (s :: s' :: settings) = s.written ++ sep :: rendered sep (s' :: settings) := by
  simp [rendered, List.intercalate]

theorem rendered_singleton (sep : Char) (s : Setting) : rendered sep [s] = s.written := by
  simp [rendered, List.intercalate]

theorem Setting.Ok.text {s : Setting} (h : s.Ok) : '=' ∉ s.text := by
  unfold Setting.text
  cases s.quoting with
  | plain => exact h.value
  | double => simp [h.value]
  | single => simp [h.value]

theorem takeWhile_stop {p : Char → Bool} {v : List Char} {x : Char} (hv : ∀ c ∈ v, p c = true)
    (hx : p x = false) (r : List Char) : (v ++ x :: r).takeWhile p = v := by
  rw [List.takeWhile_append_of_pos hv, List.takeWhile_cons_of_neg (by simp [hx]), List.append_nil]

/-- A value that does not begin with a quote. -/
theorem flagText_plain {s : List Char} (hdouble : s.head? ≠ some '"')
    (hsingle : s.head? ≠ some '\'') :
    flagText ('=' :: s) = s.takeWhile fun c => c ≠ ' ' ∧ c ≠ ':' := by
  unfold flagText
  split
  · next h =>
    rw [List.cons_inj_right] at h
    rw [h] at hdouble
    exact absurd rfl hdouble
  · next h =>
    rw [List.cons_inj_right] at h
    rw [h] at hsingle
    exact absurd rfl hsingle
  · next h =>
    rw [List.cons_inj_right] at h
    rw [h]
  · next h => exact absurd rfl (h s)

/-- A text that does not begin with a quote, at the end or before a separator. -/
theorem head?_ne {v r : List Char} {q : Char} (hr : ∀ c ∈ r.head?, IsSeparator c)
    (hq : q = '"' ∨ q = '\'') (hv : v.head? ≠ some q) : (v ++ r).head? ≠ some q := by
  cases v with
  | cons x v => exact hv
  | nil =>
    intro hhead
    rcases hr q hhead with rfl | rfl
    · exact absurd hq (by decide)
    · exact absurd hq (by decide)

/-- The value of a written setting, at the end or before a separator. -/
theorem flagText_text {s : Setting} (h : s.Ok) {r : List Char}
    (hr : ∀ c ∈ r.head?, IsSeparator c) : flagText ('=' :: (s.text ++ r)) = s.value := by
  unfold Setting.text
  cases hquoting : s.quoting with
  | plain =>
    rcases h.plain hquoting with ⟨hvalue, hdouble, hsingle⟩
    have hvalue' : ∀ c ∈ s.value, decide (c ≠ ' ' ∧ c ≠ ':') = true := fun c hc =>
      decide_eq_true (hvalue c hc)
    change flagText ('=' :: (s.value ++ r)) = s.value
    rw [flagText_plain (head?_ne hr (Or.inl rfl) hdouble) (head?_ne hr (Or.inr rfl) hsingle)]
    cases r with
    | nil => rw [List.append_nil, List.takeWhile_eq_self_iff.2 hvalue']
    | cons c r =>
      apply takeWhile_stop hvalue'
      rcases hr c rfl with rfl | rfl <;> rfl
  | double =>
    have hstop : ∀ c ∈ s.value, decide (c ≠ '"') = true := by
      intro c hc
      rw [decide_eq_true_iff]
      rintro rfl
      exact h.double hquoting hc
    simpa [flagText] using takeWhile_stop hstop (by decide) r
  | single =>
    have hstop : ∀ c ∈ s.value, decide (c ≠ '\'') = true := by
      intro c hc
      rw [decide_eq_true_iff]
      rintro rfl
      exact h.single hquoting hc
    simpa [flagText] using takeWhile_stop hstop (by decide) r

section Rendered

variable {name : List Char} {prev : Option Char}

/-- A prefix without the character that ends a text. -/
theorem prefix_of_not_mem {p w r : List Char} {x : Char} (hx : x ∉ p)
    (h : p <+: w ++ x :: r) : p <+: w := by
  induction w generalizing p with
  | nil =>
    cases p with
    | nil => exact List.prefix_refl []
    | cons y p =>
      rw [List.nil_append, List.cons_prefix_cons] at h
      exact absurd (h.1 ▸ List.mem_cons_self) hx
  | cons c w ih =>
    cases p with
    | nil => exact List.nil_prefix
    | cons y p =>
      rw [List.cons_append, List.cons_prefix_cons] at h
      exact List.cons_prefix_cons.2
        ⟨h.1, ih (fun hmem => hx (List.mem_cons_of_mem y hmem)) h.2⟩

theorem not_begins_nil {w : List Char} (hw : '=' ∉ w) : ¬ name ++ ['='] <+: w := fun h =>
  hw (h.subset (by simp))

/-- The rest of a text, up to its separator. -/
theorem flagScan_text {w r : List Char} {sep : Char} (hname : ∀ c ∈ name, isFlagChar c = true)
    (hsep : IsSeparator sep) (hw : '=' ∉ w) :
    flagScan name prev (w ++ sep :: r) = flagScan name (some sep) r := by
  have hmem : sep ∉ name ++ ['='] := by
    intro hmem
    rcases List.mem_append.1 hmem with hmem | hmem
    · have hc := hname sep hmem
      rcases hsep with rfl | rfl <;> exact absurd hc (by decide)
    · rcases hsep with rfl | rfl <;> exact absurd hmem (by decide)
  have hnot : ∀ w, '=' ∉ w → ¬ name ++ ['='] <+: w ++ sep :: r := fun w hw h =>
    not_begins_nil hw (prefix_of_not_mem hmem h)
  induction w generalizing prev with
  | nil => exact flagScan_skip fun h => absurd h (hnot [] hw)
  | cons c w ih =>
    have hskip : flagScan name prev (c :: (w ++ sep :: r)) =
        flagScan name (some c) (w ++ sep :: r) :=
      flagScan_skip fun h => absurd h (hnot (c :: w) hw)
    rw [List.cons_append, hskip]
    exact ih fun hmem => hw (List.mem_cons_of_mem c hmem)

theorem flagScan_end {w : List Char} (hw : '=' ∉ w) : flagScan name prev w = none := by
  induction w generalizing prev with
  | nil => rfl
  | cons c w ih =>
    rw [flagScan_skip fun h => absurd h (not_begins_nil hw)]
    exact ih fun hmem => hw (List.mem_cons_of_mem c hmem)

theorem Setting.sets_iff {s : Setting} : s.sets name = true ↔
    s.key = name ∨ ∃ c, isFlagChar c = false ∧ c :: name <:+ s.key := by
  simp only [sets, Bool.or_eq_true, beq_iff_eq, List.any_eq_true, Bool.and_eq_true,
    Bool.not_eq_true', List.isSuffixOf_iff_suffix]
  refine or_congr_right ?_
  constructor
  · rintro ⟨c, -, hc, hsuffix⟩
    exact ⟨c, hc, hsuffix⟩
  · rintro ⟨c, hc, hsuffix⟩
    exact ⟨c, hsuffix.subset List.mem_cons_self, hc, hsuffix⟩

/-- Before a `=`, the name is all that is left of the key. -/
theorem name_prefix_iff {key s : List Char} (hname : '=' ∉ name) (hkey : '=' ∉ key) :
    name ++ ['='] <+: key ++ '=' :: s ↔ key = name := by
  have hplain : ∀ l : List Char, '=' ∉ l → ∀ t, (l ++ '=' :: t).takeWhile (· != '=') = l := by
    intro l hl t
    refine takeWhile_stop (fun c hc => ?_) (by decide) t
    rw [bne_iff_ne]
    rintro rfl
    exact hl hc
  constructor
  · rintro ⟨t, ht⟩
    rw [← hplain key hkey s, ← ht, List.append_assoc]
    exact hplain name hname t
  · rintro rfl
    exact ⟨s, by simp⟩

/-- The name ends the key, and no character of a name is before it. -/
def EndsKey (name : List Char) (prev : Option Char) (key : List Char) : Prop :=
  (key = name ∧ prev.any isFlagChar = false) ∨ ∃ c, isFlagChar c = false ∧ c :: name <:+ key

theorem endsKey_cons {d : Char} {key : List Char} :
    EndsKey name prev (d :: key) ↔
      (d :: key = name ∧ prev.any isFlagChar = false) ∨ EndsKey name (some d) key := by
  refine or_congr_right ?_
  constructor
  · rintro ⟨c, hc, hsuffix⟩
    rcases List.suffix_cons_iff.mp hsuffix with heq | hsuffix
    · rcases List.cons.inj heq with ⟨rfl, rfl⟩
      exact Or.inl ⟨rfl, hc⟩
    · exact Or.inr ⟨c, hc, hsuffix⟩
  · rintro (⟨rfl, hd⟩ | ⟨c, hc, hsuffix⟩)
    · exact ⟨d, hd, List.suffix_refl _⟩
    · exact ⟨c, hc, hsuffix.trans (List.suffix_cons d key)⟩

theorem flagScan_key {key s : List Char} (hname : '=' ∉ name) (hkey : '=' ∉ key)
    (hends : EndsKey name prev key) : flagScan name prev (key ++ '=' :: s) = some ('=' :: s) := by
  induction key generalizing prev with
  | nil =>
    rcases hends with ⟨rfl, hprev⟩ | ⟨c, -, hsuffix⟩
    · exact flagScan_accept hprev rfl
    · exact absurd (List.suffix_nil.mp hsuffix) (List.cons_ne_nil c name)
  | cons d key ih =>
    by_cases hfirst : d :: key = name ∧ prev.any isFlagChar = false
    · rw [hfirst.1]
      exact flagScan_accept hfirst.2 rfl
    · have hrest := (endsKey_cons.mp hends).resolve_left hfirst
      have hskip : flagScan name prev (d :: (key ++ '=' :: s)) =
          flagScan name (some d) (key ++ '=' :: s) := flagScan_skip fun hbegins =>
        (Bool.not_eq_false _).mp fun hprev => hfirst
          ⟨(name_prefix_iff hname hkey).mp hbegins, hprev⟩
      rw [List.cons_append, hskip]
      exact ih (fun hmem => hkey (List.mem_cons_of_mem d hmem)) hrest

/-- Another key is skipped. -/
theorem flagScan_otherKey {key s : List Char} (hname : '=' ∉ name) (hkey : '=' ∉ key)
    (hends : ¬ EndsKey name prev key) :
    flagScan name prev (key ++ '=' :: s) = flagScan name (some '=') s := by
  have hnot : name ++ ['='] <+: key ++ '=' :: s → prev.any isFlagChar = true := by
    intro hbegins
    have heq := (name_prefix_iff hname hkey).mp hbegins
    exact (Bool.not_eq_false _).mp fun hprev => hends (Or.inl ⟨heq, hprev⟩)
  induction key generalizing prev with
  | nil => exact flagScan_skip hnot
  | cons d key ih =>
    have hkey' : '=' ∉ key := fun hmem => hkey (List.mem_cons_of_mem d hmem)
    have hrest : ¬ EndsKey name (some d) key := fun h => hends (endsKey_cons.mpr (Or.inr h))
    have hskip : flagScan name prev (d :: (key ++ '=' :: s)) =
        flagScan name (some d) (key ++ '=' :: s) := flagScan_skip hnot
    rw [List.cons_append, hskip]
    refine ih hkey' hrest fun hbegins => ?_
    have heq := (name_prefix_iff hname hkey').mp hbegins
    exact (Bool.not_eq_false _).mp fun hd => hrest (Or.inl ⟨heq, hd⟩)

/-- The first setting that is taken for the flag. -/
theorem flagScan_rendered {sep : Char} (hsep : IsSeparator sep)
    (hname : ∀ c ∈ name, isFlagChar c = true) {settings : List Setting}
    (hok : ∀ s ∈ settings, s.Ok) (hprev : prev.any isFlagChar = false) :
    (flagScan name prev (rendered sep settings)).map flagText =
      (settings.find? (·.sets name)).map Setting.value := by
  have hsepchar : isFlagChar sep = false := by
    rcases hsep with rfl | rfl <;> rfl
  have hequals : '=' ∉ name := fun hmem => absurd (hname '=' hmem) (by decide)
  -- a key is taken for the flag if it ends in the name behind no letter of a flag
  have hsets : ∀ (s : Setting) {prev : Option Char}, prev.any isFlagChar = false →
      (s.sets name = true ↔ EndsKey name prev s.key) := by
    intro s prev hprev
    rw [Setting.sets_iff, EndsKey, hprev, eq_self_iff_true, and_true]
  induction settings generalizing prev with
  | nil => rfl
  | cons s settings ih =>
    have hs := hok s List.mem_cons_self
    rw [List.find?_cons]
    cases settings with
    | nil =>
      have htext : flagText ('=' :: (s.text ++ [])) = s.value := flagText_text hs (by simp)
      rw [List.append_nil] at htext
      rw [rendered_singleton, Setting.written]
      by_cases hkey : s.sets name = true
      · rw [flagScan_key hequals hs.key ((hsets s hprev).mp hkey)]
        simp [hkey, htext]
      · rw [flagScan_otherKey hequals hs.key fun h => hkey ((hsets s hprev).mpr h)]
        simp [hkey, flagScan_end hs.text]
    | cons s' settings =>
      have htext : flagText ('=' :: (s.text ++ sep :: rendered sep (s' :: settings))) = s.value :=
        flagText_text hs (by simpa using hsep)
      rw [rendered_cons, Setting.written, List.append_assoc, List.cons_append]
      by_cases hkey : s.sets name = true
      · rw [flagScan_key hequals hs.key ((hsets s hprev).mp hkey)]
        simp [hkey, htext]
      -- no place within this setting is taken, so it is the first of the others
      · have hrest : (flagScan name (some sep) (rendered sep (s' :: settings))).map flagText =
            ((s' :: settings).find? (·.sets name)).map Setting.value :=
          ih (fun t ht => hok t (List.mem_cons_of_mem s ht)) hsepchar
        rw [flagScan_otherKey hequals hs.key fun h => hkey ((hsets s hprev).mpr h)]
        simp [hkey, flagScan_text hname hsep hs.text, hrest]

/-- What is read from a string of settings is the value of the first one that is taken for the
flag. -/
theorem getFlagValue_rendered {sep : Char} (hsep : IsSeparator sep)
    (hname : ∀ c ∈ name, isFlagChar c = true) (hover : ¬ name.tail <+: name)
    {settings : List Setting} (hok : ∀ s ∈ settings, s.Ok) :
    getFlagValue (some (rendered sep settings)) name =
      (settings.find? (·.sets name)).map Setting.value := by
  unfold getFlagValue
  rw [Option.bind_some, flagLoop_eq hover (Nat.lt_succ_self _) (.inl rfl)]
  exact flagScan_rendered hsep hname hok rfl

-- A digit is in no name.
example : getFlagValue (some "x2stats=1".toList) "stats".toList = some "1".toList := by decide

-- A `=` within a value is taken for that of a setting.
example : getFlagValue (some "log_path='no_check=1'".toList) "no_check".toList =
    some "1'".toList := by decide

end Rendered

end Caver.Sanitizer
