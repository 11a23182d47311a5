import Caver.Runtime.HeapAllocator
import Caver.Sanitizer.FlagParse
import Caver.Sanitizer.SuppressionFile

/-!
# Caver.Runtime.RuntimeFlags — the flags of the runtime

`InitializeFlags` reads the flags from a string that is compiled in and then from the
environment. `InitCverIfNecessary` then reads the suppressions that they name.

* `initializeFlags_rendered`: the flags are those of the settings in the environment.
* `flagsIn`: what they make of the flags that casts and allocations look at.
* `startup_reads`: the runtime starts with them and with the suppressions of the file that
  they name.
-/

namespace Caver.Runtime

open Caver.Sanitizer

/-! ## Flags -/

/-- The fields of `Flags`. -/
inductive CverFlag where
  | verbose
  | noPrintStacktrace
  | noCheck
  | noFree
  | noCache
  | noGlobal
  | noStack
  | noHandleNew
  | noHandleCast
  | noCastValidity
  | noComposition
  | noReport
  | dieOnError
  | emptyInherit
  | newStacktrace
  | stats
  | nullify
deriving DecidableEq, Repr

def CverFlag.name : CverFlag → List Char
  | .verbose => "verbose".toList
  | .noPrintStacktrace => "no_print_stacktrace".toList
  | .noCheck => "no_check".toList
  | .noFree => "no_free".toList
  | .noCache => "no_cache".toList
  | .noGlobal => "no_global".toList
  | .noStack => "no_stack".toList
  | .noHandleNew => "no_handle_new".toList
  | .noHandleCast => "no_handle_cast".toList
  | .noCastValidity => "no_cast_validity".toList
  | .noComposition => "no_composition".toList
  | .noReport => "no_report".toList
  | .dieOnError => "die_on_error".toList
  | .emptyInherit => "empty_inherit".toList
  | .newStacktrace => "new_stacktrace".toList
  | .stats => "stats".toList
  | .nullify => "nullify".toList

/-- The flags as the string leaves them: each is parsed on its own. -/
abbrev CverFlags := CverFlag → Bool

/-- `ParseFlagsFromString`. -/
def parseFlagsFromString (f : CverFlags) (str : Option (List Char)) : CverFlags :=
  fun flag => parseFlag str (f flag) flag.name

/-- `InitializeFlags`, with `CVER_DEFAULT_OPTIONS` and `CVER_OPTIONS`. -/
def initializeFlags (definition : List Char) (env : Option (List Char)) : CverFlags :=
  parseFlagsFromString (parseFlagsFromString (fun _ => false) (some definition)) env

/-- The flags that casts and allocations look at. -/
def CverFlags.flags (f : CverFlags) : Flags where
  noCheck := f .noCheck
  noCache := f .noCache
  noGlobal := f .noGlobal
  noStack := f .noStack
  noComposition := f .noComposition
  noReport := f .noReport
  dieOnError := f .dieOnError
  noHandleNew := f .noHandleNew
  noHandleCast := f .noHandleCast
  noCastValidity := f .noCastValidity
  emptyInherit := f .emptyInherit
  nullify := f .nullify

/-- The common flags that the model uses, with their defaults. -/
structure CommonFlags where
  suppressions : List Char := []
  allocatorMayReturnNull : Bool := false
deriving DecidableEq, Repr

/-- `ParseCommonFlagsFromString`. -/
def parseCommonFlagsFromString (f : CommonFlags) (str : Option (List Char)) : CommonFlags where
  suppressions := parseFlagString str f.suppressions "suppressions".toList
  allocatorMayReturnNull :=
    parseFlag str f.allocatorMayReturnNull "allocator_may_return_null".toList

/-- `InitializeCommonFlags`. -/
def initializeCommonFlags (definition : List Char) (env : Option (List Char)) : CommonFlags :=
  parseCommonFlagsFromString (parseCommonFlagsFromString {} (some definition)) env

/-- What `InitCverIfNecessary` reads before it starts: flags and suppressions. -/
def readConfiguration (fs : FileSystem) (definition : List Char) (env : Option (List Char)) :
    Parsed (CommonFlags × CverFlags × SuppressionContext) := do
  let common := initializeCommonFlags definition env
  let flags := initializeFlags definition env
  let ctx ← initIfNecessary fs common.suppressions none
  return (common, flags, ctx)

/-! ## Names -/

/-- A name that `GetFlagValue` finds where it stands. -/
structure FlagName (name : List Char) : Prop where
  chars : name.all isFlagChar = true
  apart : ¬ name.tail <+: name

theorem CverFlag.flagName (flag : CverFlag) : FlagName flag.name := by
  cases flag <;> exact ⟨rfl, by decide⟩

theorem suppressions_flagName : FlagName "suppressions".toList := ⟨rfl, by decide⟩

theorem allocatorMayReturnNull_flagName : FlagName "allocator_may_return_null".toList :=
  ⟨rfl, by decide⟩

/-! ## The environment -/

section Environment

variable {sep : Char} {settings : List Setting}

/-- The value of the first setting that is taken for the name. -/
def settingOf (settings : List Setting) (name : List Char) : Option (List Char) :=
  (settings.find? (·.sets name)).map Setting.value

theorem FlagName.getFlagValue {name : List Char} (h : FlagName name) (hsep : IsSeparator sep)
    (hok : ∀ s ∈ settings, s.Ok) :
    getFlagValue (some (rendered sep settings)) name = settingOf settings name :=
  getFlagValue_rendered hsep (List.all_eq_true.1 h.chars) h.apart hok

/-- A flag that is set by the first setting that is taken for its name, if there is one. -/
def flagIn (settings : List Setting) (flag : Bool) (name : List Char) : Bool :=
  ((settingOf settings name).map (flagOf flag)).getD flag

theorem parseFlag_rendered {name : List Char} (h : FlagName name) (hsep : IsSeparator sep)
    (hok : ∀ s ∈ settings, s.Ok) (flag : Bool) :
    parseFlag (some (rendered sep settings)) flag name = flagIn settings flag name := by
  rw [parseFlag, h.getFlagValue hsep hok, flagIn]

theorem parseFlagString_rendered {name : List Char} (h : FlagName name) (hsep : IsSeparator sep)
    (hok : ∀ s ∈ settings, s.Ok) (flag : List Char) :
    parseFlagString (some (rendered sep settings)) flag name =
      (settingOf settings name).getD flag := by
  rw [parseFlagString, h.getFlagValue hsep hok]

variable {sep' : Char} {defaults : List Setting}

/-- The settings of the environment override those that are compiled in. -/
theorem initializeFlags_rendered (hsep' : IsSeparator sep') (hdefaults : ∀ s ∈ defaults, s.Ok)
    (hsep : IsSeparator sep) (hok : ∀ s ∈ settings, s.Ok) (flag : CverFlag) :
    initializeFlags (rendered sep' defaults) (some (rendered sep settings)) flag =
      flagIn settings (flagIn defaults false flag.name) flag.name := by
  unfold initializeFlags parseFlagsFromString
  rw [parseFlag_rendered flag.flagName hsep hok, parseFlag_rendered flag.flagName hsep' hdefaults]

/-- What settings, and those that are compiled in, make of the flags that casts and allocations
look at. -/
def flagsIn (defaults settings : List Setting) : Flags :=
  let set := fun name => flagIn settings (flagIn defaults false name) name
  { noCheck := set "no_check".toList
    noCache := set "no_cache".toList
    noGlobal := set "no_global".toList
    noStack := set "no_stack".toList
    noComposition := set "no_composition".toList
    noReport := set "no_report".toList
    dieOnError := set "die_on_error".toList
    noHandleNew := set "no_handle_new".toList
    noHandleCast := set "no_handle_cast".toList
    noCastValidity := set "no_cast_validity".toList
    emptyInherit := set "empty_inherit".toList
    nullify := set "nullify".toList }

theorem flags_rendered (hsep' : IsSeparator sep') (hdefaults : ∀ s ∈ defaults, s.Ok)
    (hsep : IsSeparator sep) (hok : ∀ s ∈ settings, s.Ok) :
    CverFlags.flags (initializeFlags (rendered sep' defaults) (some (rendered sep settings))) =
      flagsIn defaults settings := by
  simp only [CverFlags.flags, initializeFlags_rendered hsep' hdefaults hsep hok]
  rfl

theorem initializeCommonFlags_rendered (hsep' : IsSeparator sep')
    (hdefaults : ∀ s ∈ defaults, s.Ok) (hsep : IsSeparator sep) (hok : ∀ s ∈ settings, s.Ok) :
    initializeCommonFlags (rendered sep' defaults) (some (rendered sep settings)) =
      ⟨(settingOf settings "suppressions".toList).getD
          ((settingOf defaults "suppressions".toList).getD []),
        flagIn settings (flagIn defaults false "allocator_may_return_null".toList)
          "allocator_may_return_null".toList⟩ := by
  unfold initializeCommonFlags parseCommonFlagsFromString
  rw [parseFlagString_rendered suppressions_flagName hsep hok,
    parseFlagString_rendered suppressions_flagName hsep' hdefaults,
    parseFlag_rendered allocatorMayReturnNull_flagName hsep hok,
    parseFlag_rendered allocatorMayReturnNull_flagName hsep' hdefaults]

/-- From the environment to the runtime: it starts if and only if each line of the file can be
read, with the flags of the settings and the suppressions of the lines. -/
theorem startup_reads {fs : FileSystem} {name file : List Char} (hsep' : IsSeparator sep')
    (hdefaults : ∀ s ∈ defaults, s.Ok) (hsep : IsSeparator sep) (hok : ∀ s ∈ settings, s.Ok)
    (hsetting : (settingOf settings "suppressions".toList).getD
      ((settingOf defaults "suppressions".toList).getD []) = name) (hname : name ≠ [])
    (hfile : fs.contents name = some file) (hne : file ≠ [])
    (hroom : file.length + fs.pageSize ≤ 2 ^ 26) :
    ((∃ r, readConfiguration fs (rendered sep' defaults) (some (rendered sep settings)) = .ok r) ↔
        ∀ raw ∈ linesOf (cString file), Readable raw) ∧
      ∀ common flags ctx, readConfiguration fs (rendered sep' defaults)
          (some (rendered sep settings)) = .ok (common, flags, ctx) →
        common.allocatorMayReturnNull =
            flagIn settings (flagIn defaults false "allocator_may_return_null".toList)
              "allocator_may_return_null".toList ∧
          (∀ flag, flags flag = flagIn settings (flagIn defaults false flag.name) flag.name) ∧
          flags.flags = flagsIn defaults settings ∧
          ∃ rules, List.Forall₂ LineRule (linesOf (cString file)) rules ∧
            ctx = contextOf rules.reduceOption true := by
  have hcommon := initializeCommonFlags_rendered hsep' hdefaults hsep hok
  rw [hsetting] at hcommon
  -- the flags cannot fail, so that the start is the reading of the file
  have hinit : readConfiguration fs (rendered sep' defaults) (some (rendered sep settings)) =
      (initIfNecessary fs name none >>= fun ctx =>
        .ok (initializeCommonFlags (rendered sep' defaults) (some (rendered sep settings)),
          initializeFlags (rendered sep' defaults) (some (rendered sep settings)), ctx)) := by
    unfold readConfiguration
    rw [hcommon]
    rfl
  rw [hinit, hcommon]
  constructor
  · constructor
    · rintro ⟨r, hr⟩
      by_contra hreadable
      have hbad : ∃ raw ∈ linesOf (cString file), ¬ Readable raw := by
        simpa using hreadable
      rcases initIfNecessary_unreadable hname hfile hne hroom hbad with ⟨e, he, -⟩
      rw [he] at hr
      cases hr
    · intro hreadable
      rcases initIfNecessary_readable hname hfile hne hroom hreadable with ⟨rules, -, hctx⟩
      rw [hctx]
      exact ⟨_, rfl⟩
  · intro common flags ctx hrun
    cases hctx : initIfNecessary fs name none with
    | error e =>
      rw [hctx] at hrun
      cases hrun
    | ok ctx' =>
      rw [hctx] at hrun
      cases hrun
      exact ⟨rfl, initializeFlags_rendered hsep' hdefaults hsep hok,
        flags_rendered hsep' hdefaults hsep hok, accepted_rules hname hfile hne hroom hctx⟩

end Environment

/-- `no_report=1:suppressions='f'`. -/
def twoSettings : List Setting :=
  [⟨"no_report".toList, ['1'], .plain⟩, ⟨"suppressions".toList, ['f'], .single⟩]

theorem twoSettings_ok : ∀ s ∈ twoSettings, s.Ok := by
  intro s hs
  rcases List.mem_pair.1 hs with rfl | rfl
  · refine ⟨by decide, by decide, fun _ => ⟨?_, by decide, by decide⟩, ?_, ?_⟩
    · intro c hc
      rw [List.mem_singleton.1 hc]
      decide
    · exact fun h => by cases h
    · exact fun h => by cases h
  · exact ⟨by decide, by decide, fun h => (by cases h), fun h => (by cases h),
      fun _ => by decide⟩

theorem startup_reads_file : ∃ common flags ctx,
    readConfiguration ruleFile [] (some "no_report=1:suppressions='f'".toList) =
      .ok (common, flags, ctx) ∧ flags.flags = { noReport := true } := by
  have hrendered : rendered ':' twoSettings = "no_report=1:suppressions='f'".toList := by decide
  have hfile : ruleFile.contents ['f'] = some "cast_src_type:E*\n".toList := rfl
  have hdefaults : ∀ s ∈ ([] : List Setting), s.Ok := fun _ h => absurd h List.not_mem_nil
  have hsetting : (settingOf twoSettings "suppressions".toList).getD
      ((settingOf [] "suppressions".toList).getD []) = ['f'] := by decide
  have hstart := startup_reads (Or.inl rfl) hdefaults (Or.inl rfl) twoSettings_ok hsetting
    (List.cons_ne_nil 'f' []) hfile (by decide) (by decide)
  rw [hrendered] at hstart
  rcases hstart.1.2 ruleFile_readable with ⟨⟨common, flags, ctx⟩, hrun⟩
  have hflags := (hstart.2 common flags ctx hrun).2.2.1
  refine ⟨common, flags, ctx, hrun, ?_⟩
  rw [hflags]
  decide

end Caver.Runtime
