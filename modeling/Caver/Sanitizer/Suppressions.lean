import Caver.Basic
import Mathlib.Data.List.Basic

/-!
# Caver.Sanitizer.Suppressions — templates of suppressions

`TemplateMatch` searches for the pieces of a template one by one. While it searches, it
ends each piece with a NUL in the template itself.

* `templateMatchLoop`: the loop on the bytes of the template.
* `SuppressionContext.matchTemplates`: the first suppression of a type whose template matches.
-/

namespace Caver.Sanitizer

/-- The byte behind a string. -/
def terminator : Char := Char.ofNat 0

/-! ## Strings of the C library -/

/-- `internal_strchr`, on the bytes from `i` on. -/
def internalStrchr (c : Char) : List Char → ℕ → Option ℕ
  | [], _ => none
  | x :: s, i =>
    if x = c then some i else if x = terminator then none else internalStrchr c s (i + 1)

/-- The characters before the NUL. -/
def cString (bytes : List Char) : List Char := bytes.takeWhile (· ≠ terminator)

/-- `internal_strstr`: where the needle starts. -/
def internalStrstr (haystack needle : List Char) : Option ℕ :=
  if haystack.length < needle.length then none
  else (List.range (haystack.length - needle.length + 1)).find? fun pos =>
    (haystack.drop pos).take needle.length == needle

/-! ## Templates -/

/-- The nearer of the next `*` and the next `$`. -/
def nearerMark : Option ℕ → Option ℕ → Option ℕ
  | none, tpos1 => tpos1
  | some tpos, none => some tpos
  | some tpos, some tpos1 => if tpos1 < tpos then some tpos1 else some tpos

/-- The loop of `TemplateMatch`, with the bytes of the template and where `templ` points. It
fails if it reads behind the bytes. -/
def templateMatchLoop :
    ℕ → List Char → Option ℕ → List Char → Bool → Bool → Option (Bool × List Char)
  | 0, _, _, _, _, _ => none
  | _ + 1, bytes, none, _, _, _ => some (true, bytes)
  | fuel + 1, bytes, some templ, str, start, asterisk => do
    let c ← bytes[templ]?
    if c = terminator then return (true, bytes)
    else if c = '*' then templateMatchLoop fuel bytes (some (templ + 1)) str false true
    else if c = '$' then return (str.isEmpty || asterisk, bytes)
    else if str = [] then return (false, bytes)
    else
      let tpos := internalStrchr '*' (bytes.drop templ) templ
      let tpos1 := internalStrchr '$' (bytes.drop templ) templ
      let tpos := nearerMark tpos tpos1
      let ended := tpos.elim bytes (bytes.set · terminator)
      let piece := cString (ended.drop templ)
      let spos := internalStrstr str piece
      let restored := tpos.elim ended (ended.set · (if tpos = tpos1 then '$' else '*'))
      match spos with
      | none => return (false, restored)
      | some pos =>
        if start && pos ≠ 0 then return (false, restored)
        else templateMatchLoop fuel restored tpos (str.drop (pos + piece.length)) false false

/-- `TemplateMatch`, with the bytes of the template. -/
def templateMatch (bytes str : List Char) : Option (Bool × List Char) := do
  if str = [] then return (false, bytes)
  else
    let c ← bytes[0]?
    let start := c == '^'
    templateMatchLoop (bytes.length + 1) bytes (some (if start then 1 else 0)) str start false

/-! ## Suppressions -/

inductive SuppressionType where
  | none
  | race
  | mutex
  | thread
  | signal
  | leak
  | lib
  | deadlock
  | castFilename
  | castSrcType
  | castDstType
deriving DecidableEq, Repr

/-- A suppression, with the bytes at its `templ`. -/
structure Suppression where
  type : SuppressionType
  templ : List Char
deriving DecidableEq, Repr

structure SuppressionContext where
  suppressions : List Suppression
  canParse : Bool
deriving DecidableEq, Repr

/-- The loop of `Match`: the number of the suppression, from `i` on, and the suppressions
afterwards. -/
def matchLoop (str : List Char) (type : SuppressionType) :
    ℕ → List Suppression → Option (Option ℕ × List Suppression)
  | _, [] => some (none, [])
  | i, s :: ss =>
    if type = s.type then do
      let (found, templ) ← templateMatch s.templ str
      if found then return (some i, { s with templ := templ } :: ss)
      else
        let (result, ss') ← matchLoop str type (i + 1) ss
        return (result, { s with templ := templ } :: ss')
    else do
      let (result, ss') ← matchLoop str type (i + 1) ss
      return (result, s :: ss')

/-- `SuppressionContext::Match`. -/
def SuppressionContext.matchTemplates (ctx : SuppressionContext) (str : List Char)
    (type : SuppressionType) : Option (Option ℕ × SuppressionContext) := do
  let (result, ss) ← matchLoop str type 0 ctx.suppressions
  return (result, ⟨ss, false⟩)

/-- `MatchSuppression`, once the context has been initialised. -/
def matchSuppression (ctx : SuppressionContext) (str : List Char) (type : SuppressionType) :
    Option (Bool × SuppressionContext) := do
  let (result, ctx') ← ctx.matchTemplates str type
  return (result.isSome, ctx')

end Caver.Sanitizer
