import Caver.Sanitizer.Suppressions

/-!
# Caver.Sanitizer.SuppressionParse — the file of suppressions

`SuppressionContext::InitIfNecessary` reads the file into buffers that grow until a read
reaches the end of the file. `Parse` takes the suppressions from the buffer line by line.

* `FileSystem.readFileToBuffer`: the buffer, whatever the single reads return.
* `SuppressionContext.parse`: the suppressions of a buffer.
* `initIfNecessary`: the context that is searched later.
-/

namespace Caver.Sanitizer

/-! ## The file -/

/-- The files by name, and how many bytes a read may return: a pipe or a signal may end it
before the page is full. -/
structure FileSystem where
  pageBits : ℕ
  pageBits_le : pageBits ≤ 26
  contents : List Char → Option (List Char)
  /-- By the size of the buffer and what has been read, a bound on a read. -/
  available : ℕ → ℕ → ℕ

namespace FileSystem

/-- `GetPageSizeCached`. -/
def pageSize (fs : FileSystem) : ℕ := 2 ^ fs.pageBits

/-- `internal_read`: at most a page, and at least one byte where there is one. -/
def internalRead (fs : FileSystem) (file : List Char) (size readLen : ℕ) : List Char :=
  (file.drop readLen).take (min fs.pageSize (fs.available size readLen + 1))

theorem pageSize_pos (fs : FileSystem) : 0 < fs.pageSize := Nat.two_pow_pos fs.pageBits

/-- The inner loop of `ReadFileToBuffer`: the bytes read, and `reached_eof`. -/
def readLoop (fs : FileSystem) (file : List Char) (size : ℕ) (buff : List Char) :
    List Char × Bool :=
  if _ : buff.length + fs.pageSize ≤ size then
    if _ : (fs.internalRead file size buff.length).length = 0 then (buff, true)
    else readLoop fs file size (buff ++ fs.internalRead file size buff.length)
  else (buff, false)
termination_by size - buff.length
decreasing_by
  have hpos := fs.pageSize_pos
  rw [List.length_append]
  omega

/-- The outer loop: the last buffer, which the mapping has zeroed, and `read_len`. -/
def growLoop (fs : FileSystem) (file : List Char) (maxLen size : ℕ) (hsize : 0 < size)
    (buffer : List Char × ℕ) : List Char × ℕ :=
  if _ : size ≤ maxLen then
    let (buff, reachedEof) := fs.readLoop file size []
    let buffer := (buff ++ List.replicate (size - buff.length) terminator, buff.length)
    if reachedEof then buffer
    else growLoop fs file maxLen (size * 2) (Nat.mul_pos hsize (by decide)) buffer
  else buffer
termination_by maxLen + 1 - size

/-- `ReadFileToBuffer`: the buffer and `read_len`. -/
def readFileToBuffer (fs : FileSystem) (fileName : List Char) (maxLen : ℕ) : List Char × ℕ :=
  match fs.contents fileName with
  | none => ([], 0)
  | some file => fs.growLoop file maxLen fs.pageSize fs.pageSize_pos ([], 0)

end FileSystem

/-! ## Parsing -/

/-- How parsing may fail. -/
inductive ParseFailure where
  /-- A message and `Die`, or a `CHECK`. -/
  | died
  /-- A read behind the end of a buffer or of a type string. -/
  | overread
deriving DecidableEq, Repr

abbrev Parsed (α : Type) := Except ParseFailure α

/-- `SuppressionTypeString`. -/
def suppressionTypeString : SuppressionType → List Char
  | .none => "none".toList
  | .race => "race".toList
  | .mutex => "mutex".toList
  | .thread => "thread".toList
  | .signal => "signal".toList
  | .leak => "leak".toList
  | .lib => "called_from_lib".toList
  | .deadlock => "deadlock".toList
  | .castFilename => "cast_filename".toList
  | .castSrcType => "cast_src_type".toList
  | .castDstType => "cast_dst_type".toList

/-- The types as `Parse` goes through them. -/
def suppressionTypes : List SuppressionType :=
  [.none, .race, .mutex, .thread, .signal, .leak, .lib, .deadlock, .castFilename, .castSrcType,
    .castDstType]

def byteAt (bytes : List Char) (i : ℕ) : Parsed Char :=
  match bytes[i]? with
  | some c => return c
  | none => throw .overread

def isBlank (c : Char) : Bool := c == ' ' || c == '\t'

/-- The first byte that is not blank, from `i` on. -/
def skipBlanks : List Char → ℕ → Parsed ℕ
  | [], _ => throw .overread
  | c :: s, i => if isBlank c then skipBlanks s (i + 1) else return i

/-- `internal_strlen`, counted from `i` on. -/
def internalStrlen : List Char → ℕ → Parsed ℕ
  | [], _ => throw .overread
  | c :: s, i => if c = terminator then return i else internalStrlen s (i + 1)

/-- `end`: the next newline, or the NUL. -/
def lineEnd (bytes : List Char) (line : ℕ) : Parsed ℕ :=
  match internalStrchr '\n' (bytes.drop line) line with
  | some i => return i
  | none => internalStrlen (bytes.drop line) line

/-- `end2`: the end without the blanks before it. -/
def trimEnd (bytes : List Char) (line : ℕ) : ℕ → Parsed ℕ
  | 0 => return 0
  | end2 + 1 => do
    if line = end2 + 1 then return end2 + 1
    else
      let c ← byteAt bytes end2
      if isBlank c then trimEnd bytes line end2 else return end2 + 1

/-- `StripPrefix`, on the bytes from `i` on. It compares the terminators too. -/
def stripPrefix : List Char → List Char → ℕ → Parsed (Option ℕ)
  | c :: str, p :: pre, i =>
    if c = p then stripPrefix str pre (i + 1)
    else if p = terminator then return some i
    else return none
  | _, _, _ => throw .overread

/-- The loop over the types: the type, and where its template begins. -/
def typeLoop (bytes : List Char) (line : ℕ) :
    List SuppressionType → Parsed (Option (SuppressionType × ℕ))
  | [] => return none
  | type :: types => do
    let nextChar ←
      stripPrefix (bytes.drop line) (suppressionTypeString type ++ [terminator]) line
    match nextChar with
    | none => typeLoop bytes line types
    | some nextChar =>
      let c ← byteAt bytes nextChar
      if c = ':' then return some (type, nextChar + 1) else typeLoop bytes line types

/-- The suppression whose template goes up to `end2`, if there was a type. -/
def pushed (bytes : List Char) (end2 : ℕ) :
    Option (SuppressionType × ℕ) → Parsed (List Suppression)
  | none => throw .died
  | some (type, line) => return [⟨type, (bytes.drop line).take (end2 - line) ++ [terminator]⟩]

/-- The suppression of a line, if it is no comment. -/
def parseLine (bytes : List Char) (line lineEnd : ℕ) : Parsed (List Suppression) := do
  if line = lineEnd then return []
  else
    let c ← byteAt bytes line
    if c = '#' then return []
    else
      let end2 ← trimEnd bytes line lineEnd
      let type ← typeLoop bytes line suppressionTypes
      pushed bytes end2 type

/-- The loop of `Parse` over the lines. There are at most as many as bytes. -/
def parseLoop (bytes : List Char) : ℕ → ℕ → List Suppression → Parsed (List Suppression)
  | 0, _, _ => throw .overread
  | fuel + 1, line, suppressions => do
    let line ← skipBlanks (bytes.drop line) line
    let lineEnd ← lineEnd bytes line
    let found ← parseLine bytes line lineEnd
    let c ← byteAt bytes lineEnd
    if c = terminator then return suppressions ++ found
    else parseLoop bytes fuel (lineEnd + 1) (suppressions ++ found)

/-- `SuppressionContext::Parse`. -/
def SuppressionContext.parse (ctx : SuppressionContext) (str : List Char) :
    Parsed SuppressionContext := do
  if ctx.canParse then
    let suppressions ← parseLoop str (str.length + 1) 0 ctx.suppressions
    return { ctx with suppressions := suppressions }
  else throw .died

/-- `SuppressionContext::InitIfNecessary`, with the flag `suppressions`. -/
def initIfNecessary (fs : FileSystem) (suppressions : List Char) :
    Option SuppressionContext → Parsed SuppressionContext
  | some ctx => return ctx
  | none =>
    let ctx : SuppressionContext := ⟨[], true⟩
    if suppressions = [] then return ctx
    else
      let (suppressionsFromFile, contentsSize) := fs.readFileToBuffer suppressions (2 ^ 26)
      if contentsSize = 0 then throw .died
      else ctx.parse suppressionsFromFile

/-! ## Searching -/

/-- The calls of `MatchSuppression` after the context has been initialised. -/
def matchAll : SuppressionContext → List (List Char × SuppressionType) →
    Option (List Bool × SuppressionContext)
  | ctx, [] => some ([], ctx)
  | ctx, (str, type) :: queries => do
    let (found, ctx) ← matchSuppression ctx str type
    let (answers, ctx) ← matchAll ctx queries
    return (found :: answers, ctx)

end Caver.Sanitizer
