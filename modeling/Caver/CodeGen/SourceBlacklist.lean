import Mathlib.Data.List.Basic
import Mathlib.Data.Nat.Digits.Defs
import Caver.Core.Wildcards

/-!
# Caver.CodeGen.SourceBlacklist — special case lists and blacklisted sources

* `parse`: the lines of a special case list. Literal names go into sets of strings,
  patterns into one regular expression for each section and category.
* `RegexEngine`: patterns without back references stand for regular expressions, and
  alternatives are searched one by one.
* `inSection_iff`: a query is answered by the entries one by one.
* `wildcards`: an engine for characters, wildcards, anchors and alternatives.
* `isBlacklistedSrc_iff`: which names are answered as the entries say. The query has a NUL
  behind the name, which what is left of an entry's expression must allow.
-/

namespace Caver.CodeGen

open Caver.Core

abbrev Text := List Char

/-! ## Regular expressions -/

/-- `Regex`: what is wrong with a pattern, whether it has back references, and whether it
matches somewhere in a text. -/
structure RegexEngine where
  error : Text → Option Text
  backrefs : Text → Bool
  find : Text → Text → Bool

/-- The pattern between anchors. -/
def anchor (p : Text) : Text := '^' :: p ++ ['$']

/-- The special characters of extended regular expressions. -/
def regexMetachars : Text := "()^$|*+?.[]\\\x7b\x7d".toList

def isLiteralERE (str : Text) : Bool := str.all (· ∉ regexMetachars)

/-- `*` becomes `.*`. -/
def replaceStars (regexp : Text) : Text :=
  regexp.flatMap fun c => if c = '*' then ['.', '*'] else [c]

/-- No character is special but `*`, for any text, and `.`, for any character. -/
def isWildcardPattern (str : Text) : Bool :=
  str.all fun c => c ∉ regexMetachars ∨ c = '*' ∨ c = '.'

def wildcard (c : Char) : Wildcard Char :=
  if c = '*' then .many else if c = '.' then .any else .one c

/-- The alternatives of a pattern, where it stands for a regular expression. -/
abbrev Reading := Text → Option (List (Regexp Char))

def anchorFirst : List (Regexp Char) → List (Regexp Char)
  | [] => [.bol]
  | b :: bs => .cat .bol b :: bs

def anchorLast : List (Regexp Char) → List (Regexp Char)
  | [] => [.eol]
  | [b] => [.cat b .eol]
  | b :: c :: bs => b :: anchorLast (c :: bs)

/-- The alternatives of a pattern between anchors: one is with the first of them, and one
with the last. -/
def anchorBranches (bs : List (Regexp Char)) : List (Regexp Char) := anchorLast (anchorFirst bs)

/-- Patterns without back references stand for regular expressions. Anchors, alternatives and
wildcards mean what they should there. -/
structure RegexEngine.Standard (R : RegexEngine) (reading : Reading) : Prop where
  regular : ∀ p, R.error p = none → R.backrefs p = false → (reading p).isSome
  anchor : ∀ p bs, reading p = some bs → (reading (anchor p)).isSome ∧
    ∀ t, R.find (anchor p) t = true ↔ ∃ b ∈ anchorBranches bs, b.Search t
  alternative : ∀ p q, (reading p).isSome → (reading q).isSome →
    (reading (p ++ '|' :: q)).isSome ∧
      ∀ t, R.find (p ++ '|' :: q) t = (R.find p t || R.find q t)
  wildcards : ∀ p, isWildcardPattern p = true → p ≠ [] →
    reading (replaceStars p) = some [Pattern.regexp (p.map wildcard)]

/-! ## Special case lists -/

/-- `SpecialCaseList::Entry`, for a section and a category. -/
structure Entry where
  strings : List Text
  regEx : Option Text

def Entry.isMatch (R : RegexEngine) (e : Entry) (query : Text) : Bool :=
  e.strings.contains query || e.regEx.any (R.find · query)

/-- `StringRef::split`, at the first separator. -/
def split (sep : Char) (s : Text) : Text × Text :=
  (s.takeWhile (· != sep), (s.dropWhile (· != sep)).tail)

/-- `SplitString`: there are no empty tokens. -/
def splitString (s delims : Text) : List Text := (s.splitOnP (· ∈ delims)).filter (· ≠ [])

/-- Backwards compatibility of sections. -/
def compatible (sect category : Text) : Text × Text :=
  if sect = "global-init".toList then ("global".toList, "init".toList)
  else if sect = "global-init-type".toList then ("type".toList, "init".toList)
  else if sect = "global-init-src".toList then ("src".toList, "init".toList)
  else (sect, category)

/-- The sets of strings, and the patterns so far, of each section and category. -/
structure ParseState where
  strings : Text → Text → List Text
  regexps : Text → Text → Text

namespace ParseState

def empty : ParseState := ⟨fun _ _ => [], fun _ _ => []⟩

def insertString (st : ParseState) (sect category str : Text) : ParseState :=
  { st with
    strings := fun s c =>
      if s = sect ∧ c = category then str :: st.strings s c else st.strings s c }

def addRegexp (st : ParseState) (sect category regexp : Text) : ParseState :=
  { st with
    regexps := fun s c =>
      if s = sect ∧ c = category then
        if st.regexps s c = [] then anchor regexp else st.regexps s c ++ '|' :: anchor regexp
      else st.regexps s c }

end ParseState

/-- The body of the loop of `parse`. -/
def parseLine (R : RegexEngine) (lineNo : ℕ) (line : Text) (st : ParseState) :
    Except Text ParseState :=
  if line = [] ∨ line.head? = some '#' then .ok st
  else
    let (sect, rest) := split ':' line
    if rest = [] then
      .error ("Malformed line ".toList ++ Nat.toDigits 10 lineNo ++ ": '".toList ++ sect ++
        "'".toList)
    else
      let (regexp, category) := split '=' rest
      let (sect, category) := compatible sect category
      if isLiteralERE regexp then .ok (st.insertString sect category regexp)
      else
        let regexp := replaceStars regexp
        match R.error regexp with
        | some reError =>
          .error ("Malformed regex in line ".toList ++ Nat.toDigits 10 lineNo ++ ": '".toList ++
            rest ++ "': ".toList ++ reError)
        | none => .ok (st.addRegexp sect category regexp)

def parseLines (R : RegexEngine) : ℕ → List Text → ParseState → Except Text ParseState
  | _, [], st => .ok st
  | lineNo, line :: lines, st => do
    let st ← parseLine R lineNo line st
    parseLines R (lineNo + 1) lines st

/-- A list: what has no entry matches nothing. -/
abbrev SpecialCaseList := Text → Text → Entry

/-- The second loop of `parse`, which compiles what has been joined. -/
def ParseState.entries (st : ParseState) : SpecialCaseList := fun sect category =>
  { strings := st.strings sect category
    regEx := if st.regexps sect category = [] then none else some (st.regexps sect category) }

def parse (R : RegexEngine) (buffer : Text) : Except Text SpecialCaseList := do
  let st ← parseLines R 1 (splitString buffer "\n\r".toList) ParseState.empty
  return st.entries

def inSection (R : RegexEngine) (L : SpecialCaseList) (sect query category : Text) : Bool :=
  (L sect category).isMatch R query

/-- The byte behind a string. -/
def nul : Char := Char.ofNat 0

/-- `SanitizerBlacklist::isBlacklistedSrc`. The query is one byte longer than the name. -/
def isBlacklistedSrc (R : RegexEngine) (L : SpecialCaseList) (str : Text) : Bool :=
  inSection R L "src".toList (str ++ [nul]) []

/-! ## The entries of a list -/

/-- A line `section:wildcard_expression[=category]`. -/
structure ListEntry where
  sect : Text
  category : Text
  regexp : Text

/-- Empty lines and comments are no entries. -/
def lineEntry (line : Text) : Option ListEntry :=
  if line = [] ∨ line.head? = some '#' then none
  else
    let (sect, rest) := split ':' line
    let (regexp, category) := split '=' rest
    let (sect, category) := compatible sect category
    some ⟨sect, category, regexp⟩

def entriesOf (buffer : Text) : List ListEntry :=
  (splitString buffer "\n\r".toList).filterMap lineEntry

/-- The entries that name whole source files. -/
def srcEntries (buffer : Text) : List ListEntry :=
  (entriesOf buffer).filter fun e => e.sect = "src".toList ∧ e.category = []

namespace ListEntry

/-- The alternatives of the pattern. -/
def branches (reading : Reading) (e : ListEntry) : List (Regexp Char) :=
  (reading (replaceStars e.regexp)).getD []

/-- What the list finds an entry by. -/
def Accepts (reading : Reading) (e : ListEntry) (query : Text) : Prop :=
  if isLiteralERE e.regexp then query = e.regexp
  else ∃ b ∈ anchorBranches (e.branches reading), b.Search query

/-- The entry matches a name from its first to its last character. -/
def MatchesWhole (reading : Reading) (e : ListEntry) (name : Text) : Prop :=
  if isLiteralERE e.regexp then name = e.regexp
  else ∃ b ∈ e.branches reading, b.Matches none name none

/-- The entry goes on over a NUL behind the name. A literal ends in one. Of a pattern, what is
left when it has taken a NUL last must match up to the end of the name; an alternative without
its own anchors may also stop short of the NUL, or match nothing behind it. -/
def Overruns (reading : Reading) (e : ListEntry) (name : Text) : Prop :=
  if isLiteralERE e.regexp then e.regexp = name ++ [nul]
  else ∃ b ∈ anchorBranches (e.branches reading), b.Overruns nul name

/-- A literal or a wildcard pattern as a pattern. -/
def pattern (e : ListEntry) : Pattern Char := e.regexp.map wildcard

end ListEntry

/-! ## A parsed list holds its entries -/

/-- An entry for a section and a category. -/
def ListEntry.In (e : ListEntry) (sect category : Text) : Prop :=
  e.sect = sect ∧ e.category = category

/-- The entries read so far are what is stored for a section and a category, its patterns joined
into one that stands for a regular expression. -/
structure Holds (R : RegexEngine) (reading : Reading) (sect category : Text) (st : ParseState)
    (entries : List ListEntry) : Prop where
  strings : ∀ query, query ∈ st.strings sect category ↔
    ∃ e ∈ entries, e.In sect category ∧ isLiteralERE e.regexp = true ∧ query = e.regexp
  none : st.regexps sect category = [] →
    ∀ e ∈ entries, e.In sect category → isLiteralERE e.regexp = true
  some : st.regexps sect category ≠ [] → (reading (st.regexps sect category)).isSome ∧
    ∀ query, R.find (st.regexps sect category) query = true ↔
      ∃ e ∈ entries, e.In sect category ∧ isLiteralERE e.regexp = false ∧
        e.Accepts reading query

theorem parseLine_cases {R : RegexEngine} {lineNo : ℕ} {line : Text} {st st' : ParseState}
    (h : parseLine R lineNo line st = .ok st') :
    (lineEntry line = none ∧ st' = st) ∨
    ∃ e, lineEntry line = some e ∧
      ((isLiteralERE e.regexp = true ∧ st' = st.insertString e.sect e.category e.regexp) ∨
        (isLiteralERE e.regexp = false ∧ R.error (replaceStars e.regexp) = none ∧
          st' = st.addRegexp e.sect e.category (replaceStars e.regexp))) := by
  unfold parseLine at h
  unfold lineEntry
  by_cases hskip : line = [] ∨ line.head? = some '#'
  · rw [if_pos hskip] at h
    left
    constructor
    · rw [if_pos hskip]
    · exact (Except.ok.inj h).symm
  · rw [if_neg hskip] at h
    rw [if_neg hskip]
    right
    refine ⟨_, rfl, ?_⟩
    dsimp only at h ⊢
    split at h
    · cases h
    · split at h
      · next hlit => exact Or.inl ⟨hlit, (Except.ok.inj h).symm⟩
      · next hlit =>
        split at h
        · cases h
        · next herr =>
          exact Or.inr ⟨Bool.eq_false_iff.mpr hlit, herr, (Except.ok.inj h).symm⟩

section Parsed

variable {R : RegexEngine} {reading : Reading} {sect category : Text} {st st' : ParseState}
  {entries : List ListEntry} {e : ListEntry}

theorem Holds.empty (R : RegexEngine) (reading : Reading) (sect category : Text) :
    Holds R reading sect category ParseState.empty [] where
  strings query := by simp [ParseState.empty]
  none _ e he := absurd he List.not_mem_nil
  some h := absurd rfl h

/-- A literal is found by its own name, in its own section and category. -/
theorem Holds.insertString (H : Holds R reading sect category st entries)
    (hlit : isLiteralERE e.regexp = true) :
    Holds R reading sect category (st.insertString e.sect e.category e.regexp)
      (entries ++ [e]) := by
  have hregexps : (st.insertString e.sect e.category e.regexp).regexps = st.regexps := rfl
  refine ⟨?_, ?_, ?_⟩
  · intro query
    have hold := H.strings query
    have hnew : query ∈ (st.insertString e.sect e.category e.regexp).strings sect category ↔
        query ∈ st.strings sect category ∨ (e.In sect category ∧ query = e.regexp) := by
      by_cases hin : sect = e.sect ∧ category = e.category
      · rcases hin with ⟨rfl, rfl⟩
        simp [ParseState.insertString, ListEntry.In, or_comm]
      · have hnot : ¬ e.In sect category := fun h => hin ⟨h.1.symm, h.2.symm⟩
        simp [ParseState.insertString, if_neg hin, hnot]
    simp [hnew, hold, or_and_right, exists_or, hlit]
  · intro hnone e' he' hin
    rcases List.mem_append.mp he' with he' | he'
    · exact H.none hnone e' he' hin
    · rw [List.mem_singleton.mp he']
      exact hlit
  · intro hsome
    rcases H.some hsome with ⟨hread, hfind⟩
    refine ⟨hread, fun query => ?_⟩
    rw [hregexps, hfind]
    simp [or_and_right, exists_or, hlit]

/-- The alternatives of a pattern are found where the entry is. -/
theorem find_anchor (hR : R.Standard reading) (hlit : isLiteralERE e.regexp = false)
    (hread : (reading (replaceStars e.regexp)).isSome) :
    (reading (anchor (replaceStars e.regexp))).isSome ∧ ∀ query,
      R.find (anchor (replaceStars e.regexp)) query = true ↔ e.Accepts reading query := by
  rcases Option.isSome_iff_exists.mp hread with ⟨bs, hbs⟩
  rcases hR.anchor _ bs hbs with ⟨hanchor, hfind⟩
  refine ⟨hanchor, fun query => ?_⟩
  rw [hfind, ListEntry.Accepts, if_neg (by simp [hlit]), ListEntry.branches, hbs, Option.getD_some]

/-- A pattern is joined to those of its section and category, each between anchors. -/
theorem Holds.addRegexp (hR : R.Standard reading) (H : Holds R reading sect category st entries)
    (hlit : isLiteralERE e.regexp = false)
    (hread : e.In sect category → (reading (replaceStars e.regexp)).isSome) :
    Holds R reading sect category (st.addRegexp e.sect e.category (replaceStars e.regexp))
      (entries ++ [e]) := by
  have hstrings : (st.addRegexp e.sect e.category (replaceStars e.regexp)).strings =
      st.strings := rfl
  have hnot : isLiteralERE e.regexp ≠ true := by simp [hlit]
  -- the strings do not change
  have hkeep : ∀ query, query ∈ st.strings sect category ↔ ∃ e' ∈ entries ++ [e],
      e'.In sect category ∧ isLiteralERE e'.regexp = true ∧ query = e'.regexp := by
    intro query
    simp [H.strings query, or_and_right, exists_or, hlit]
  by_cases hin : e.In sect category
  · rcases hin with ⟨rfl, rfl⟩
    rcases find_anchor hR hlit (hread ⟨rfl, rfl⟩) with ⟨hanchor, hfind⟩
    by_cases hfirst : st.regexps e.sect e.category = []
    · have hnew : (st.addRegexp e.sect e.category (replaceStars e.regexp)).regexps e.sect
          e.category = anchor (replaceStars e.regexp) := by
        simp [ParseState.addRegexp, hfirst]
      refine ⟨hkeep, fun h => ?_, fun _ => ?_⟩
      · rw [hnew] at h
        exact absurd h (by simp [anchor])
      · rw [hnew]
        refine ⟨hanchor, fun query => ?_⟩
        rw [hfind]
        constructor
        · intro hacc
          exact ⟨e, by simp, ⟨rfl, rfl⟩, hlit, hacc⟩
        · rintro ⟨e', he', hin', hlit', hacc⟩
          rcases List.mem_append.mp he' with he' | he'
          · -- so far there were literals only
            rw [H.none hfirst e' he' hin'] at hlit'
            cases hlit'
          · rwa [List.mem_singleton.mp he'] at hacc
    · rcases H.some hfirst with ⟨hold, hfindold⟩
      rcases hR.alternative _ _ hold hanchor with ⟨hjoined, hfindjoined⟩
      have hnew : (st.addRegexp e.sect e.category (replaceStars e.regexp)).regexps e.sect
          e.category = st.regexps e.sect e.category ++ '|' :: anchor (replaceStars e.regexp) := by
        simp [ParseState.addRegexp, hfirst]
      refine ⟨hkeep, fun h => ?_, fun _ => ?_⟩
      · rw [hnew] at h
        exact absurd h (by simp)
      · rw [hnew]
        refine ⟨hjoined, fun query => ?_⟩
        rw [hfindjoined, Bool.or_eq_true, hfindold, hfind]
        simp [or_and_right, exists_or, hlit, ListEntry.In]
  · have hother : ¬ (sect = e.sect ∧ category = e.category) := fun h => hin ⟨h.1.symm, h.2.symm⟩
    have hregexps : (st.addRegexp e.sect e.category (replaceStars e.regexp)).regexps sect
        category = st.regexps sect category := if_neg hother
    refine ⟨hkeep, fun h e' he' hin' => ?_, fun h => ?_⟩
    · rw [hregexps] at h
      rcases List.mem_append.mp he' with he' | he'
      · exact H.none h e' he' hin'
      · rw [List.mem_singleton.mp he'] at hin'
        exact absurd hin' hin
    · rw [hregexps] at h ⊢
      rcases H.some h with ⟨hold, hfindold⟩
      refine ⟨hold, fun query => ?_⟩
      rw [hfindold]
      simp [or_and_right, exists_or, hin]

/-- No pattern of the section and category has back references. -/
def NoBackrefs (R : RegexEngine) (sect category : Text) (entries : List ListEntry) : Prop :=
  ∀ e ∈ entries, e.In sect category → isLiteralERE e.regexp = false →
    R.backrefs (replaceStars e.regexp) = false

/-- One line of the loop: the entry of the line is found from then on. -/
theorem parseLine_holds (hR : R.Standard reading) {lineNo : ℕ} {line : Text}
    (H : Holds R reading sect category st entries)
    (hback : NoBackrefs R sect category (lineEntry line).toList)
    (h : parseLine R lineNo line st = .ok st') :
    Holds R reading sect category st' (entries ++ (lineEntry line).toList) := by
  rcases parseLine_cases h with ⟨hnone, rfl⟩ | ⟨e, hsome, hcase⟩
  · rw [hnone, Option.toList_none, List.append_nil]
    exact H
  · rw [hsome, Option.toList_some] at hback ⊢
    rcases hcase with ⟨hlit, rfl⟩ | ⟨hlit, herr, rfl⟩
    · exact H.insertString hlit
    · refine H.addRegexp hR hlit ?_
      intro hin
      exact hR.regular _ herr (hback e (List.mem_singleton_self e) hin hlit)

theorem parseLines_holds (hR : R.Standard reading) {lines : List Text} {lineNo : ℕ}
    (H : Holds R reading sect category st entries)
    (hback : NoBackrefs R sect category (lines.filterMap lineEntry))
    (h : parseLines R lineNo lines st = .ok st') :
    Holds R reading sect category st' (entries ++ lines.filterMap lineEntry) := by
  induction lines generalizing lineNo st entries with
  | nil =>
    cases h
    rw [List.filterMap_nil, List.append_nil]
    exact H
  | cons line lines ih =>
    have hsplit : (line :: lines).filterMap lineEntry =
        (lineEntry line).toList ++ lines.filterMap lineEntry := by
      cases hentry : lineEntry line <;> simp [hentry]
    rw [hsplit] at hback
    rcases hline : parseLine R lineNo line st with reError | st₁
    · rw [parseLines, hline] at h
      cases h
    · rw [parseLines, hline] at h
      have hfirst := parseLine_holds hR H
        (fun e he => hback e (List.mem_append_left _ he)) hline
      rw [hsplit, ← List.append_assoc]
      exact ih hfirst (fun e he => hback e (List.mem_append_right _ he)) h

/-- A query is answered by the entries of its section and category, one by one. -/
theorem inSection_iff (hR : R.Standard reading) {buffer : Text} {L : SpecialCaseList}
    (hL : parse R buffer = .ok L) (hback : NoBackrefs R sect category (entriesOf buffer))
    (query : Text) :
    inSection R L sect query category = true ↔
      ∃ e ∈ entriesOf buffer, e.In sect category ∧ e.Accepts reading query := by
  rcases hlines : parseLines R 1 (splitString buffer "\n\r".toList) ParseState.empty
    with parseError | st
  · rw [parse, hlines] at hL
    cases hL
  · rw [parse, hlines] at hL
    have H := parseLines_holds hR (.empty R reading sect category) hback hlines
    rw [List.nil_append] at H
    -- what is stored as a literal, and what is joined
    have hlits : query ∈ st.strings sect category ↔ ∃ e ∈ entriesOf buffer,
        e.In sect category ∧ isLiteralERE e.regexp = true ∧ e.Accepts reading query := by
      rw [H.strings]
      refine exists_congr fun e => and_congr_right fun _ => and_congr_right fun _ =>
        and_congr_right fun hlit => ?_
      rw [ListEntry.Accepts, if_pos hlit]
    have hpatterns : (st.regexps sect category ≠ [] ∧
        R.find (st.regexps sect category) query = true) ↔ ∃ e ∈ entriesOf buffer,
          e.In sect category ∧ isLiteralERE e.regexp = false ∧ e.Accepts reading query := by
      by_cases hnone : st.regexps sect category = []
      · refine iff_of_false (fun h => h.1 hnone) ?_
        rintro ⟨e, he, hin, hlit, -⟩
        rw [H.none hnone e he hin] at hlit
        cases hlit
      · rw [and_iff_right hnone]
        exact (H.some hnone).2 query
    rw [← Except.ok.inj hL, inSection, Entry.isMatch, Bool.or_eq_true, List.contains_iff_mem]
    have hregEx : (st.entries sect category).regEx.any (R.find · query) = true ↔
        st.regexps sect category ≠ [] ∧ R.find (st.regexps sect category) query = true := by
      by_cases hnone : st.regexps sect category = []
      · simp [ParseState.entries, hnone]
      · simp [ParseState.entries, hnone]
    rw [hregEx, hpatterns]
    show query ∈ st.strings sect category ∨ _ ↔ _
    rw [hlits, ← exists_or]
    refine exists_congr fun e => ?_
    cases hlit : isLiteralERE e.regexp <;> simp

end Parsed

/-! ## An engine for wildcard patterns -/

/-- Characters, `.`, `.*` and anchors, matched from a position on. Whether nothing has been
read yet is `start`. -/
def matchHere : Text → Bool → Text → Bool
  | [], _, _ => true
  | '^' :: p, start, t => start && matchHere p start t
  | '$' :: p, start, t => t.isEmpty && matchHere p start t
  | '.' :: '*' :: p, start, t => matchHere p start t || t.tails.tail.any (matchHere p false ·)
  | c :: p, _, x :: t => (c == '.' || c == x) && matchHere p false t
  | _ :: _, _, [] => false

def searchAlternative (t p : Text) : Bool :=
  matchHere p true t || t.tails.tail.any (matchHere p false ·)

def unsupported : Text := "()[]\\\x7b\x7d+?".toList

/-- Groups, brackets, escapes and repetitions other than `.*` are not supported. -/
def wildcards : RegexEngine where
  error p := if p.any (· ∈ unsupported) then some "unsupported".toList else none
  backrefs _ := false
  find p t := (p.splitOnP (· == '|')).any (searchAlternative t)

theorem wildcards_error {p : Text} :
    wildcards.error p = none ↔ ∀ c ∈ p, c ∉ unsupported := by
  simp only [wildcards, ite_eq_right_iff, reduceCtorEq, imp_false, List.any_eq_true,
    decide_eq_true_eq, not_exists, not_and]

/-! ### Its patterns as regular expressions -/

/-- One alternative. -/
def branchOf : Text → Regexp Char
  | [] => .epsilon
  | '^' :: p => .cat .bol (branchOf p)
  | '$' :: p => .cat .eol (branchOf p)
  | '.' :: '*' :: p => .cat (.star .any) (branchOf p)
  | c :: p => .cat (if c = '.' then .any else .one c) (branchOf p)

def wildcardsReading : Reading := fun p =>
  if p.any (· ∈ unsupported) then none else some ((p.splitOnP (· == '|')).map branchOf)

theorem wildcardsReading_isSome {p : Text} :
    (wildcardsReading p).isSome ↔ wildcards.error p = none := by
  simp only [wildcardsReading, wildcards]
  split <;> simp

theorem mem_tails_tail {t t' : Text} : t' ∈ t.tails.tail ↔ ∃ u, u ≠ [] ∧ t = u ++ t' := by
  cases t with
  | nil =>
    simp only [List.tails, List.tail_cons, List.not_mem_nil, false_iff, not_exists, not_and]
    intro u hu h
    exact hu (List.append_eq_nil_iff.mp h.symm).1
  | cons a t =>
    simp only [List.tails, List.tail_cons, List.mem_tails]
    constructor
    · rintro ⟨u, rfl⟩
      exact ⟨a :: u, by simp, rfl⟩
    · rintro ⟨u, hu, h⟩
      rcases List.exists_cons_of_ne_nil hu with ⟨b, v, rfl⟩
      rw [List.cons_append, List.cons.injEq] at h
      exact ⟨v, h.2.symm⟩

/-- A text of any length and what follows. -/
theorem matches_star_any_cat {r : Regexp Char} {l x : Option Char} {t : Text} :
    Regexp.Matches (.cat (.star .any) r) l t x ↔
      ∃ u v, t = u ++ v ∧ r.Matches (u.getLast?.or l) v x := by
  rw [Regexp.matches_cat]
  constructor
  · rintro ⟨u, v, ht, -, h⟩
    exact ⟨u, v, ht, h⟩
  · rintro ⟨u, v, ht, h⟩
    exact ⟨u, v, ht, matches_star_any u, h⟩

/-- One character and what follows. -/
theorem matches_char_cat {r : Regexp Char} {l x : Option Char} {t : Text} {c : Char} :
    Regexp.Matches (.cat (if c = '.' then .any else .one c) r) l t x ↔
      ∃ a v, t = a :: v ∧ (c = '.' ∨ c = a) ∧ r.Matches (some a) v x := by
  have hchar : ∀ u y, Regexp.Matches (if c = '.' then .any else .one c) l u y ↔
      ∃ a, u = [a] ∧ (c = '.' ∨ c = a) := by
    intro u y
    by_cases hdot : c = '.'
    · simp [hdot, Regexp.any]
    · rw [if_neg hdot, Regexp.one, Regexp.matches_set]
      simp only [beq_iff_eq, hdot, false_or]
      exact exists_congr fun a => and_congr_right fun _ => eq_comm
  rw [Regexp.matches_cat]
  constructor
  · rintro ⟨u, v, rfl, hu, h⟩
    rcases (hchar u _).mp hu with ⟨a, rfl, ha⟩
    exact ⟨a, v, rfl, ha, h⟩
  · rintro ⟨a, v, rfl, ha, h⟩
    exact ⟨[a], v, rfl, (hchar _ _).mpr ⟨a, rfl, ha⟩, h⟩

/-- From a place on, an alternative matches a part of the text as its expression does. -/
theorem matchHere_iff (p : Text) (l : Option Char) (t : Text) :
    matchHere p l.isNone t = true ↔
      ∃ v w, t = v ++ w ∧ (branchOf p).Matches l v w.head? := by
  induction p using branchOf.induct generalizing l t with
  | case1 =>
    simp only [matchHere, branchOf, Regexp.matches_epsilon, true_iff]
    exact ⟨[], t, rfl, rfl⟩
  | case2 p ih =>
    simp only [matchHere, branchOf, Bool.and_eq_true, ih, Regexp.bol, Regexp.matches_assert_cat]
    constructor
    · rintro ⟨hl, v, w, ht, h⟩
      exact ⟨v, w, ht, hl, h⟩
    · rintro ⟨v, w, ht, hl, h⟩
      exact ⟨hl, v, w, ht, h⟩
  | case3 p ih =>
    simp only [matchHere, branchOf, Bool.and_eq_true, ih, Regexp.eol, Regexp.matches_assert_cat]
    constructor
    · rintro ⟨ht, v, w, rfl, h⟩
      rcases List.append_eq_nil_iff.mp (List.isEmpty_iff.mp ht) with ⟨rfl, rfl⟩
      exact ⟨[], [], rfl, rfl, h⟩
    · rintro ⟨v, w, rfl, hx, h⟩
      rw [← List.head?_append, Option.isNone_iff_eq_none, List.head?_eq_none_iff] at hx
      exact ⟨List.isEmpty_iff.mpr hx, v, w, rfl, h⟩
  | case4 p ih =>
    -- a star takes a part `u` of the text, and is no longer at the start if it is not empty
    have hsome : ∀ u : Text, u ≠ [] → (u.getLast?.or l).isNone = false := by
      intro u hu
      rw [List.getLast?_eq_some_getLast hu]
      rfl
    simp only [matchHere, branchOf, Bool.or_eq_true, List.any_eq_true, mem_tails_tail,
      matches_star_any_cat]
    constructor
    · rintro (h | ⟨t', ⟨u, hu, rfl⟩, h⟩)
      · rcases (ih l t).mp h with ⟨v, w, ht, h⟩
        exact ⟨v, w, ht, [], v, rfl, h⟩
      · rw [← hsome u hu] at h
        rcases (ih _ t').mp h with ⟨v, w, rfl, hm⟩
        exact ⟨u ++ v, w, (List.append_assoc _ _ _).symm, u, v, rfl, hm⟩
    · rintro ⟨_, w, rfl, u, v, rfl, h⟩
      by_cases hu : u = []
      · subst hu
        exact Or.inl ((ih l _).mpr ⟨v, w, rfl, h⟩)
      · refine Or.inr ⟨v ++ w, ⟨u, hu, List.append_assoc _ _ _⟩, ?_⟩
        rw [← hsome u hu]
        exact (ih _ _).mpr ⟨v, w, rfl, h⟩
  -- a character, or the dot: it takes the first character of the text
  | case5 c p hstart hend hstar ih =>
    rw [branchOf]
    · simp only [matches_char_cat]
      cases t with
      | nil =>
        rw [matchHere]
        · simp
        · exact hstart
        · exact hend
        · exact hstar
      | cons x t =>
        rw [matchHere]
        · rw [Bool.and_eq_true, Bool.or_eq_true, beq_iff_eq, beq_iff_eq,
            show false = (some x).isNone from rfl, ih]
          constructor
          · rintro ⟨hc, v, w, rfl, h⟩
            exact ⟨x :: v, w, rfl, x, v, rfl, hc, h⟩
          · rintro ⟨_, w, ht, a, v, rfl, hc, h⟩
            cases ht
            exact ⟨hc, v, w, rfl, h⟩
        · exact hstart
        · exact hend
        · exact hstar
    · exact hstart
    · exact hend
    · exact hstar

theorem searchAlternative_iff (t p : Text) :
    searchAlternative t p = true ↔ (branchOf p).Search t := by
  have hsome : ∀ u : Text, u ≠ [] → u.getLast?.isNone = false := by
    intro u hu
    rw [List.getLast?_eq_some_getLast hu]
    rfl
  have hfirst : matchHere p true t = matchHere p (none : Option Char).isNone t := rfl
  rw [searchAlternative, Bool.or_eq_true, hfirst, matchHere_iff]
  simp only [List.any_eq_true, mem_tails_tail]
  constructor
  · rintro (⟨v, w, ht, h⟩ | ⟨t', ⟨u, hu, rfl⟩, h⟩)
    · exact ⟨[], v, w, ht, h⟩
    · rw [← hsome u hu] at h
      rcases (matchHere_iff p _ t').mp h with ⟨v, w, rfl, hm⟩
      exact ⟨u, v, w, rfl, hm⟩
  · rintro ⟨u, v, w, rfl, h⟩
    by_cases hu : u = []
    · subst hu
      exact Or.inl ⟨v, w, rfl, h⟩
    · refine Or.inr ⟨v ++ w, ⟨u, hu, rfl⟩, ?_⟩
      rw [← hsome u hu]
      exact (matchHere_iff p _ _).mpr ⟨v, w, rfl, h⟩

/-! ### Anchors around alternatives -/

/-- The character is put behind the last alternative. -/
def appendLast (c : Char) : List Text → List Text
  | [] => []
  | [q] => [q ++ [c]]
  | q :: q' :: qs => q :: appendLast c (q' :: qs)

theorem splitOnP_concat {c : Char} (hc : c ≠ '|') (p : Text) :
    (p ++ [c]).splitOnP (· == '|') = appendLast c (p.splitOnP (· == '|')) := by
  induction p with
  | nil => simp [List.splitOnP_cons_eq_if_modifyHead, hc, appendLast]
  | cons x p ih =>
    have hne : p.splitOnP (· == '|') ≠ [] := List.splitOnP_ne_nil _ _
    rcases List.exists_cons_of_ne_nil hne with ⟨q, qs, hq⟩
    rw [List.cons_append, List.splitOnP_cons_eq_if_modifyHead, ih,
      List.splitOnP_cons_eq_if_modifyHead, hq]
    split
    · rfl
    · cases qs <;> rfl

/-- A last `$` is an end of the text. -/
theorem matches_branchOf_concat (p : Text) (l : Option Char) (t : Text) (x : Option Char) :
    (branchOf (p ++ ['$'])).Matches l t x ↔ Regexp.Matches (.cat (branchOf p) .eol) l t x := by
  induction p using branchOf.induct generalizing l t x with
  | case1 =>
    simp only [List.nil_append, branchOf, Regexp.eol, Regexp.epsilon,
      Regexp.matches_assert_cat, Regexp.matches_assert]
    constructor
    · rintro ⟨hx, rfl, -⟩
      exact ⟨trivial, rfl, hx⟩
    · rintro ⟨-, rfl, hx⟩
      exact ⟨hx, rfl, trivial⟩
  | case2 p ih =>
    rw [List.cons_append, branchOf, branchOf, Regexp.matches_cat_assoc]
    exact Regexp.matches_cat_congr ih
  | case3 p ih =>
    rw [List.cons_append, branchOf, branchOf, Regexp.matches_cat_assoc]
    exact Regexp.matches_cat_congr ih
  | case4 p ih =>
    rw [List.cons_append, List.cons_append, branchOf, branchOf, Regexp.matches_cat_assoc]
    exact Regexp.matches_cat_congr ih
  | case5 c p hstart hend hstar ih =>
    -- a dot before a last `$` is no dot before a star
    have hstar' : ∀ p', c = '.' → p ++ ['$'] = '*' :: p' → False := by
      intro p' hdot hp
      cases p with
      | nil => cases hp
      | cons d p =>
        cases hp
        exact hstar p hdot rfl
    rw [List.cons_append, branchOf, branchOf, Regexp.matches_cat_assoc]
    · exact Regexp.matches_cat_congr ih
    · exact hstart
    · exact hend
    · exact hstar
    · exact hstart
    · exact hend
    · exact hstar'

theorem search_appendLast {qs : List Text} (hqs : qs ≠ []) (t : Text) :
    (appendLast '$' qs).any (searchAlternative t) = true ↔
      ∃ b ∈ anchorLast (qs.map branchOf), b.Search t := by
  induction qs with
  | nil => exact absurd rfl hqs
  | cons q qs ih =>
    cases qs with
    | nil =>
      simp only [appendLast, List.any_cons, List.any_nil, Bool.or_false, searchAlternative_iff,
        List.map_cons, List.map_nil, anchorLast, List.mem_singleton, exists_eq_left,
        Regexp.Search, matches_branchOf_concat]
    | cons q' qs =>
      rw [appendLast, List.any_cons, Bool.or_eq_true, ih (List.cons_ne_nil q' qs),
        searchAlternative_iff]
      simp only [List.map_cons, anchorLast, List.mem_cons, or_and_right, exists_or,
        exists_eq_left]

theorem map_anchorFirst {qs : List Text} (hqs : qs ≠ []) :
    (qs.modifyHead (List.cons '^')).map branchOf = anchorFirst (qs.map branchOf) := by
  rcases List.exists_cons_of_ne_nil hqs with ⟨q, qs, rfl⟩
  rfl

theorem appendLast_modifyHead (c d : Char) (qs : List Text) :
    appendLast d (qs.modifyHead (List.cons c)) = (appendLast d qs).modifyHead (List.cons c) := by
  cases qs with
  | nil => rfl
  | cons q qs => cases qs <;> rfl

/-- Anchors are part of the first and of the last alternative. -/
theorem splitOnP_anchor (p : Text) :
    (anchor p).splitOnP (· == '|') =
      appendLast '$' ((p.splitOnP (· == '|')).modifyHead (List.cons '^')) := by
  rw [anchor, List.cons_append, List.splitOnP_cons_eq_if_modifyHead, if_neg (by decide),
    splitOnP_concat (by decide), appendLast_modifyHead]

theorem wildcards_find_anchor (p t : Text) :
    wildcards.find (anchor p) t = true ↔
      ∃ b ∈ anchorBranches ((p.splitOnP (· == '|')).map branchOf), b.Search t := by
  have hne : p.splitOnP (· == '|') ≠ [] := List.splitOnP_ne_nil _ p
  have hfirst : (p.splitOnP (· == '|')).modifyHead (List.cons '^') ≠ [] := by
    rw [ne_eq, List.modifyHead_eq_nil_iff]
    exact hne
  show ((anchor p).splitOnP (· == '|')).any (searchAlternative t) = true ↔ _
  rw [splitOnP_anchor, search_appendLast hfirst, map_anchorFirst hne, anchorBranches]

/-! ### Wildcard patterns -/

theorem ne_of_wildcardChar {c d : Char} (hc : c ∉ regexMetachars ∨ c = '*' ∨ c = '.')
    (hd : d ∈ regexMetachars) (hstar : d ≠ '*') (hdot : d ≠ '.') : c ≠ d := by
  rintro rfl
  rcases hc with hplain | rfl | rfl
  · exact hplain hd
  · exact hstar rfl
  · exact hdot rfl

theorem isWildcardPattern_cons {c : Char} {p : Text} :
    isWildcardPattern (c :: p) = true ↔
      (c ∉ regexMetachars ∨ c = '*' ∨ c = '.') ∧ isWildcardPattern p = true := by
  simp only [isWildcardPattern, List.all_cons, Bool.and_eq_true, decide_eq_true_eq]

theorem unsupported_subset : unsupported ⊆ regexMetachars := by decide

/-- The characters of a wildcard pattern that is searched for. -/
theorem mem_replaceStars {p : Text} (h : isWildcardPattern p = true) :
    ∀ c ∈ replaceStars p, c ∉ regexMetachars ∨ c = '*' ∨ c = '.' := by
  intro c hc
  rcases List.mem_flatMap.mp hc with ⟨d, hd, hcd⟩
  have hchar := of_decide_eq_true (List.all_eq_true.mp h d hd)
  split at hcd
  · rcases List.mem_pair.mp hcd with rfl | rfl
    · exact Or.inr (Or.inr rfl)
    · exact Or.inr (Or.inl rfl)
  · rw [List.mem_singleton.mp hcd]
    exact hchar

/-- A `*` stands behind a `.` only. -/
theorem replaceStars_ne_star (p q : Text) : replaceStars p ≠ '*' :: q := by
  cases p with
  | nil => simp [replaceStars]
  | cons c p =>
    by_cases hstar : c = '*'
    · simp [replaceStars, hstar]
    · simp [replaceStars, hstar]

/-- Every part of a wildcard pattern is searched for as what it stands for. -/
theorem branchOf_replaceStars {p : Text} (h : isWildcardPattern p = true) :
    branchOf (replaceStars p) = Pattern.regexp (p.map wildcard) := by
  induction p with
  | nil => rfl
  | cons c p ih =>
    rw [isWildcardPattern_cons] at h
    rcases h with ⟨hchar, hp⟩
    rw [List.map_cons, Pattern.regexp, ← ih hp]
    by_cases hstar : c = '*'
    · subst hstar
      rfl
    · have hcons : replaceStars (c :: p) = c :: replaceStars p := by
        simp [replaceStars, hstar]
      have hregexp : (wildcard c).regexp = if c = '.' then .any else .one c := by
        rw [wildcard, if_neg hstar]
        split <;> rfl
      rw [hcons, hregexp, branchOf]
      · rintro rfl
        exact absurd rfl (ne_of_wildcardChar hchar (d := '^') (by decide) (by decide) (by decide))
      · rintro rfl
        exact absurd rfl (ne_of_wildcardChar hchar (d := '$') (by decide) (by decide) (by decide))
      · intro q hdot hq
        exact replaceStars_ne_star p q hq

/-- There is one alternative. -/
theorem splitOnP_bar {p : Text} (h : '|' ∉ p) : p.splitOnP (· == '|') = [p] := by
  apply List.splitOnP_eq_singleton
  intro c hc
  rw [beq_eq_false_iff_ne]
  rintro rfl
  exact h hc

theorem wildcardsReading_eq {p : Text} (h : wildcards.error p = none) :
    wildcardsReading p = some ((p.splitOnP (· == '|')).map branchOf) := by
  have hread := wildcardsReading_isSome.mpr h
  simp only [wildcardsReading] at hread ⊢
  split
  · next herr => rw [if_pos herr] at hread; cases hread
  · rfl

theorem wildcards_standard : wildcards.Standard wildcardsReading where
  regular p h _ := wildcardsReading_isSome.mpr h
  anchor p bs hbs := by
    have hvalid := wildcardsReading_isSome.mp (Option.isSome_of_eq_some hbs)
    rw [wildcardsReading_eq hvalid, Option.some.injEq] at hbs
    subst hbs
    constructor
    · rw [wildcardsReading_isSome, wildcards_error]
      rw [wildcards_error] at hvalid
      intro c hc
      rw [anchor, List.cons_append, List.mem_cons, List.mem_append, List.mem_singleton] at hc
      -- only `^(` and `)$` have been added
      rcases hc with rfl | hc | rfl
      · decide
      · exact hvalid c hc
      · decide
    · exact wildcards_find_anchor p
  alternative p q hp hq := by
    constructor
    · rw [wildcardsReading_isSome, wildcards_error] at hp hq ⊢
      intro c hc
      rcases List.mem_append.mp hc with hc | hc
      · exact hp c hc
      · rcases List.mem_cons.mp hc with rfl | hc
        · decide
        · exact hq c hc
    · intro t
      show ((p ++ '|' :: q).splitOnP (· == '|')).any _ = _
      rw [List.splitOnP_append_cons p q (by rfl), List.any_append]
      rfl
  wildcards p h _ := by
    have hchars := mem_replaceStars h
    have hvalid : wildcards.error (replaceStars p) = none := by
      rw [wildcards_error]
      intro c hc hun
      rcases hchars c hc with hplain | rfl | rfl
      · exact hplain (unsupported_subset hun)
      · exact absurd hun (by decide)
      · exact absurd hun (by decide)
    -- replacing stars brings in no `|`, so there is one alternative
    have hbar : '|' ∉ replaceStars p := by
      intro hmem
      exact ne_of_wildcardChar (hchars _ hmem) (by decide) (by decide) (by decide) rfl
    rw [wildcardsReading_eq hvalid, splitOnP_bar hbar, List.map_singleton,
      branchOf_replaceStars h]

/-! ## Names of source files -/

/-- A literal has no wildcards. -/
theorem map_wildcard_literal {p : Text} (h : isLiteralERE p = true) :
    p.map wildcard = p.map .one := by
  apply List.map_congr_left
  intro c hc
  have hplain := of_decide_eq_true (List.all_eq_true.mp h c hc)
  have hstar : c ≠ '*' := by
    rintro rfl
    exact hplain (by decide)
  have hdot : c ≠ '.' := by
    rintro rfl
    exact hplain (by decide)
  rw [wildcard, if_neg hstar, if_neg hdot]

namespace ListEntry

variable {R : RegexEngine} {reading : Reading} {e : ListEntry}

theorem branches_pattern (hR : R.Standard reading) (h : isWildcardPattern e.regexp = true)
    (hlit : isLiteralERE e.regexp ≠ true) : e.branches reading = [e.pattern.regexp] := by
  have hne : e.regexp ≠ [] := by
    intro hnil
    rw [hnil] at hlit
    exact hlit rfl
  rw [branches, hR.wildcards _ h hne, Option.getD_some, pattern]

/-- Literals and wildcard patterns list the texts of their patterns. -/
theorem matchesWhole_pattern (hR : R.Standard reading) (h : isWildcardPattern e.regexp = true)
    (name : Text) : e.MatchesWhole reading name ↔ name ∈ language e.pattern := by
  rw [MatchesWhole]
  split
  · next hlit => rw [pattern, map_wildcard_literal hlit, mem_language_map_one]
  · next hlit =>
    simp only [branches_pattern hR h hlit, List.mem_singleton, exists_eq_left,
      Pattern.matches_regexp]

/-- They are found by these texts, too. -/
theorem accepts_pattern (hR : R.Standard reading) (h : isWildcardPattern e.regexp = true)
    (query : Text) : e.Accepts reading query ↔ query ∈ language e.pattern := by
  rw [← matchesWhole_pattern hR h, Accepts, MatchesWhole]
  split
  · exact Iff.rfl
  · next hlit =>
    simp only [branches_pattern hR h hlit, anchorBranches, anchorFirst, anchorLast,
      List.mem_singleton, exists_eq_left, Regexp.search_anchored]

/-- What the NUL behind a name asks of an entry. -/
theorem accepts_nul (e : ListEntry) (name : Text) :
    e.Accepts reading (name ++ [nul]) ↔ e.Overruns reading name := by
  rw [Accepts, Overruns]
  split
  · exact eq_comm
  · simp only [Regexp.search_concat_iff]

/-- A wildcard pattern takes the NUL with its last `*`, with a last `.` or with a NUL. -/
theorem overruns_pattern (hR : R.Standard reading) (h : isWildcardPattern e.regexp = true)
    (name : Text) :
    e.Overruns reading name ↔ ∃ p ∈ taking nul e.pattern, name ∈ language p := by
  rw [← accepts_nul, accepts_pattern hR h, concat_mem_iff]

/-- Where nothing but a last `*` can take a NUL, that is all that is asked. -/
theorem overruns_stops (hR : R.Standard reading) (h : isWildcardPattern e.regexp = true)
    (hstops : Stops nul e.pattern) (name : Text) :
    e.Overruns reading name ↔
      e.pattern.getLast? = some .many ∧ e.MatchesWhole reading name := by
  rw [← accepts_nul, accepts_pattern hR h, hstops.concat_mem_iff, matchesWhole_pattern hR h]

end ListEntry

section Names

variable {R : RegexEngine} {reading : Reading} {buffer : Text} {L : SpecialCaseList}

/-- The names that are answered are those that an entry goes on behind. -/
theorem isBlacklistedSrc_overruns (hR : R.Standard reading) (hL : parse R buffer = .ok L)
    (hback : NoBackrefs R "src".toList [] (entriesOf buffer)) (str : Text) :
    isBlacklistedSrc R L str = true ↔ ∃ e ∈ srcEntries buffer, e.Overruns reading str := by
  rw [isBlacklistedSrc, inSection_iff hR hL hback]
  simp only [srcEntries, List.mem_filter, decide_eq_true_eq, and_assoc, ListEntry.In,
    ListEntry.accepts_nul]

/-- A list of literals and of patterns that end in a character or in `*`: the names that it
answers are those that an entry with a last `*` matches. -/
theorem isBlacklistedSrc_stops (hR : R.Standard reading) (hL : parse R buffer = .ok L)
    (hback : NoBackrefs R "src".toList [] (entriesOf buffer))
    (hwild : ∀ e ∈ srcEntries buffer, isWildcardPattern e.regexp = true)
    (hstops : ∀ e ∈ srcEntries buffer, Stops nul e.pattern) (str : Text) :
    isBlacklistedSrc R L str = true ↔
      ∃ e ∈ srcEntries buffer,
        e.pattern.getLast? = some .many ∧ e.MatchesWhole reading str := by
  rw [isBlacklistedSrc_overruns hR hL hback]
  refine exists_congr fun e => and_congr_right fun he => ?_
  exact ListEntry.overruns_stops hR (hwild e he) (hstops e he) str

/-- No literal of a list without NUL bytes is the query, whatever name is asked for. -/
theorem isBlacklistedSrc_literals (hR : R.Standard reading) (hL : parse R buffer = .ok L)
    (hlit : ∀ e ∈ srcEntries buffer, isLiteralERE e.regexp = true)
    (hnul : ∀ e ∈ srcEntries buffer, nul ∉ e.regexp) (str : Text) :
    isBlacklistedSrc R L str = false := by
  have hback : NoBackrefs R "src".toList [] (entriesOf buffer) := by
    intro e he hin hpattern
    rw [hlit e (List.mem_filter.mpr ⟨he, decide_eq_true hin⟩)] at hpattern
    cases hpattern
  rw [← Bool.not_eq_true, isBlacklistedSrc_overruns hR hL hback]
  rintro ⟨e, he, hover⟩
  rw [ListEntry.Overruns, if_pos (hlit e he)] at hover
  apply hnul e he
  rw [hover]
  exact List.mem_append_right str (List.mem_singleton_self nul)

/-- A name is answered as the list says exactly when an entry that lists it goes on over the NUL
behind it, or when the entries that only list it and those that only go on are there together
or not at all. -/
theorem isBlacklistedSrc_iff (hR : R.Standard reading) (hL : parse R buffer = .ok L)
    (hback : NoBackrefs R "src".toList [] (entriesOf buffer)) (str : Text) :
    (isBlacklistedSrc R L str = true ↔
        ∃ e ∈ srcEntries buffer, e.MatchesWhole reading str) ↔
      (∃ e ∈ srcEntries buffer, e.MatchesWhole reading str ∧ e.Overruns reading str) ∨
      ((∃ e ∈ srcEntries buffer, e.MatchesWhole reading str ∧ ¬ e.Overruns reading str) ↔
        ∃ e ∈ srcEntries buffer, ¬ e.MatchesWhole reading str ∧ e.Overruns reading str) := by
  rw [isBlacklistedSrc_overruns hR hL hback]
  by_cases hboth : ∃ e ∈ srcEntries buffer, e.MatchesWhole reading str ∧ e.Overruns reading str
  · rcases hboth with ⟨e, he, hmatches, hover⟩
    exact iff_of_true (iff_of_true ⟨e, he, hover⟩ ⟨e, he, hmatches⟩)
      (Or.inl ⟨e, he, hmatches, hover⟩)
  · -- no entry does both, so each does one of them alone
    have halone : ∀ e ∈ srcEntries buffer,
        ¬ (e.MatchesWhole reading str ∧ e.Overruns reading str) := by
      intro e he h
      exact hboth ⟨e, he, h⟩
    have hlists : (∃ e ∈ srcEntries buffer, e.MatchesWhole reading str ∧
        ¬ e.Overruns reading str) ↔ ∃ e ∈ srcEntries buffer, e.MatchesWhole reading str := by
      refine exists_congr fun e => and_congr_right fun he => ?_
      exact and_iff_left_of_imp fun hmatches hover => halone e he ⟨hmatches, hover⟩
    have hgoes : (∃ e ∈ srcEntries buffer, ¬ e.MatchesWhole reading str ∧
        e.Overruns reading str) ↔ ∃ e ∈ srcEntries buffer, e.Overruns reading str := by
      refine exists_congr fun e => and_congr_right fun he => ?_
      exact and_iff_right_of_imp fun hover hmatches => halone e he ⟨hmatches, hover⟩
    rw [or_iff_right hboth, hlists, hgoes]
    exact iff_comm

end Names

/-- Every file of a directory is excluded, and one more by its name. -/
def libraryList : Text := "# libraries\nsrc:lib/*\nsrc:hello\n".toList

theorem libraryList_answers :
    ∃ L, parse wildcards libraryList = .ok L ∧
      (isBlacklistedSrc wildcards L "lib/a.cc".toList = true ↔
        ∃ e ∈ srcEntries libraryList, e.MatchesWhole wildcardsReading "lib/a.cc".toList) := by
  refine ⟨_, rfl, ?_⟩
  apply (isBlacklistedSrc_iff wildcards_standard rfl (fun _ _ _ _ => rfl) _).mpr
  have hentries : srcEntries libraryList =
      [⟨"src".toList, [], "lib/*".toList⟩, ⟨"src".toList, [], "hello".toList⟩] := rfl
  refine Or.inl ⟨⟨"src".toList, [], "lib/*".toList⟩, ?_, ?_, ?_⟩
  · rw [hentries]
    exact List.mem_cons_self
  · rw [ListEntry.matchesWhole_pattern wildcards_standard rfl, ← matchesPattern_iff]
    rfl
  · rw [ListEntry.overruns_pattern wildcards_standard rfl]
    refine ⟨_, List.mem_cons_self, ?_⟩
    rw [← matchesPattern_iff]
    rfl

/-- A literal and a pattern that end before the NUL: neither name is found. -/
theorem nul_behind_names :
    wildcards.Standard wildcardsReading ∧
    ∃ L, parse wildcards "src:hello\nsrc:*blacklist.cc\n".toList = .ok L ∧
      (∃ e ∈ srcEntries "src:hello\nsrc:*blacklist.cc\n".toList,
        e.MatchesWhole wildcardsReading "hello".toList) ∧
      isBlacklistedSrc wildcards L "hello".toList = false ∧
      (∃ e ∈ srcEntries "src:hello\nsrc:*blacklist.cc\n".toList,
        e.MatchesWhole wildcardsReading "TestCases/blacklist.cc".toList) ∧
      isBlacklistedSrc wildcards L "TestCases/blacklist.cc".toList = false := by
  have hentries : srcEntries "src:hello\nsrc:*blacklist.cc\n".toList =
      [⟨"src".toList, [], "hello".toList⟩, ⟨"src".toList, [], "*blacklist.cc".toList⟩] := rfl
  refine ⟨wildcards_standard, _, rfl, ?_, ?_, ?_, ?_⟩
  · refine ⟨⟨"src".toList, [], "hello".toList⟩, ?_, ?_⟩
    · rw [hentries]
      exact List.mem_cons_self
    · rw [ListEntry.matchesWhole_pattern wildcards_standard rfl, ← matchesPattern_iff]
      rfl
  · decide +kernel
  · refine ⟨⟨"src".toList, [], "*blacklist.cc".toList⟩, ?_, ?_⟩
    · rw [hentries]
      exact List.mem_cons_of_mem _ List.mem_cons_self
    · rw [ListEntry.matchesWhole_pattern wildcards_standard rfl, ← matchesPattern_iff]
      rfl
  · decide +kernel

end Caver.CodeGen
