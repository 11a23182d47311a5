import Caver.Sanitizer.SuppressionLines

/-!
# Caver.Sanitizer.SuppressionFile — what a file of suppressions says

* `readFileToBuffer_spec`: the file is read whole, whatever the single reads return.
* `initIfNecessary_answers`: the runtime starts if and only if each line can be read, and
  all later calls are answered as the lines say.
* `printed_read_back`: suppressions that are written line by line are read back.
-/

namespace Caver.Sanitizer

open List

/-! ## The file in the buffer -/

namespace FileSystem

variable (fs : FileSystem) (file : List Char)

theorem internalRead_take (size n : ℕ) :
    file.take n ++ fs.internalRead file size n =
      file.take (n + min fs.pageSize (fs.available size n + 1)) := by
  rw [internalRead, List.take_add]

/-- The end of the file is reached where a page is left behind it. -/
theorem readLoop_spec (size n : ℕ) (hn : n ≤ file.length) :
    (file.length + fs.pageSize ≤ size → fs.readLoop file size (file.take n) = (file, true)) ∧
      (size < file.length + fs.pageSize → (fs.readLoop file size (file.take n)).2 = false) := by
  induction hrest : file.length - n using Nat.strong_induction_on generalizing n with
  | _ rest ih =>
    have hlength : (file.take n).length = n := by
      rw [List.length_take]
      omega
    rw [readLoop, hlength]
    by_cases hroom : n + fs.pageSize ≤ size
    · rw [dif_pos hroom]
      have hpos := fs.pageSize_pos
      by_cases hend : n = file.length
      · have hread : (fs.internalRead file size n).length = 0 := by
          simp [internalRead, hend]
        rw [dif_pos hread, hend, List.take_length]
        exact ⟨fun _ => rfl, fun h => by omega⟩
      · have hread : (fs.internalRead file size n).length =
            min (min fs.pageSize (fs.available size n + 1)) (file.length - n) := by
          rw [internalRead, List.length_take, List.length_drop]
        rw [dif_neg (by omega), internalRead_take]
        by_cases hlast : n + min fs.pageSize (fs.available size n + 1) ≤ file.length
        · exact ih _ (by omega) _ hlast rfl
        · rw [List.take_of_length_le (Nat.le_of_not_le hlast)]
          have hih := ih 0 (by omega) file.length (Nat.le_refl _) (Nat.sub_self _)
          rwa [List.take_length] at hih
    · rw [dif_neg hroom]
      exact ⟨fun h => by omega, fun _ => rfl⟩

/-- A buffer with a page behind the file holds it, and ends in zeros. -/
theorem growLoop_last {maxLen size : ℕ} (hsize : 0 < size) (buffer : List Char × ℕ)
    (hle : size ≤ maxLen) (hroom : file.length + fs.pageSize ≤ size) :
    ∃ zeros, fs.growLoop file maxLen size hsize buffer =
      (file ++ List.replicate (zeros + 1) terminator, file.length) := by
  have hpos := fs.pageSize_pos
  have hread : fs.readLoop file size [] = (file, true) :=
    (fs.readLoop_spec file size 0 (Nat.zero_le _)).1 hroom
  have hzeros : size - file.length - 1 + 1 = size - file.length :=
    Nat.sub_add_cancel (by omega)
  use size - file.length - 1
  rw [growLoop, dif_pos hle, hread, hzeros]
  rfl

theorem growLoop_spec {maxLen size j : ℕ} (hsize : 0 < size) (buffer : List Char × ℕ)
    (hle : size * 2 ^ j ≤ maxLen) (hroom : file.length + fs.pageSize ≤ size * 2 ^ j) :
    ∃ zeros, fs.growLoop file maxLen size hsize buffer =
      (file ++ List.replicate (zeros + 1) terminator, file.length) := by
  induction j generalizing size buffer with
  | zero =>
    rw [pow_zero, Nat.mul_one] at hle hroom
    exact fs.growLoop_last file hsize buffer hle hroom
  | succ j ih =>
    have hdouble : size * 2 ^ (j + 1) = size * 2 * 2 ^ j := by rw [pow_succ', Nat.mul_assoc]
    have hfirst : size ≤ maxLen :=
      Nat.le_trans (Nat.le_mul_of_pos_right size (Nat.two_pow_pos (j + 1))) hle
    by_cases hnow : file.length + fs.pageSize ≤ size
    · exact fs.growLoop_last file hsize buffer hfirst hnow
    · have hmore : (fs.readLoop file size []).2 = false :=
        (fs.readLoop_spec file size 0 (Nat.zero_le _)).2 (Nat.lt_of_not_le hnow)
      rw [growLoop, dif_pos hfirst]
      simp only [hmore, Bool.false_eq_true, if_false]
      rw [hdouble] at hle hroom
      exact ih (Nat.mul_pos hsize (by decide)) _ hle hroom

/-- The whole file is read, and a NUL is behind it. -/
theorem readFileToBuffer_spec {fileName : List Char} (hfile : fs.contents fileName = some file)
    (hroom : file.length + fs.pageSize ≤ 2 ^ 26) :
    ∃ zeros, fs.readFileToBuffer fileName (2 ^ 26) =
      (file ++ List.replicate (zeros + 1) terminator, file.length) := by
  have hmax : fs.pageSize * 2 ^ (26 - fs.pageBits) = 2 ^ 26 := by
    rw [pageSize, ← pow_add, Nat.add_sub_of_le fs.pageBits_le]
  rw [readFileToBuffer, hfile]
  exact fs.growLoop_spec file fs.pageSize_pos _ hmax.le (hmax ▸ hroom)

end FileSystem

/-! ## Texts and lines -/

theorem unlines_linesOf (text : List Char) : unlines (linesOf text) = text :=
  List.intercalate_splitOn '\n'

theorem linesOf_cons (x : Char) (text : List Char) :
    linesOf (x :: text) =
      if x = '\n' then [] :: linesOf text else (linesOf text).modifyHead (x :: ·) := by
  simp [linesOf, List.splitOn_cons_eq_if_modifyHead]

theorem mem_linesOf {text raw : List Char} {c : Char} (hraw : raw ∈ linesOf text) (hc : c ∈ raw) :
    c ∈ text ∧ c ≠ '\n' := by
  induction text generalizing raw with
  | nil =>
    rw [linesOf, List.splitOn_nil, List.mem_singleton] at hraw
    rw [hraw] at hc
    cases hc
  | cons x text ih =>
    rw [linesOf_cons] at hraw
    split at hraw
    · rcases List.mem_cons.1 hraw with rfl | hraw
      · cases hc
      · exact ⟨List.mem_cons_of_mem x (ih hraw hc).1, (ih hraw hc).2⟩
    · next hx =>
      cases hlines : linesOf text with
      | nil => exact absurd hlines (List.splitOn_ne_nil _ _)
      | cons r rs =>
        rw [hlines, List.modifyHead_cons] at hraw
        rcases List.mem_cons.1 hraw with rfl | hraw
        · rcases List.mem_cons.1 hc with rfl | hc
          · exact ⟨List.mem_cons_self, hx⟩
          · have hmem : r ∈ linesOf text := hlines ▸ List.mem_cons_self
            exact ⟨List.mem_cons_of_mem x (ih hmem hc).1, (ih hmem hc).2⟩
        · have hmem : raw ∈ linesOf text := hlines ▸ List.mem_cons_of_mem r hraw
          exact ⟨List.mem_cons_of_mem x (ih hmem hc).1, (ih hmem hc).2⟩

theorem length_linesOf_le (text : List Char) : (linesOf text).length ≤ text.length + 1 := by
  induction text with
  | nil => simp [linesOf]
  | cons x text ih =>
    rw [linesOf_cons, List.length_cons]
    split
    · exact Nat.succ_le_succ ih
    · rw [List.length_modifyHead]
      exact Nat.le_succ_of_le ih

theorem endedBy_of_mem_linesOf {text raw : List Char} (hnul : terminator ∉ text)
    (hraw : raw ∈ linesOf text) : EndedBy raw terminator :=
  ⟨fun hmem => (mem_linesOf hraw hmem).2 rfl, fun hmem => hnul (mem_linesOf hraw hmem).1,
    .inr rfl⟩

/-- The bytes up to the first NUL, which ends them. -/
theorem zeroed_eq (file : List Char) (zeros : ℕ) :
    terminator ∉ cString file ∧ ∃ rest,
      file ++ List.replicate (zeros + 1) terminator = cString file ++ terminator :: rest := by
  constructor
  · intro hmem
    simpa using List.mem_takeWhile_imp hmem
  · have hsplit : cString file ++ file.dropWhile (· ≠ terminator) = file :=
      List.takeWhile_append_dropWhile
    have hfirst := List.head?_dropWhile_not (· ≠ terminator) file
    cases hrest : file.dropWhile (· ≠ terminator) with
    | nil =>
      rw [hrest, List.append_nil] at hsplit
      rw [hsplit, List.replicate_succ]
      exact ⟨_, rfl⟩
    | cons c rest =>
      rw [hrest, List.head?_cons] at hfirst
      have hc : c = terminator := by simpa using hfirst
      rw [hrest, hc] at hsplit
      use rest ++ List.replicate (zeros + 1) terminator
      rw [← List.cons_append, ← List.append_assoc, hsplit]

/-! ## Parsing a file -/

section Parse

variable {text : List Char}

theorem parse_eq (bytes : List Char) :
    SuppressionContext.parse ⟨[], true⟩ bytes =
      (parseLoop bytes (bytes.length + 1) 0 [] >>= fun ss => .ok ⟨ss, true⟩) := rfl

theorem length_linesOf_fuel (text rest : List Char) :
    (linesOf text).length ≤ (text ++ terminator :: rest).length + 1 := by
  have hle := length_linesOf_le text
  rw [List.length_append]
  omega

/-- What the lines say, in their order. -/
theorem parse_rules (hnul : terminator ∉ text) {rules : List (Option (SuppressionType × Template))}
    (hrules : Forall₂ LineRule (linesOf text) rules) (rest : List Char) :
    SuppressionContext.parse ⟨[], true⟩ (text ++ terminator :: rest) =
      .ok (contextOf rules.reduceOption true) := by
  have hloop := parseLoop_rules hrules (List.splitOn_ne_nil _ _)
    (fun raw hraw => endedBy_of_mem_linesOf hnul hraw) (length_linesOf_fuel text rest) [] rest []
  rw [unlines_linesOf, List.nil_append, List.length_nil] at hloop
  rw [parse_eq, hloop]
  rfl

theorem parse_failure (hnul : terminator ∉ text) (hbad : ∃ raw ∈ linesOf text, ¬ Readable raw)
    (rest : List Char) :
    ∃ e, SuppressionContext.parse ⟨[], true⟩ (text ++ terminator :: rest) = .error e ∧
      (e = .overread ↔ Unfinished (linesOf text)) := by
  rcases parseLoop_failure hbad (fun raw hraw => endedBy_of_mem_linesOf hnul hraw)
    (length_linesOf_fuel text rest) [] rest [] with ⟨e, he, hover⟩
  rw [unlines_linesOf, List.nil_append, List.length_nil] at he
  refine ⟨e, ?_, hover⟩
  rw [parse_eq, he]
  rfl

theorem exists_rules {raws : List (List Char)} (h : ∀ raw ∈ raws, Readable raw) :
    ∃ rules, Forall₂ LineRule raws rules := by
  induction raws with
  | nil => exact ⟨[], .nil⟩
  | cons raw raws ih =>
    rcases h raw List.mem_cons_self with ⟨rule, hrule⟩
    rcases ih (fun r hr => h r (List.mem_cons_of_mem _ hr)) with ⟨rules, hrules⟩
    exact ⟨rule :: rules, .cons hrule hrules⟩

end Parse

/-! ## The answers -/

/-- A line of the type has a template that finds the name, as `TemplateMatch` reads it. -/
def Suppressed (raws : List (List Char)) (str : List Char) (type : SuppressionType) : Prop :=
  ∃ raw ∈ raws, ∃ text, Says raw type text ∧ Matches (cut text) str ∧ Settled (cut text) str

/-- The rules of the lines, and what the lines say. -/
theorem mem_rules_iff {raws : List (List Char)}
    {rules : List (Option (SuppressionType × Template))} (h : Forall₂ LineRule raws rules)
    (P : SuppressionType → List Char → Prop) :
    (∃ rule ∈ rules.reduceOption, P rule.1 rule.2.text) ↔
      ∃ raw ∈ raws, ∃ type text, Says raw type text ∧ P type text := by
  induction h with
  | nil => simp [List.reduceOption]
  | @cons raw rule raws rules hrule _ ih =>
    rw [List.exists_mem_cons_iff, ← ih]
    cases rule with
    | none =>
      have hsilent : ¬ ∃ type text, Says raw type text ∧ P type text := by
        rintro ⟨type, text, htext, -⟩
        exact htext.not_silent hrule
      rw [List.reduceOption_cons_of_none]
      exact ⟨.inr, fun h => h.resolve_left hsilent⟩
    | some rule =>
      have htext : (∃ type text, Says raw type text ∧ P type text) ↔ P rule.1 rule.2.text := by
        constructor
        · rintro ⟨type, text, htext, hp⟩
          rcases Says.unique htext hrule with ⟨rfl, rfl⟩
          exact hp
        · exact fun hp => ⟨rule.1, rule.2.text, hrule, hp⟩
      rw [List.reduceOption_cons_of_some, List.exists_mem_cons_iff, htext]

/-- One call leaves the templates as they were. -/
theorem matchSuppression_lines {raws : List (List Char)}
    {rules : List (Option (SuppressionType × Template))} (h : Forall₂ LineRule raws rules)
    (canParse : Bool) {str : List Char} (hstr : str ≠ []) (type : SuppressionType) :
    ∃ found, matchSuppression (contextOf rules.reduceOption canParse) str type =
        some (found, contextOf rules.reduceOption false) ∧
      (found = true ↔ Suppressed raws str type) := by
  rcases matchSuppression_spec rules.reduceOption canParse hstr type with ⟨found, hrun, hfound⟩
  refine ⟨found, hrun, ?_⟩
  have hrules := mem_rules_iff h fun type' text =>
    type' = type ∧ Matches (cut text) str ∧ Settled (cut text) str
  rw [hfound, hrules]
  constructor
  · rintro ⟨raw, hraw, type', text, htext, rfl, hmatch⟩
    exact ⟨raw, hraw, text, htext, hmatch⟩
  · rintro ⟨raw, hraw, text, htext, hmatch⟩
    exact ⟨raw, hraw, type, text, htext, rfl, hmatch⟩

/-- All calls: each is answered as if it were the first. -/
theorem matchAll_lines {raws : List (List Char)}
    {rules : List (Option (SuppressionType × Template))} (h : Forall₂ LineRule raws rules)
    (canParse : Bool) (queries : List (List Char × SuppressionType))
    (hqueries : ∀ q ∈ queries, q.1 ≠ []) :
    ∃ answers ctx, matchAll (contextOf rules.reduceOption canParse) queries =
        some (answers, ctx) ∧
      Forall₂ (fun q found => found = true ↔ Suppressed raws q.1 q.2) queries answers := by
  induction queries generalizing canParse with
  | nil => exact ⟨[], _, rfl, .nil⟩
  | cons q queries ih =>
    rcases matchSuppression_lines h canParse (hqueries q List.mem_cons_self) q.2 with
      ⟨found, hrun, hfound⟩
    rcases ih false (fun r hr => hqueries r (List.mem_cons_of_mem _ hr)) with
      ⟨answers, ctx, hrest, hanswers⟩
    refine ⟨found :: answers, ctx, ?_, .cons hfound hanswers⟩
    rw [matchAll, hrun]
    change (matchAll _ _ >>= _) = _
    rw [hrest]
    rfl

/-! ## The runtime -/

section Init

variable {fs : FileSystem} {name file : List Char}

theorem initIfNecessary_eq (hname : name ≠ []) (hfile : fs.contents name = some file)
    (hne : file ≠ []) (hroom : file.length + fs.pageSize ≤ 2 ^ 26) :
    ∃ rest, initIfNecessary fs name none =
      SuppressionContext.parse ⟨[], true⟩ (cString file ++ terminator :: rest) := by
  rcases fs.readFileToBuffer_spec file hfile hroom with ⟨zeros, hread⟩
  rcases (zeroed_eq file zeros).2 with ⟨rest, hrest⟩
  have hlength : file.length ≠ 0 := fun h => hne (List.length_eq_zero_iff.1 h)
  use rest
  rw [initIfNecessary, if_neg hname, hread]
  change (if file.length = 0 then _ else _) = _
  rw [if_neg hlength, hrest]

theorem initIfNecessary_readable (hname : name ≠ []) (hfile : fs.contents name = some file)
    (hne : file ≠ []) (hroom : file.length + fs.pageSize ≤ 2 ^ 26)
    (hreadable : ∀ raw ∈ linesOf (cString file), Readable raw) :
    ∃ rules, Forall₂ LineRule (linesOf (cString file)) rules ∧
      initIfNecessary fs name none = .ok (contextOf rules.reduceOption true) := by
  rcases initIfNecessary_eq hname hfile hne hroom with ⟨rest, hinit⟩
  rcases exists_rules hreadable with ⟨rules, hrules⟩
  refine ⟨rules, hrules, ?_⟩
  rw [hinit, parse_rules (zeroed_eq file 0).1 hrules]

theorem initIfNecessary_unreadable (hname : name ≠ []) (hfile : fs.contents name = some file)
    (hne : file ≠ []) (hroom : file.length + fs.pageSize ≤ 2 ^ 26)
    (hbad : ∃ raw ∈ linesOf (cString file), ¬ Readable raw) :
    ∃ e, initIfNecessary fs name none = .error e ∧
      (e = .overread ↔ Unfinished (linesOf (cString file))) := by
  rcases initIfNecessary_eq hname hfile hne hroom with ⟨rest, hinit⟩
  rw [hinit]
  exact parse_failure (zeroed_eq file 0).1 hbad rest

/-- The suppressions of a runtime that has started are those of the lines. -/
theorem accepted_rules {ctx : SuppressionContext} (hname : name ≠ [])
    (hfile : fs.contents name = some file) (hne : file ≠ [])
    (hroom : file.length + fs.pageSize ≤ 2 ^ 26)
    (hctx : initIfNecessary fs name none = .ok ctx) :
    ∃ rules, Forall₂ LineRule (linesOf (cString file)) rules ∧
      ctx = contextOf rules.reduceOption true := by
  by_cases hreadable : ∀ raw ∈ linesOf (cString file), Readable raw
  · rcases initIfNecessary_readable hname hfile hne hroom hreadable with ⟨rules, hrules, hinit⟩
    rw [hinit] at hctx
    exact ⟨rules, hrules, (Except.ok.inj hctx).symm⟩
  · have hbad : ∃ raw ∈ linesOf (cString file), ¬ Readable raw := by
      simpa using hreadable
    rcases initIfNecessary_unreadable hname hfile hne hroom hbad with ⟨e, he, -⟩
    rw [he] at hctx
    cases hctx

/-- The runtime starts if and only if each line can be read, and answers as the lines say. It
reads behind its own strings if and only if the file ends behind a type. -/
theorem initIfNecessary_answers (hname : name ≠ []) (hfile : fs.contents name = some file)
    (hne : file ≠ []) (hroom : file.length + fs.pageSize ≤ 2 ^ 26) :
    ((∃ ctx, initIfNecessary fs name none = .ok ctx) ↔
        ∀ raw ∈ linesOf (cString file), Readable raw) ∧
      (initIfNecessary fs name none = .error .overread ↔
        Unfinished (linesOf (cString file))) ∧
      ∀ ctx, initIfNecessary fs name none = .ok ctx →
        ∀ queries : List (List Char × SuppressionType), (∀ q ∈ queries, q.1 ≠ []) →
          ∃ answers ctx', matchAll ctx queries = some (answers, ctx') ∧
            Forall₂ (fun q found => found = true ↔
              Suppressed (linesOf (cString file)) q.1 q.2) queries answers := by
  have hanswers : ∀ ctx, initIfNecessary fs name none = .ok ctx →
      ∀ queries : List (List Char × SuppressionType), (∀ q ∈ queries, q.1 ≠ []) →
        ∃ answers ctx', matchAll ctx queries = some (answers, ctx') ∧
          Forall₂ (fun q found => found = true ↔
            Suppressed (linesOf (cString file)) q.1 q.2) queries answers := by
    intro ctx hctx queries hqueries
    rcases accepted_rules hname hfile hne hroom hctx with ⟨rules, hrules, rfl⟩
    exact matchAll_lines hrules true queries hqueries
  -- if each line can be read the runtime starts; else the first one that cannot stops it
  by_cases hreadable : ∀ raw ∈ linesOf (cString file), Readable raw
  · rcases initIfNecessary_readable hname hfile hne hroom hreadable with ⟨rules, -, hinit⟩
    refine ⟨⟨fun _ => hreadable, fun _ => ⟨_, hinit⟩⟩, ?_, hanswers⟩
    rw [hinit]
    constructor
    · intro h
      cases h
    · intro hunfinished
      rcases hunfinished.bad with ⟨raw, hraw, hbad⟩
      exact absurd (hreadable raw hraw) hbad
  · have hbad : ∃ raw ∈ linesOf (cString file), ¬ Readable raw := by
      simpa using hreadable
    rcases initIfNecessary_unreadable hname hfile hne hroom hbad with ⟨e, he, hover⟩
    refine ⟨⟨fun ⟨ctx, h⟩ => ?_, fun h => absurd h hreadable⟩, ?_, hanswers⟩
    · rw [he] at h
      cases h
    · rw [he, ← hover]
      exact ⟨fun h => Except.error.inj h, fun h => h ▸ rfl⟩

/-- `cast_src_type:E*`, in reads of three bytes. -/
def ruleFile : FileSystem where
  pageBits := 12
  pageBits_le := by decide
  contents _ := some "cast_src_type:E*\n".toList
  available _ _ := 2

theorem ruleFile_lines : linesOf (cString "cast_src_type:E*\n".toList) =
    ["cast_src_type:E*".toList, []] := by decide

theorem ruleFile_readable :
    ∀ raw ∈ linesOf (cString "cast_src_type:E*\n".toList), Readable raw := by
  rw [ruleFile_lines]
  intro raw hraw
  rcases List.mem_pair.1 hraw with rfl | rfl
  · have htext : Says "cast_src_type:E*".toList .castSrcType ['E', '*'] := by decide
    exact ⟨some (.castSrcType, ⟨['E', '*'], by decide⟩), htext⟩
  · have hsilent : Silent [] := by decide
    exact ⟨none, hsilent⟩

/-- The one line of the file says `E*`. -/
theorem ruleFile_suppressed {str : List Char} :
    Suppressed (linesOf (cString "cast_src_type:E*\n".toList)) str .castSrcType ↔
      Matches ['E', '*'] str := by
  have hrule : Says "cast_src_type:E*".toList .castSrcType ['E', '*'] := by decide
  have hcut : cut ['E', '*'] = ['E', '*'] := by decide
  rw [ruleFile_lines]
  constructor
  · rintro ⟨raw, hraw, text, hline, hmatches, -⟩
    rcases List.mem_pair.1 hraw with rfl | rfl
    · -- a line says one thing only
      have htext := List.append_cancel_left (hline.symm.trans hrule)
      rw [List.cons.injEq] at htext
      rwa [htext.2, hcut] at hmatches
    · exact absurd hline.symm (List.append_ne_nil_of_right_ne_nil _ (List.cons_ne_nil _ _))
  · intro hmatches
    refine ⟨_, List.mem_cons_self, ['E', '*'], hrule, ?_, ?_⟩
    · rwa [hcut]
    · rw [hcut]
      intro hdollar
      exact absurd hdollar (by decide)

/-- `Es` is suppressed and `F` is not, in either order. -/
theorem ruleFile_answers :
    ∃ ctx ctx', initIfNecessary ruleFile ['f'] none = .ok ctx ∧
      initIfNecessary ruleFile ['f'] none ≠ .error .overread ∧
      matchAll ctx [(['E', 's'], .castSrcType), (['F'], .castSrcType), (['E', 's'], .castSrcType)] =
        some ([true, false, true], ctx') := by
  have hfile : ruleFile.contents ['f'] = some "cast_src_type:E*\n".toList := rfl
  have hanswers := initIfNecessary_answers (List.cons_ne_nil 'f' []) hfile (by decide) (by decide)
  rcases hanswers.1.2 ruleFile_readable with ⟨ctx, hctx⟩
  have hnames : ∀ q ∈ [(['E', 's'], SuppressionType.castSrcType), (['F'], .castSrcType),
      (['E', 's'], .castSrcType)], q.1 ≠ [] := by
    simp
  rcases hanswers.2.2 ctx hctx _ hnames with ⟨answers, ctx', hrun, hfound⟩
  have hyes : Matches ['E', '*'] ['E', 's'] := by decide
  have hno : ¬ Matches ['E', '*'] ['F'] := by decide
  simp only [ruleFile_suppressed, forall₂_cons_left_iff, forall₂_nil_left_iff] at hfound
  rcases hfound with
    ⟨first, _, hfirst, ⟨second, _, hsecond, ⟨third, _, hthird, rfl, rfl⟩, rfl⟩, rfl⟩
  have hfirst' : first = true := hfirst.mpr hyes
  have hsecond' : second = false := Bool.eq_false_iff.mpr fun h => hno (hsecond.mp h)
  have hthird' : third = true := hthird.mpr hyes
  rw [hfirst', hsecond', hthird'] at hrun
  refine ⟨ctx, ctx', hctx, ?_, hrun⟩
  intro hover
  rcases (hanswers.2.1.1 hover).bad with ⟨raw, hraw, hbad⟩
  exact hbad (ruleFile_readable raw hraw)

end Init

/-! ## Printing -/

/-- The rule on a line of its own. -/
def printRule (rule : SuppressionType × Template) : List Char :=
  suppressionTypeString rule.1 ++ ':' :: rule.2.text

def printed (rules : List (SuppressionType × Template)) : List Char :=
  rules.flatMap fun rule => printRule rule ++ ['\n']

/-- On one line, and without a blank at the end. -/
structure Printable (t : Template) : Prop where
  line : '\n' ∉ t.text
  tight : ∀ h : t.text ≠ [], isBlank (t.text.getLast h) = false

theorem dropWhile_typeString (type : SuppressionType) (s : List Char) :
    (suppressionTypeString type ++ s).dropWhile isBlank = suppressionTypeString type ++ s := by
  cases hname : suppressionTypeString type with
  | nil => exact absurd hname (suppressionTypeString_ne_nil type)
  | cons c name =>
    have hc : c ∈ suppressionTypeString type := hname ▸ List.mem_cons_self
    rw [List.cons_append, List.dropWhile_cons_of_neg]
    simp [(mem_suppressionTypeString hc).2.2.2.2]

theorem says_printRule {rule : SuppressionType × Template} (h : Printable rule.2) :
    Says (printRule rule) rule.1 rule.2.text := by
  rw [says_iff]
  refine ⟨rule.2.text, dropWhile_typeString rule.1 _, ?_⟩
  symm
  rw [rdropWhile_eq_self_iff]
  intro hne
  simp [h.tight hne]

theorem not_mem_printRule {rule : SuppressionType × Template} {c : Char}
    (hname : c ∉ suppressionTypeString rule.1) (hcolon : c ≠ ':') (htext : c ∉ rule.2.text) :
    c ∉ printRule rule := by
  simp [printRule, hname, hcolon, htext]

theorem linesOf_printed {rules : List (SuppressionType × Template)}
    (h : ∀ rule ∈ rules, Printable rule.2) :
    linesOf (printed rules) = rules.map printRule ++ [[]] := by
  induction rules with
  | nil => rfl
  | cons rule rules ih =>
    have hline : '\n' ∉ printRule rule :=
      not_mem_printRule (fun hmem => (mem_suppressionTypeString hmem).2.2.1 rfl) (by decide)
        (h rule List.mem_cons_self).line
    have hprinted : printed (rule :: rules) = printRule rule ++ '\n' :: printed rules := by
      simp [printed]
    have hrest := ih fun r hr => h r (List.mem_cons_of_mem _ hr)
    rw [hprinted, linesOf, List.splitOn_append_cons_self, List.splitOn_eq_singleton hline]
    change [printRule rule] ++ linesOf (printed rules) = _
    rw [hrest]
    rfl

theorem rules_printed {rules : List (SuppressionType × Template)}
    (h : ∀ rule ∈ rules, Printable rule.2) :
    Forall₂ LineRule (rules.map printRule ++ [[]]) (rules.map some ++ [none]) := by
  induction rules with
  | nil => exact .cons (.inl rfl) .nil
  | cons rule rules ih =>
    exact .cons (says_printRule (h rule List.mem_cons_self))
      (ih fun r hr => h r (List.mem_cons_of_mem _ hr))

theorem reduceOption_printed (rules : List (SuppressionType × Template)) :
    (rules.map some ++ [none]).reduceOption = rules := by
  simp [List.reduceOption]

theorem cString_printed (rules : List (SuppressionType × Template)) :
    cString (printed rules) = printed rules := by
  apply List.takeWhile_eq_self_iff.2
  intro c hc
  rcases List.mem_flatMap.1 hc with ⟨rule, -, hmem⟩
  have hrule : terminator ∉ printRule rule :=
    not_mem_printRule (fun hmem => (mem_suppressionTypeString hmem).2.2.2.1 rfl) (by decide)
      rule.2.complete
  rw [decide_eq_true_iff]
  rintro rfl
  rcases List.mem_append.1 hmem with hmem | hmem
  · exact hrule hmem
  · exact absurd hmem (by decide)

section Printed

variable {fs : FileSystem} {name : List Char}

/-- Suppressions that are printed are read back. -/
theorem printed_read_back {rules : List (SuppressionType × Template)} (hrules : rules ≠ [])
    (hprint : ∀ rule ∈ rules, Printable rule.2) (hname : name ≠ [])
    (hfile : fs.contents name = some (printed rules))
    (hroom : (printed rules).length + fs.pageSize ≤ 2 ^ 26) :
    initIfNecessary fs name none = .ok (contextOf rules true) := by
  have hne : printed rules ≠ [] := by
    cases rules with
    | nil => exact absurd rfl hrules
    | cons rule rules => simp [printed]
  have hlines := rules_printed hprint
  rw [← linesOf_printed hprint] at hlines
  rcases initIfNecessary_eq hname hfile hne hroom with ⟨rest, hinit⟩
  have hnul := (zeroed_eq (printed rules) 0).1
  rw [cString_printed] at hinit hnul
  rw [hinit, parse_rules hnul hlines, reduceOption_printed]

theorem ruleFile_read_back :
    initIfNecessary ruleFile ['f'] none =
      .ok (contextOf [(.castSrcType, ⟨['E', '*'], by decide⟩)] true) := by
  have hprint : ∀ rule ∈ [(SuppressionType.castSrcType, (⟨['E', '*'], by decide⟩ : Template))],
      Printable rule.2 := by
    intro rule hrule
    rw [List.mem_singleton.1 hrule]
    exact ⟨by decide, fun _ => rfl⟩
  have hfile : ruleFile.contents ['f'] =
      some (printed [(.castSrcType, ⟨['E', '*'], by decide⟩)]) := by decide
  exact printed_read_back (List.cons_ne_nil _ _) hprint (List.cons_ne_nil 'f' []) hfile
    (by decide)

/-- What has been read can be printed. -/
theorem accepted_printable {file : List Char} {ctx : SuppressionContext} (hname : name ≠ [])
    (hfile : fs.contents name = some file) (hne : file ≠ [])
    (hroom : file.length + fs.pageSize ≤ 2 ^ 26)
    (hctx : initIfNecessary fs name none = .ok ctx) :
    ∃ rules, ctx = contextOf rules true ∧ ∀ rule ∈ rules, Printable rule.2 := by
  rcases accepted_rules hname hfile hne hroom hctx with ⟨rules, hrules, hrules'⟩
  refine ⟨rules.reduceOption, hrules', ?_⟩
  intro rule hrule
  rcases (mem_rules_iff hrules fun type text => type = rule.1 ∧ text = rule.2.text).1
    ⟨rule, hrule, rfl, rfl⟩ with ⟨raw, hraw, type, text, hline, -, htext⟩
  rcases says_iff.1 hline with ⟨s, hs, hs'⟩
  have hsub : s.rdropWhile isBlank ⊆ raw := by
    intro c hc
    apply (List.dropWhile_suffix isBlank).subset
    rw [hs]
    simp [( rdropWhile_prefix isBlank s).subset hc]
  constructor
  · intro hmem
    rw [← htext, hs'] at hmem
    exact (mem_linesOf hraw (hsub hmem)).2 rfl
  · intro hne'
    have hlast := rdropWhile_eq_self_iff.1 (rdropWhile_idempotent isBlank s)
    rw [← hs', htext] at hlast
    simpa using hlast hne'

end Printed

end Caver.Sanitizer
