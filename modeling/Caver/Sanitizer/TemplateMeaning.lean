import Caver.Sanitizer.TemplateSearch

/-!
# Caver.Sanitizer.TemplateMeaning — what suppressions say and what is found

* `Matches`: what a template says. `cut`: as much of it as is read.
* `verdict_iff`: a template that ends in `$` is found only in a text of which no shorter start
  is matched, unless it ends in `*$`.
* `matchSuppression_iff`: where a suppression is found as its template says.
-/

namespace Caver.Sanitizer

open Caver.Core

/-! ## What a template says -/

def anchored (t : List Char) : Bool := t.head? == some '^'

/-- Behind the `^`. -/
def body (t : List Char) : List Char := if anchored t then t.tail else t

/-- A `$` is special as the last character only. -/
def templatePattern (t : List Char) : Pattern Char :=
  if (body t).getLast? = some '$' then bodyPattern (anchored t) (body t).dropLast
  else bodyPattern (anchored t) (body t) ++ [.many]

/-- The template matches `s`. -/
def Matches (t s : List Char) : Prop := s ∈ language (templatePattern t)

instance (t s : List Char) : Decidable (Matches t s) :=
  decidable_of_iff (matchesPattern (templatePattern t) s = true) matchesPattern_iff

/-- The template up to its first `$`. -/
def cut (t : List Char) : List Char := t.takeWhile (· != '$') ++ if '$' ∈ t then ['$'] else []

/-- If the template ends at the end of `s`, it ends in a `*` or at the end of no shorter start. -/
def Settled (t s : List Char) : Prop :=
  (body t).getLast? = some '$' → ['*', '$'] <:+ body t ∨ ∀ u, u <+: s → Matches t u → u = s

theorem cut_of_not_mem {t : List Char} (h : '$' ∉ t) : cut t = t := by
  have hself := takeWhile_append_of_dollar h []
  rw [List.append_nil, List.takeWhile_nil, List.append_nil] at hself
  rw [cut, if_neg h, List.append_nil, hself]

theorem cut_append {b : List Char} (h : '$' ∉ b) (r : List Char) :
    cut (b ++ '$' :: r) = b ++ ['$'] := by
  rw [cut, if_pos (List.mem_append_right b List.mem_cons_self), takeWhile_append_of_dollar h]
  simp

/-! ## What the search finds -/

theorem verdict_open {b : List Char} (h : '$' ∉ b) (str : List Char) (start : Bool) :
    verdict b str start false = true ↔ str ∈ language (bodyPattern start b ++ [.many]) := by
  have hself := takeWhile_append_of_dollar h []
  rw [List.append_nil, List.takeWhile_nil, List.append_nil] at hself
  rw [← (searchPieces_leftmost start b str).open_iff]
  simp only [verdict, hself]
  cases searchPieces start b str with
  | none => rfl
  | some rest => simp [h]

/-- What matches behind a last `*` may be longer. -/
theorem mem_bodyPattern_star {start : Bool} {b str : List Char} :
    str ∈ language (bodyPattern start (b ++ ['*'])) ↔
      (searchPieces start (b ++ ['*']) str).isSome = true := by
  have hpattern : bodyPattern start (b ++ ['*']) = bodyPattern start b ++ [.many] := by
    simp [bodyPattern, templateChar]
  rw [(searchPieces_leftmost start (b ++ ['*']) str).open_iff, hpattern]
  constructor
  · intro h
    exact mem_language_concat_many.mpr ⟨str, List.prefix_refl str, h⟩
  · intro h
    rcases mem_language_concat_many.mp h with ⟨u, hu, hmem⟩
    rcases mem_language_concat_many.mp hmem with ⟨v, hv, hmem'⟩
    exact mem_language_concat_many.mpr ⟨v, hv.trans hu, hmem'⟩

theorem verdict_closed {b : List Char} (h : '$' ∉ b) (r str : List Char) (start : Bool) :
    verdict (b ++ '$' :: r) str start false = true ↔
      str ∈ language (bodyPattern start b) ∧
        (['*'] <:+ b ∨ ∀ u, u <+: str → u ∈ language (bodyPattern start b) → u = str) := by
  have hself : (b ++ '$' :: r).takeWhile (· != '$') = b := by
    rw [takeWhile_append_of_dollar h]
    simp
  have hcontains : (b ++ '$' :: r).contains '$' = true := by
    simp
  simp only [verdict, hself, hcontains, Bool.not_true, Bool.false_or]
  by_cases hstar : ['*'] <:+ b
  · rcases hstar with ⟨b', rfl⟩
    have hends : endsInStar false (b' ++ ['*']) = true := by
      simp [endsInStar]
    rw [mem_bodyPattern_star, hends]
    cases searchPieces start (b' ++ ['*']) str <;> simp
  · have hends : endsInStar false b = false := by
      cases b using List.reverseRecOn with
      | nil => rfl
      | append_singleton b x =>
        have hx : x ≠ '*' := by
          rintro rfl
          exact hstar (List.suffix_append b ['*'])
        simp [endsInStar, hx]
    have hclosed := (searchPieces_leftmost start b str).closed_iff
    rw [hends, or_iff_right hstar, ← hclosed]
    cases searchPieces start b str <;> simp

theorem body_cases (t : List Char) :
    (∃ b, t = '^' :: b ∧ anchored t = true ∧ body t = b) ∨ anchored t = false ∧ body t = t := by
  cases hanchored : anchored t with
  | true =>
    cases t with
    | nil => cases hanchored
    | cons c b =>
      have hc : c = '^' := by
        simpa [anchored] using hanchored
      exact Or.inl ⟨b, by rw [hc], rfl, by rw [body, hanchored]; rfl⟩
  | false =>
    refine Or.inr ⟨rfl, ?_⟩
    rw [body, hanchored]
    rfl

theorem cut_body {t b r : List Char} (h : '$' ∉ b) (ht : body t = b ++ '$' :: r) :
    anchored (cut t) = anchored t ∧ body (cut t) = b ++ ['$'] := by
  rcases body_cases t with ⟨b', rfl, hanchored, hbody⟩ | ⟨hanchored, hbody⟩
  · rw [hbody] at ht
    have hcaret : '$' ∉ '^' :: b := by
      simp [h]
    rw [ht, ← List.cons_append, cut_append hcaret]
    exact ⟨rfl, rfl⟩
  · rw [hbody] at ht
    subst ht
    have hcut : anchored (b ++ ['$']) = false := by
      cases b with
      | nil => rfl
      | cons c b => exact hanchored
    rw [cut_append h, body, hcut, hanchored]
    exact ⟨rfl, rfl⟩

theorem star_dollar_suffix {b : List Char} : ['*', '$'] <:+ b ++ ['$'] ↔ ['*'] <:+ b := by
  constructor
  · intro h
    rcases h with ⟨a, ha⟩
    exact ⟨a, List.append_cancel_right (by rw [← ha, List.append_assoc]; rfl)⟩
  · intro h
    rcases h with ⟨a, rfl⟩
    exact ⟨a, by rw [List.append_assoc]; rfl⟩

/-- The template is searched for up to its first `$`. -/
theorem verdict_iff (t str : List Char) :
    verdict (body t) str (anchored t) false = true ↔ Matches (cut t) str ∧ Settled (cut t) str := by
  by_cases h : '$' ∈ body t
  · rcases List.eq_append_cons_of_mem h with ⟨b, r, ht, hb⟩
    rcases cut_body hb ht with ⟨hanchored, hbody⟩
    have hpattern : templatePattern (cut t) = bodyPattern (anchored t) b := by
      rw [templatePattern, hbody, hanchored, List.getLast?_concat, if_pos rfl,
        List.dropLast_concat]
    rw [ht, verdict_closed hb]
    simp only [Matches, Settled, hpattern, hbody, List.getLast?_concat, star_dollar_suffix,
      forall_const]
  · have hmem : '$' ∉ t := by
      rcases body_cases t with ⟨b, rfl, -, hbody⟩ | ⟨-, hbody⟩
      · rw [hbody] at h
        simp [h]
      · rwa [hbody] at h
    have hlast : (body t).getLast? ≠ some '$' := fun hlast => h (List.mem_of_getLast? hlast)
    rw [cut_of_not_mem hmem, verdict_open h]
    simp only [Matches, Settled, templatePattern, hlast, ↓reduceIte, false_implies, and_true]

theorem templateMatch_spec {t str : List Char} (hnul : terminator ∉ t) (hstr : str ≠ []) :
    templateMatch (t ++ [terminator]) str =
      some (verdict (body t) str (anchored t) false, t ++ [terminator]) := by
  rw [templateMatch, if_neg hstr]
  rcases body_cases t with ⟨b, rfl, hanchored, hbody⟩ | ⟨hanchored, hbody⟩
  · rw [hanchored, hbody]
    have hnulb : terminator ∉ b := fun h => hnul (List.mem_cons_of_mem '^' h)
    have hlen : b.length < ('^' :: b ++ [terminator]).length + 1 := by
      simp only [List.length_append, List.length_cons]
      omega
    exact @templateMatchLoop_spec _ ['^'] b str true false hnulb hlen
  · have hlen : t.length < (t ++ [terminator]).length + 1 := by
      rw [List.length_append]
      omega
    have hloop := @templateMatchLoop_spec _ [] t str false false hnul hlen
    rw [List.nil_append] at hloop
    rw [hanchored, hbody, ← hloop]
    cases t with
    | nil => rfl
    | cons c t =>
      have hc : c ≠ '^' := by
        simpa [anchored] using hanchored
      simp [hc, beq_eq_false_iff_ne.mpr hc]

/-! ## The suppressions of a context -/

/-- The text of a template, which holds no NUL. -/
structure Template where
  text : List Char
  complete : terminator ∉ text

def Template.bytes (t : Template) : List Char := t.text ++ [terminator]

/-- The context that holds the suppressions. -/
def contextOf (rules : List (SuppressionType × Template)) (canParse : Bool) : SuppressionContext :=
  ⟨rules.map fun rule => ⟨rule.1, rule.2.bytes⟩, canParse⟩

/-- What a suppression says, and what the search finds. -/
theorem matchLoop_spec (rules : List (SuppressionType × Template)) {str : List Char}
    (hstr : str ≠ []) (type : SuppressionType) (i : ℕ) :
    ∃ result, matchLoop str type i (contextOf rules true).suppressions =
        some (result, (contextOf rules true).suppressions) ∧
      (result.isSome = true ↔ ∃ rule ∈ rules, rule.1 = type ∧
        Matches (cut rule.2.text) str ∧ Settled (cut rule.2.text) str) := by
  induction rules generalizing i with
  | nil => exact ⟨none, rfl, by simp⟩
  | cons rule rules ih =>
    rcases ih (i + 1) with ⟨result, hloop, hresult⟩
    have hcons : (contextOf (rule :: rules) true).suppressions =
        ⟨rule.1, rule.2.bytes⟩ :: (contextOf rules true).suppressions := rfl
    rw [hcons, matchLoop]
    -- only suppressions of the type are compared; the first that is found ends the loop
    by_cases htype : type = rule.1
    · have hmatch := templateMatch_spec rule.2.complete hstr
      have hfound := verdict_iff rule.2.text str
      rw [if_pos htype, Template.bytes, hmatch]
      cases hverdict : verdict (body rule.2.text) str (anchored rule.2.text) false with
      | true =>
        refine ⟨some i, rfl, ?_⟩
        rw [hverdict] at hfound
        constructor
        · intro _
          exact ⟨rule, List.mem_cons_self, htype.symm, hfound.mp rfl⟩
        · intro _
          rfl
      | false =>
        refine ⟨result, by simp [hloop], ?_⟩
        rw [hverdict] at hfound
        rw [hresult, List.exists_mem_cons_iff]
        constructor
        · intro h
          exact Or.inr h
        · intro h
          rcases h with h | h
          · exact absurd (hfound.mpr h.2) Bool.false_ne_true
          · exact h
    · refine ⟨result, by simp [htype, hloop], ?_⟩
      rw [hresult, List.exists_mem_cons_iff]
      constructor
      · intro h
        exact Or.inr h
      · intro h
        rcases h with h | h
        · exact absurd h.1.symm htype
        · exact h

/-- What the templates find, read up to their first `$`. -/
theorem matchSuppression_spec (rules : List (SuppressionType × Template)) (canParse : Bool)
    {str : List Char} (hstr : str ≠ []) (type : SuppressionType) :
    ∃ r, matchSuppression (contextOf rules canParse) str type = some (r, contextOf rules false) ∧
      (r = true ↔ ∃ rule ∈ rules, rule.1 = type ∧
        Matches (cut rule.2.text) str ∧ Settled (cut rule.2.text) str) := by
  rcases matchLoop_spec rules hstr type 0 with ⟨result, hloop, hresult⟩
  refine ⟨result.isSome, ?_, hresult⟩
  have hctx : matchLoop str type 0 (contextOf rules canParse).suppressions =
      some (result, (contextOf rules true).suppressions) := hloop
  rw [matchSuppression, SuppressionContext.matchTemplates, hctx]
  rfl

theorem cut_of_last {t : List Char} (h : '$' ∉ t.dropLast) : cut t = t := by
  by_cases hmem : '$' ∈ t
  · rcases List.eq_append_cons_of_mem hmem with ⟨b, r, rfl, hb⟩
    cases r with
    | nil => exact cut_append hb []
    | cons x r =>
      rw [List.dropLast_append_of_ne_nil (List.cons_ne_nil _ _)] at h
      exact absurd (List.mem_append_right b List.mem_cons_self) h
  · exact cut_of_not_mem hmem

/-- With a `$` only at the end of templates. -/
theorem matchSuppression_of_last {rules : List (SuppressionType × Template)}
    (hlast : ∀ rule ∈ rules, '$' ∉ rule.2.text.dropLast) (canParse : Bool) {str : List Char}
    (hstr : str ≠ []) (type : SuppressionType) :
    ∃ r, matchSuppression (contextOf rules canParse) str type = some (r, contextOf rules false) ∧
      (r = true ↔ ∃ rule ∈ rules, rule.1 = type ∧
        Matches rule.2.text str ∧ Settled rule.2.text str) := by
  rcases matchSuppression_spec rules canParse hstr type with ⟨r, hr, hiff⟩
  refine ⟨r, hr, hiff.trans ?_⟩
  constructor
  · intro h
    rcases h with ⟨rule, hrule, htype, hfound⟩
    rw [cut_of_last (hlast rule hrule)] at hfound
    exact ⟨rule, hrule, htype, hfound⟩
  · intro h
    rcases h with ⟨rule, hrule, htype, hfound⟩
    rw [← cut_of_last (hlast rule hrule)] at hfound
    exact ⟨rule, hrule, htype, hfound⟩

/-- A suppression is found as its template says if and only if, where one matches, one that is
read up to its first `$` matches no shorter start, and none matches only so. -/
theorem matchSuppression_iff (rules : List (SuppressionType × Template)) (canParse : Bool)
    {str : List Char} (hstr : str ≠ []) (type : SuppressionType) :
    ∃ r, matchSuppression (contextOf rules canParse) str type = some (r, contextOf rules false) ∧
      ((r = true ↔ ∃ rule ∈ rules, rule.1 = type ∧ Matches rule.2.text str) ↔
        ((∃ rule ∈ rules, rule.1 = type ∧ Matches rule.2.text str) →
          ∃ rule ∈ rules, rule.1 = type ∧
            Matches (cut rule.2.text) str ∧ Settled (cut rule.2.text) str) ∧
        ∀ rule ∈ rules, rule.1 = type →
          Matches (cut rule.2.text) str → Settled (cut rule.2.text) str →
          ∃ rule ∈ rules, rule.1 = type ∧ Matches rule.2.text str) := by
  rcases matchSuppression_spec rules canParse hstr type with ⟨r, hr, hresult⟩
  refine ⟨r, hr, ?_⟩
  rw [hresult]
  constructor
  · intro h
    refine ⟨h.mpr, ?_⟩
    intro rule hrule htype hmatches hsettled
    exact h.mp ⟨rule, hrule, htype, hmatches, hsettled⟩
  · intro h
    refine ⟨?_, h.1⟩
    intro hfound
    rcases hfound with ⟨rule, hrule, htype, hmatches, hsettled⟩
    exact h.2 rule hrule htype hmatches hsettled

/-- `foo$` and `foofoo`. -/
theorem suppression_missed :
    ¬ ∀ (rules : List (SuppressionType × Template)) (str : List Char) (type : SuppressionType),
      str ≠ [] → ∃ r, matchSuppression (contextOf rules true) str type =
          some (r, contextOf rules false) ∧
        (r = true ↔ ∃ rule ∈ rules, rule.1 = type ∧ Matches rule.2.text str) := by
  intro hall
  let foo : Template := ⟨['f', 'o', 'o', '$'], by decide⟩
  have hmatches : Matches foo.text ['f', 'o', 'o', 'f', 'o', 'o'] := by decide
  have hsearch : matchSuppression (contextOf [(.castFilename, foo)] true)
      ['f', 'o', 'o', 'f', 'o', 'o'] .castFilename =
        some (false, contextOf [(.castFilename, foo)] false) := by
    decide
  rcases hall [(.castFilename, foo)] ['f', 'o', 'o', 'f', 'o', 'o'] .castFilename (by simp) with
    ⟨r, hr, hiff⟩
  rw [hsearch, Option.some_inj, Prod.mk.injEq] at hr
  rw [← hr.1] at hiff
  have hfound := hiff.mpr ⟨_, List.mem_singleton_self _, rfl, hmatches⟩
  cases hfound

/-- `foo$` and `foo`. -/
theorem suppression_found :
    ['f', 'o', 'o'] ≠ [] ∧
      matchSuppression (contextOf [(.castFilename, ⟨['f', 'o', 'o', '$'], by decide⟩)] true)
          ['f', 'o', 'o'] .castFilename =
        some (true, contextOf [(.castFilename, ⟨['f', 'o', 'o', '$'], by decide⟩)] false) := by
  let foo : Template := ⟨['f', 'o', 'o', '$'], by decide⟩
  have hne : ['f', 'o', 'o'] ≠ [] := List.cons_ne_nil _ _
  rcases matchSuppression_iff [(.castFilename, foo)] true hne .castFilename with ⟨r, hr, hiff⟩
  have hmatches : ∃ rule ∈ [(SuppressionType.castFilename, foo)], rule.1 = .castFilename ∧
      Matches rule.2.text ['f', 'o', 'o'] :=
    ⟨_, List.mem_singleton_self _, rfl, by decide⟩
  -- no shorter start of `foo` ends in `foo`
  have hstarts : ∀ u ∈ ['f', 'o', 'o'].inits, Matches foo.text u → u = ['f', 'o', 'o'] := by
    decide
  have hsettled : Settled (cut foo.text) ['f', 'o', 'o'] := by
    intro _
    right
    intro u hu
    exact hstarts u ((List.mem_inits u _).mpr hu)
  have hfound := hiff.mpr ⟨fun _ => ⟨_, List.mem_singleton_self _, rfl, by decide, hsettled⟩,
    fun _ _ _ _ _ => hmatches⟩
  rw [hfound.mpr hmatches] at hr
  exact ⟨hne, hr⟩

end Caver.Sanitizer
