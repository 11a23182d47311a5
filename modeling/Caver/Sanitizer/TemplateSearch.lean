import Caver.Core.Placement
import Caver.Sanitizer.Suppressions

/-!
# Caver.Sanitizer.TemplateSearch — what the loop of `TemplateMatch` answers

* `pieces`: the text between the `*`s. `searchPieces` puts each where it first occurs.
* `verdict`: what the loop answers for the rest of a template.
* `templateMatchLoop_spec`: it answers this, and leaves the bytes as they were.
-/

namespace Caver.Sanitizer

open Caver.Core

/-! ## The pieces of a template -/

def templateChar (c : Char) : Wildcard Char := if c = '*' then .many else .one c

/-- The piece before the first `*`, and those behind. -/
def pieces : List Char → List Char × List (List Char)
  | [] => ([], [])
  | c :: b =>
    if c = '*' then ([], (pieces b).1 :: (pieces b).2)
    else (c :: (pieces b).1, (pieces b).2)

theorem pieces_pattern (b : List Char) :
    b.map templateChar = ones (pieces b).1 ++ behind (pieces b).2 := by
  induction b with
  | nil => rfl
  | cons c b ih =>
    by_cases hc : c = '*'
    · simp [pieces, templateChar, hc, ones, behind, ih]
    · simp [pieces, templateChar, hc, ones, ih]

/-- Characters of the first piece. -/
theorem pieces_append {c : List Char} (hc : '*' ∉ c) (b : List Char) :
    pieces (c ++ b) = (c ++ (pieces b).1, (pieces b).2) := by
  induction c with
  | nil => rfl
  | cons x c ih =>
    rw [List.mem_cons, not_or] at hc
    rw [List.cons_append, pieces, if_neg (Ne.symm hc.1), ih hc.2]
    rfl

/-- The search for the pieces of a template without `$`. -/
def searchPieces (start : Bool) (b str : List Char) : Option (List Char) :=
  if start then placeAt (pieces b).1 (pieces b).2 str
  else place ((pieces b).1 :: (pieces b).2) str

/-- The pattern of a template without `$`, anchored at the start or not. -/
def bodyPattern (start : Bool) (b : List Char) : Pattern Char :=
  (if start then [] else [.many]) ++ b.map templateChar

theorem searchPieces_leftmost (start : Bool) (b str : List Char) :
    Leftmost (bodyPattern start b) str (searchPieces start b str) := by
  unfold bodyPattern searchPieces
  rw [pieces_pattern]
  cases start with
  | true => exact placeAt_leftmost _ _ _
  | false => exact place_leftmost _ _

/-! ## What the loop finds out -/

/-- The last character is a `*`, or there is none and there was one before. -/
def endsInStar (asterisk : Bool) (b : List Char) : Bool := (b.getLast?.map (· == '*')).getD asterisk

/-- What the loop answers for the rest of a template. -/
def verdict (t str : List Char) (start asterisk : Bool) : Bool :=
  let b := t.takeWhile (· != '$')
  (searchPieces start b str).any fun rest =>
    !t.contains '$' || rest.isEmpty || endsInStar asterisk b

theorem searchPieces_nil (start : Bool) (str : List Char) :
    searchPieces start [] str = some str := by
  cases start <;> simp [searchPieces, pieces, placeAt, place, firstOccurrence_nil]

theorem searchPieces_star (start : Bool) (b str : List Char) :
    searchPieces start ('*' :: b) str = searchPieces false b str := by
  cases start <;> simp [searchPieces, pieces, placeAt, place, firstOccurrence_nil]

theorem verdict_nil (str : List Char) (start asterisk : Bool) :
    verdict [] str start asterisk = true := by
  simp [verdict, searchPieces_nil]

theorem endsInStar_star (asterisk : Bool) (b : List Char) :
    endsInStar asterisk ('*' :: b) = endsInStar true b := by
  unfold endsInStar
  rw [List.getLast?_cons]
  cases b.getLast? <;> rfl

theorem verdict_star (t str : List Char) (start asterisk : Bool) :
    verdict ('*' :: t) str start asterisk = verdict t str false true := by
  have hbody : ('*' :: t).takeWhile (· != '$') = '*' :: t.takeWhile (· != '$') := rfl
  have hdollar : ('*' :: t).contains '$' = t.contains '$' := rfl
  simp only [verdict, hbody, hdollar, searchPieces_star, endsInStar_star]

theorem verdict_dollar (t str : List Char) (start asterisk : Bool) :
    verdict ('$' :: t) str start asterisk = (str.isEmpty || asterisk) := by
  simp [verdict, searchPieces_nil, endsInStar]

/-- Behind a piece, another search begins. -/
theorem searchPieces_piece {c b : List Char} (hstar : '*' ∉ c) (hb : b = [] ∨ b.head? = some '*')
    (start : Bool) (str : List Char) :
    searchPieces start (c ++ b) str =
      (firstOccurrence c str).bind fun pos =>
        if start && pos != 0 then none
        else searchPieces false b (str.drop (pos + c.length)) := by
  have hnext : (pieces b).1 = [] := by
    cases b with
    | nil => rfl
    | cons x b =>
      rcases hb with hb | hb
      · cases hb
      · rw [List.head?_cons, Option.some_inj] at hb
        rw [hb, pieces, if_pos rfl]
  have hrest : ∀ s, searchPieces false b s = place (pieces b).2 s := by
    intro s
    rw [searchPieces, if_neg Bool.false_ne_true, hnext, place, firstOccurrence_nil]
    rfl
  simp only [hrest]
  unfold searchPieces
  rw [pieces_append hstar, hnext, List.append_nil]
  -- at the start the piece has to be at place 0; else its first place is taken
  cases start with
  | false => simp [place]
  | true =>
    rw [if_pos rfl, placeAt]
    by_cases hpre : c <+: str
    · rw [if_pos hpre, firstOccurrence_eq_zero.mpr hpre]
      simp
    · rw [if_neg hpre]
      cases hocc : firstOccurrence c str with
      | none => rfl
      | some pos =>
        have hpos : pos ≠ 0 := by
          rintro rfl
          exact hpre (firstOccurrence_eq_zero.mp hocc)
        simp [hpos]

theorem takeWhile_append_of_dollar {b : List Char} (h : '$' ∉ b) (r : List Char) :
    (b ++ r).takeWhile (· != '$') = b ++ r.takeWhile (· != '$') := by
  apply List.takeWhile_append_of_pos
  intro x hx
  rw [bne_iff_ne]
  rintro rfl
  exact h hx

/-- A piece ends at the next `*` or `$`. -/
theorem verdict_piece {c r : List Char} (hc : c ≠ []) (hstar : '*' ∉ c) (hdollar : '$' ∉ c)
    (hr : r = [] ∨ r.head? = some '*' ∨ r.head? = some '$') (str : List Char)
    (start asterisk : Bool) :
    verdict (c ++ r) str start asterisk =
      (firstOccurrence c str).any fun pos =>
        !(start && pos != 0) && verdict r (str.drop (pos + c.length)) false false := by
  have hbody := takeWhile_append_of_dollar hdollar r
  have hcontains : (c ++ r).contains '$' = r.contains '$' := by
    simp [hdollar]
  -- the piece is not empty and does not end in a star, so the rest decides
  have hends : endsInStar asterisk (c ++ r.takeWhile (· != '$')) =
      endsInStar false (r.takeWhile (· != '$')) := by
    unfold endsInStar
    rw [List.getLast?_append]
    cases (r.takeWhile (· != '$')).getLast? with
    | some x => rfl
    | none =>
      rw [Option.none_or, List.getLast?_eq_some_getLast hc]
      have hlast : c.getLast hc ≠ '*' := by
        intro heq
        exact hstar (heq ▸ List.getLast_mem hc)
      simp [hlast]
  have hb : r.takeWhile (· != '$') = [] ∨ (r.takeWhile (· != '$')).head? = some '*' := by
    cases r with
    | nil => exact Or.inl rfl
    | cons x r =>
      simp only [List.head?_cons, Option.some_inj] at hr
      rcases hr with hr | rfl | rfl
      · cases hr
      · exact Or.inr rfl
      · exact Or.inl rfl
  simp only [verdict, hbody, hcontains, hends, searchPieces_piece hstar hb]
  cases firstOccurrence c str with
  | none => rfl
  | some pos =>
    rw [Option.bind_some, Option.any_some]
    cases start && pos != 0 <;> rfl

/-! ## The steps of the loop -/

theorem internalStrstr_eq (str piece : List Char) :
    internalStrstr str piece = firstOccurrence piece str := by
  have hstarts : ∀ pos, ((str.drop pos).take piece.length == piece) =
      piece.isPrefixOf (str.drop pos) := by
    intro pos
    rw [Bool.eq_iff_iff, beq_iff_eq, List.isPrefixOf_iff_prefix, List.prefix_iff_eq_take]
    exact eq_comm
  unfold internalStrstr firstOccurrence
  simp only [hstarts]
  -- the piece fits behind each place where it occurs, so the shorter search misses none
  have hshort : ∀ pos, piece.isPrefixOf (str.drop pos) = true → pos ≤ str.length →
      pos + piece.length ≤ str.length := by
    intro pos hpos hle
    rw [List.isPrefixOf_iff_prefix] at hpos
    have hlen := hpos.length_le
    rw [List.length_drop] at hlen
    omega
  apply Option.ext
  intro pos
  rw [List.find?_range_eq_some]
  split
  · next hlt =>
    constructor
    · intro h
      cases h
    · intro h
      have hle := hshort pos h.1 (Nat.le_of_lt_succ (List.mem_range.mp h.2.1))
      omega
  · next hlt =>
    rw [List.find?_range_eq_some, List.mem_range, List.mem_range]
    constructor
    · intro h
      exact ⟨h.1, by omega, h.2.2⟩
    · intro h
      have hle := hshort pos h.1 (Nat.le_of_lt_succ h.2.1)
      exact ⟨h.1, by omega, h.2.2⟩

theorem internalStrchr_append {c : Char} {piece : List Char} (hc : c ∉ piece)
    (hnul : terminator ∉ piece) (s : List Char) (i : ℕ) :
    internalStrchr c (piece ++ s) i = internalStrchr c s (i + piece.length) := by
  induction piece generalizing i with
  | nil => rfl
  | cons x piece ih =>
    rw [List.mem_cons, not_or] at hc hnul
    rw [List.cons_append, internalStrchr, if_neg (Ne.symm hc.1), if_neg (Ne.symm hnul.1),
      ih hc.2 hnul.2, List.length_cons, Nat.add_right_comm, Nat.add_assoc]

theorem internalStrchr_ge {c : Char} {s : List Char} {i j : ℕ} (h : internalStrchr c s i = some j) :
    i ≤ j := by
  induction s generalizing i with
  | nil => cases h
  | cons x s ih =>
    rw [internalStrchr] at h
    split at h
    · rw [Option.some_inj] at h
      exact Nat.le_of_eq h
    · split at h
      · cases h
      · exact Nat.le_of_succ_le (ih h)

theorem cString_append {piece : List Char} (hnul : terminator ∉ piece) (s : List Char) :
    cString (piece ++ terminator :: s) = piece := by
  unfold cString
  rw [List.takeWhile_append_of_pos]
  · simp
  · intro x hx
    rw [decide_eq_true_iff]
    rintro rfl
    exact hnul hx

/-- The end of a piece, and what stands there. -/
theorem nearerMark_eq {piece : List Char} (hstar : '*' ∉ piece) (hdollar : '$' ∉ piece)
    (hnul : terminator ∉ piece) {x : Char} (hx : x = '*' ∨ x = '$') (s : List Char) (i : ℕ) :
    nearerMark (internalStrchr '*' (piece ++ x :: s) i) (internalStrchr '$' (piece ++ x :: s) i) =
        some (i + piece.length) ∧
      (if some (i + piece.length) = internalStrchr '$' (piece ++ x :: s) i then '$' else '*') =
        x := by
  rw [internalStrchr_append hstar hnul, internalStrchr_append hdollar hnul]
  generalize i + piece.length = k
  have hlater : ∀ c j, internalStrchr c s (k + 1) = some j → k < j := by
    intro c j hj
    exact internalStrchr_ge hj
  rcases hx with rfl | rfl
  · have hfirst : internalStrchr '*' ('*' :: s) k = some k := rfl
    have hsecond : internalStrchr '$' ('*' :: s) k = internalStrchr '$' s (k + 1) := rfl
    rw [hfirst, hsecond]
    cases hj : internalStrchr '$' s (k + 1) with
    | none => exact ⟨rfl, rfl⟩
    | some j =>
      have hlt := hlater '$' j hj
      constructor
      · rw [nearerMark, if_neg (by omega)]
      · rw [if_neg]
        rw [Option.some_inj]
        omega
  · have hfirst : internalStrchr '*' ('$' :: s) k = internalStrchr '*' s (k + 1) := rfl
    have hsecond : internalStrchr '$' ('$' :: s) k = some k := rfl
    rw [hfirst, hsecond]
    refine ⟨?_, if_pos rfl⟩
    cases hj : internalStrchr '*' s (k + 1) with
    | none => rfl
    | some j => rw [nearerMark, if_pos (hlater '*' j hj)]

/-- The search for one piece, which ends at `tpos`. -/
theorem templateMatchLoop_piece {bytes str piece : List Char} {templ fuel : ℕ} {c : Char}
    {tpos : Option ℕ} {start asterisk : Bool}
    (hget : bytes[templ]? = some c) (hc : c ≠ terminator ∧ c ≠ '*' ∧ c ≠ '$') (hstr : str ≠ [])
    (htpos : nearerMark (internalStrchr '*' (bytes.drop templ) templ)
      (internalStrchr '$' (bytes.drop templ) templ) = tpos)
    (hpiece : cString ((tpos.elim bytes (bytes.set · terminator)).drop templ) = piece)
    (hrestored : tpos.elim (tpos.elim bytes (bytes.set · terminator))
      ((tpos.elim bytes (bytes.set · terminator)).set ·
        (if tpos = internalStrchr '$' (bytes.drop templ) templ then '$' else '*')) = bytes) :
    templateMatchLoop (fuel + 1) bytes (some templ) str start asterisk =
      (firstOccurrence piece str).elim (some (false, bytes)) fun pos =>
        if start && pos ≠ 0 then some (false, bytes)
        else templateMatchLoop fuel bytes tpos (str.drop (pos + piece.length)) false false := by
  rw [templateMatchLoop, hget]
  simp only [Option.bind_eq_bind, Option.bind_some, if_neg hc.1, if_neg hc.2.1, if_neg hc.2.2,
    if_neg hstr, htpos, hpiece, hrestored, internalStrstr_eq]
  cases firstOccurrence piece str with
  | none => rfl
  | some pos => rfl

/-- A piece that nothing follows. -/
theorem templateMatchLoop_last {pre piece str : List Char} {fuel : ℕ} {start asterisk : Bool}
    (hne : piece ≠ []) (hstar : '*' ∉ piece) (hdollar : '$' ∉ piece) (hnul : terminator ∉ piece)
    (hstr : str ≠ []) :
    templateMatchLoop (fuel + 1) (pre ++ (piece ++ [terminator])) (some pre.length) str start
        asterisk =
      (firstOccurrence piece str).elim (some (false, pre ++ (piece ++ [terminator]))) fun pos =>
        if start && pos ≠ 0 then some (false, pre ++ (piece ++ [terminator]))
        else templateMatchLoop fuel (pre ++ (piece ++ [terminator])) none
          (str.drop (pos + piece.length)) false false := by
  rcases List.exists_cons_of_ne_nil hne with ⟨c, cs, rfl⟩
  have hdrop : (pre ++ (c :: cs ++ [terminator])).drop pre.length = c :: cs ++ [terminator] :=
    List.drop_left
  have hget : (pre ++ (c :: cs ++ [terminator]))[pre.length]? = some c := by
    simp
  have hstarpos := internalStrchr_append hstar hnul [terminator] pre.length
  have hdollarpos := internalStrchr_append hdollar hnul [terminator] pre.length
  rw [List.mem_cons, not_or] at hstar hdollar
  rw [← hdrop] at hstarpos hdollarpos
  have hnul' := hnul
  rw [List.mem_cons, not_or] at hnul'
  refine templateMatchLoop_piece hget ⟨Ne.symm hnul'.1, Ne.symm hstar.1, Ne.symm hdollar.1⟩ hstr
    ?_ ?_ rfl
  · rw [hstarpos, hdollarpos]
    rfl
  · rw [Option.elim_none, hdrop, cString_append hnul]

/-- A piece that a `*` or a `$` follows. -/
theorem templateMatchLoop_next {pre piece s str : List Char} {x : Char} {fuel : ℕ}
    {start asterisk : Bool} (hne : piece ≠ []) (hstar : '*' ∉ piece) (hdollar : '$' ∉ piece)
    (hnul : terminator ∉ piece) (hx : x = '*' ∨ x = '$') (hstr : str ≠ []) :
    templateMatchLoop (fuel + 1) (pre ++ (piece ++ x :: s)) (some pre.length) str start
        asterisk =
      (firstOccurrence piece str).elim (some (false, pre ++ (piece ++ x :: s))) fun pos =>
        if start && pos ≠ 0 then some (false, pre ++ (piece ++ x :: s))
        else templateMatchLoop fuel (pre ++ (piece ++ x :: s)) (some (pre.length + piece.length))
          (str.drop (pos + piece.length)) false false := by
  rcases nearerMark_eq hstar hdollar hnul hx s pre.length with ⟨hend, hchar⟩
  have hdrop : ∀ t : List Char, (pre ++ t).drop pre.length = t := fun t => List.drop_left
  have hset : ∀ y z, (pre ++ (piece ++ y :: s)).set (pre.length + piece.length) z =
      pre ++ (piece ++ z :: s) := by
    intro y z
    simp
  rcases List.exists_cons_of_ne_nil hne with ⟨c, cs, hcons⟩
  have hget : (pre ++ (piece ++ x :: s))[pre.length]? = some c := by
    simp [hcons]
  have hc : c ≠ terminator ∧ c ≠ '*' ∧ c ≠ '$' := by
    rw [hcons, List.mem_cons, not_or] at hstar hdollar hnul
    exact ⟨Ne.symm hnul.1, Ne.symm hstar.1, Ne.symm hdollar.1⟩
  refine templateMatchLoop_piece hget hc hstr ?_ ?_ ?_
  · rw [hdrop, hend]
  · rw [Option.elim_some, hset, hdrop, cString_append hnul]
  · rw [Option.elim_some, Option.elim_some, hset, hdrop, hchar, hset]

/-- Up to the next `*` or `$`. -/
theorem exists_piece (t : List Char) :
    ∃ piece r, t = piece ++ r ∧ '*' ∉ piece ∧ '$' ∉ piece ∧
      (r = [] ∨ r.head? = some '*' ∨ r.head? = some '$') := by
  induction t with
  | nil => exact ⟨[], [], rfl, List.not_mem_nil, List.not_mem_nil, Or.inl rfl⟩
  | cons c t ih =>
    by_cases hstar : c = '*'
    · exact ⟨[], c :: t, rfl, List.not_mem_nil, List.not_mem_nil, Or.inr (Or.inl (by simp [hstar]))⟩
    · by_cases hdollar : c = '$'
      · exact ⟨[], c :: t, rfl, List.not_mem_nil, List.not_mem_nil,
          Or.inr (Or.inr (by simp [hdollar]))⟩
      · rcases ih with ⟨piece, r, rfl, hp, hp', hr⟩
        refine ⟨c :: piece, r, rfl, ?_, ?_, hr⟩
        · simp [Ne.symm hstar, hp]
        · simp [Ne.symm hdollar, hp']

theorem firstOccurrence_of_nil {piece : List Char} (hne : piece ≠ []) :
    firstOccurrence piece [] = none := by
  cases piece with
  | nil => exact absurd rfl hne
  | cons c cs => rfl

/-- A piece has been searched for, and the loop goes on with `r`. -/
theorem templateMatchLoop_search {pre piece r str : List Char} {fuel : ℕ} {start asterisk : Bool}
    (hne : piece ≠ []) (hstar : '*' ∉ piece) (hdollar : '$' ∉ piece)
    (hnul : terminator ∉ piece ++ r)
    (hr : r = [] ∨ r.head? = some '*' ∨ r.head? = some '$') (hstr : str ≠ [])
    (hnext : ∀ str', templateMatchLoop (fuel + 1) ((pre ++ piece) ++ (r ++ [terminator]))
        (some (pre ++ piece).length) str' false false =
      some (verdict r str' false false, (pre ++ piece) ++ (r ++ [terminator]))) :
    templateMatchLoop (fuel + 2) (pre ++ (piece ++ r ++ [terminator])) (some pre.length) str start
        asterisk =
      some (verdict (piece ++ r) str start asterisk, pre ++ (piece ++ r ++ [terminator])) := by
  rw [List.mem_append, not_or] at hnul
  simp only [List.append_assoc, List.length_append] at hnext ⊢
  rw [verdict_piece hne hstar hdollar hr]
  cases r with
  | nil =>
    rw [List.nil_append, templateMatchLoop_last hne hstar hdollar hnul.1 hstr]
    simp only [templateMatchLoop, verdict_nil]
    cases firstOccurrence piece str with
    | none => rfl
    | some pos => by_cases hpos : pos = 0 <;> cases start <;> simp [hpos]
  | cons x s =>
    have hx : x = '*' ∨ x = '$' := by
      simpa using hr
    rw [List.cons_append, templateMatchLoop_next hne hstar hdollar hnul.1 hx hstr]
    rw [List.cons_append] at hnext
    simp only [hnext]
    cases firstOccurrence piece str with
    | none => rfl
    | some pos => by_cases hpos : pos = 0 <;> cases start <;> simp [hpos]

/-- The loop ends, with the bytes as they were. -/
theorem templateMatchLoop_spec {fuel : ℕ} {pre t str : List Char} {start asterisk : Bool}
    (hnul : terminator ∉ t) (hfuel : t.length < fuel) :
    templateMatchLoop fuel (pre ++ (t ++ [terminator])) (some pre.length) str start asterisk =
      some (verdict t str start asterisk, pre ++ (t ++ [terminator])) := by
  induction fuel generalizing pre t str start asterisk with
  | zero => exact absurd hfuel (Nat.not_lt_zero _)
  | succ fuel ih =>
    cases t with
    | nil => simp [templateMatchLoop, verdict_nil]
    | cons c t =>
      rw [List.length_cons] at hfuel
      have hget : (pre ++ (c :: t ++ [terminator]))[pre.length]? = some c := by
        simp
      have hnul' := hnul
      rw [List.mem_cons, not_or] at hnul'
      -- a star, the end of the template, or a piece up to the next of these
      by_cases hstar : c = '*'
      · subst hstar
        have hnext := @ih (pre ++ ['*']) t str false true hnul'.2 (by omega)
        rw [List.length_append, List.append_assoc] at hnext
        rw [templateMatchLoop, hget, verdict_star]
        exact hnext
      · by_cases hdollar : c = '$'
        · subst hdollar
          rw [templateMatchLoop, hget, verdict_dollar]
          rfl
        · rcases exists_piece (c :: t) with ⟨piece, r, hsplit, hs, hd, hr⟩
          -- the piece starts with `c`
          have hne : piece ≠ [] := by
            rintro rfl
            rw [List.nil_append] at hsplit
            rw [← hsplit] at hr
            simp [hstar, hdollar] at hr
          by_cases hstr : str = []
          · subst hstr
            rw [templateMatchLoop, hget, hsplit, verdict_piece hne hs hd hr,
              firstOccurrence_of_nil hne]
            simp [hstar, hdollar, Ne.symm hnul'.1]
          · have hlen := congrArg List.length hsplit
            have hpos := List.length_pos_iff.mpr hne
            rw [List.length_cons, List.length_append] at hlen
            -- the piece and what it is cut off by take two rounds of the loop
            cases fuel with
            | zero => omega
            | succ fuel =>
              rw [hsplit] at hnul ⊢
              have hnulr : terminator ∉ r := fun h => hnul (List.mem_append_right piece h)
              apply templateMatchLoop_search hne hs hd hnul hr hstr
              intro str'
              exact ih hnulr (by omega)

end Caver.Sanitizer
