import Caver.Sanitizer.SuppressionParse
import Caver.Sanitizer.TemplateMeaning
import Mathlib.Data.List.DropRight
import Mathlib.Data.List.ReduceOption

/-!
# Caver.Sanitizer.SuppressionLines — what a line of suppressions says

A line is silent (blank, or a comment) or says `type:text`, without the blanks around it.

* `parseLine_rule`, `parseLine_failure`: one line.
* `parseLoop_rules`, `parseLoop_failure`: `Parse` takes what the lines say, in their order,
  if and only if each says something or is silent.
-/

namespace Caver.Sanitizer

open List

/-! ## Types -/

theorem mem_suppressionTypes (type : SuppressionType) : type ∈ suppressionTypes := by
  cases type <;> decide

/-- Small letters and `_`. -/
theorem all_suppressionTypeString (type : SuppressionType) :
    (suppressionTypeString type).all (fun c => c.isLower || c == '_') = true := by
  cases type <;> rfl

theorem mem_suppressionTypeString {type : SuppressionType} {c : Char}
    (h : c ∈ suppressionTypeString type) :
    c ≠ ':' ∧ c ≠ '#' ∧ c ≠ '\n' ∧ c ≠ terminator ∧ isBlank c = false := by
  have hc : (c.isLower || c == '_') = true :=
    List.all_eq_true.1 (all_suppressionTypeString type) c h
  have hne : ∀ d : Char, (d.isLower || d == '_') = false → c ≠ d := by
    rintro d hd rfl
    exact Bool.false_ne_true (hd.symm.trans hc)
  have hblank : isBlank c = false := by
    unfold isBlank
    rw [Bool.or_eq_false_iff, beq_eq_false_iff_ne, beq_eq_false_iff_ne]
    exact ⟨hne _ rfl, hne _ rfl⟩
  exact ⟨hne _ rfl, hne _ rfl, hne _ rfl, hne _ rfl, hblank⟩

theorem suppressionTypeString_ne_nil (type : SuppressionType) :
    suppressionTypeString type ≠ [] := by
  cases type <;> decide

theorem suppressionTypeString_injective {a b : SuppressionType}
    (h : suppressionTypeString a = suppressionTypeString b) : a = b := by
  cases a <;> cases b <;> first | rfl | exact absurd h (by decide)

/-- The type before a `:`. -/
theorem takeWhile_typeString (type : SuppressionType) (s : List Char) :
    (suppressionTypeString type ++ ':' :: s).takeWhile (· != ':') = suppressionTypeString type := by
  rw [List.takeWhile_append_of_pos]
  · simp
  · intro c hc
    simpa using (mem_suppressionTypeString hc).1

/-- A line names one type at most. -/
theorem typeString_prefix_unique {a b : SuppressionType} {s t : List Char}
    (h : suppressionTypeString a ++ ':' :: s = suppressionTypeString b ++ ':' :: t) : a = b := by
  apply suppressionTypeString_injective
  rw [← takeWhile_typeString a s, h, takeWhile_typeString]

/-! ## Rules -/

/-- The line without the blanks around it. -/
def trimmed (raw : List Char) : List Char := (raw.dropWhile isBlank).rdropWhile isBlank

/-- Nothing, or a comment. -/
def Silent (raw : List Char) : Prop := trimmed raw = [] ∨ (trimmed raw).head? = some '#'

/-- The line is `type:text`. -/
def Says (raw : List Char) (type : SuppressionType) (text : List Char) : Prop :=
  trimmed raw = suppressionTypeString type ++ ':' :: text

instance (raw : List Char) : Decidable (Silent raw) :=
  inferInstanceAs (Decidable (trimmed raw = [] ∨ (trimmed raw).head? = some '#'))

instance (raw : List Char) (type : SuppressionType) (text : List Char) :
    Decidable (Says raw type text) :=
  inferInstanceAs (Decidable (trimmed raw = suppressionTypeString type ++ ':' :: text))

/-- What the line says. -/
def LineRule (raw : List Char) : Option (SuppressionType × Template) → Prop
  | none => Silent raw
  | some (type, template) => Says raw type template.text

def Readable (raw : List Char) : Prop := ∃ rule, LineRule raw rule

/-- A character that stays keeps what is before it. -/
theorem rdropWhile_append_cons {α : Type} {p : α → Bool} {x : α} (hx : p x = false)
    (a l : List α) : (a ++ x :: l).rdropWhile p = a ++ x :: l.rdropWhile p := by
  induction l using List.reverseRecOn with
  | nil => rw [rdropWhile_nil, rdropWhile_concat_neg _ _ _ (by simp [hx])]
  | append_singleton l y ih =>
    have hassoc : a ++ x :: (l ++ [y]) = (a ++ x :: l) ++ [y] := by simp
    rw [hassoc, rdropWhile_concat, rdropWhile_concat]
    split
    · exact ih
    · simp

/-- The first character that is not blank. -/
theorem trimmed_cases (raw : List Char) :
    (raw.dropWhile isBlank = [] ∧ trimmed raw = []) ∨
      ∃ x l, raw.dropWhile isBlank = x :: l ∧ isBlank x = false ∧
        trimmed raw = x :: l.rdropWhile isBlank := by
  unfold trimmed
  cases hline : raw.dropWhile isBlank with
  | nil => exact .inl ⟨rfl, rdropWhile_nil _⟩
  | cons x l =>
    have hfirst := List.head?_dropWhile_not isBlank raw
    rw [hline, List.head?_cons] at hfirst
    have hx : isBlank x = false := by simpa using hfirst
    exact .inr ⟨x, l, rfl, hx, rdropWhile_append_cons hx [] l⟩

theorem silent_iff (raw : List Char) :
    Silent raw ↔
      raw.dropWhile isBlank = [] ∨ (raw.dropWhile isBlank).head? = some '#' := by
  unfold Silent
  rcases trimmed_cases raw with ⟨hline, htrimmed⟩ | ⟨x, l, hline, -, htrimmed⟩
  · simp [hline, htrimmed]
  · simp [hline, htrimmed]

theorem says_iff {raw text : List Char} {type : SuppressionType} :
    Says raw type text ↔
      ∃ s, raw.dropWhile isBlank = suppressionTypeString type ++ ':' :: s ∧
        text = s.rdropWhile isBlank := by
  unfold Says trimmed
  constructor
  · intro h
    rcases rdropWhile_prefix isBlank (raw.dropWhile isBlank) with ⟨b, hb⟩
    rw [h, List.append_assoc, List.cons_append] at hb
    use text ++ b, hb.symm
    rw [← hb, rdropWhile_append_cons (by decide)] at h
    exact (List.cons_inj_right _).1 (List.append_cancel_left h.symm)
  · rintro ⟨s, hs, rfl⟩
    rw [hs, rdropWhile_append_cons (by decide)]

/-- A line that says something is not silent, and says nothing else. -/
theorem Says.not_silent {raw text : List Char} {type : SuppressionType} (h : Says raw type text) :
    ¬ Silent raw := by
  unfold Says at h
  unfold Silent
  rw [h]
  cases hname : suppressionTypeString type with
  | nil => exact absurd hname (suppressionTypeString_ne_nil type)
  | cons c name =>
    have hc : c ∈ suppressionTypeString type := hname ▸ List.mem_cons_self
    simp [(mem_suppressionTypeString hc).2.1]

theorem Says.unique {raw s t : List Char} {a b : SuppressionType} (hs : Says raw a s)
    (ht : Says raw b t) : a = b ∧ s = t := by
  have heq : suppressionTypeString a ++ ':' :: s = suppressionTypeString b ++ ':' :: t :=
    hs.symm.trans ht
  have hab := typeString_prefix_unique heq
  rw [hab] at heq
  exact ⟨hab, (List.cons_inj_right _).1 (List.append_cancel_left heq)⟩

/-! ## Scanning -/

/-- A text without the ends of lines, and what ends it. -/
structure EndedBy (s : List Char) (c : Char) : Prop where
  line : '\n' ∉ s
  complete : terminator ∉ s
  ends : c = '\n' ∨ c = terminator

theorem EndedBy.of_suffix {s l : List Char} {c : Char} (h : EndedBy s c) (hl : l <:+ s) :
    EndedBy l c :=
  ⟨fun hmem => h.line (hl.subset hmem), fun hmem => h.complete (hl.subset hmem), h.ends⟩

theorem EndedBy.not_blank {s : List Char} {c : Char} (h : EndedBy s c) : isBlank c = false := by
  rcases h.ends with rfl | rfl <;> decide

theorem byteAt_length (pre rest : List Char) (c : Char) :
    byteAt (pre ++ c :: rest) pre.length = .ok c := by
  unfold byteAt
  rw [List.getElem?_append_right (Nat.le_refl _), Nat.sub_self]
  rfl

theorem byteAt_add (pre s rest : List Char) (c : Char) :
    byteAt (pre ++ (s ++ c :: rest)) (pre.length + s.length) = .ok c := by
  rw [← List.append_assoc, ← List.length_append]
  exact byteAt_length (pre ++ s) rest c

theorem skipBlanks_append {c : Char} (hc : isBlank c = false) (s rest : List Char) (i : ℕ) :
    skipBlanks (s ++ c :: rest) i = .ok (i + (s.takeWhile isBlank).length) := by
  induction s generalizing i with
  | nil =>
    rw [List.nil_append, skipBlanks, hc]
    rfl
  | cons x s ih =>
    rw [List.cons_append, skipBlanks]
    cases hx : isBlank x with
    | true =>
      rw [if_pos rfl, ih, List.takeWhile_cons_of_pos hx, List.length_cons, Nat.add_right_comm,
        Nat.add_assoc]
    | false =>
      rw [List.takeWhile_cons_of_neg (by simp [hx])]
      rfl

theorem internalStrlen_append {s : List Char} (h : terminator ∉ s) (rest : List Char) (i : ℕ) :
    internalStrlen (s ++ terminator :: rest) i = .ok (i + s.length) := by
  induction s generalizing i with
  | nil => rfl
  | cons x s ih =>
    rw [List.mem_cons, not_or] at h
    rw [List.cons_append, internalStrlen, if_neg (Ne.symm h.1), ih h.2, List.length_cons,
      Nat.add_right_comm, Nat.add_assoc]

theorem lineEnd_append {s : List Char} {c : Char} (h : EndedBy s c) (pre rest : List Char) :
    lineEnd (pre ++ (s ++ c :: rest)) pre.length = .ok (pre.length + s.length) := by
  unfold lineEnd
  rw [List.drop_left, internalStrchr_append h.line h.complete]
  rcases h.ends with rfl | rfl
  · rfl
  · have hnone : internalStrchr '\n' (terminator :: rest) (pre.length + s.length) = none := rfl
    rw [hnone]
    exact internalStrlen_append h.complete rest pre.length

theorem trimEnd_append (pre s rest : List Char) :
    trimEnd (pre ++ (s ++ rest)) pre.length (pre.length + s.length) =
      .ok (pre.length + (s.rdropWhile isBlank).length) := by
  induction s using List.reverseRecOn generalizing rest with
  | nil =>
    rw [rdropWhile_nil, List.length_nil, Nat.add_zero]
    cases pre.length with
    | zero => rfl
    | succ n =>
      rw [trimEnd, if_pos rfl]
      rfl
  | append_singleton s x ih =>
    have hlast : byteAt (pre ++ (s ++ [x] ++ rest)) (pre.length + s.length) = .ok x := by
      rw [List.append_assoc s, List.singleton_append]
      exact byteAt_add pre s rest x
    have hne : pre.length ≠ pre.length + s.length + 1 := by omega
    rw [List.length_append, List.length_singleton, ← Nat.add_assoc, trimEnd, if_neg hne, hlast,
      rdropWhile_concat]
    change (if isBlank x then trimEnd (pre ++ (s ++ [x] ++ rest)) pre.length
      (pre.length + s.length) else .ok (pre.length + s.length + 1)) = _
    split
    · rw [List.append_assoc s]
      exact ih ([x] ++ rest)
    · rw [List.length_append, List.length_singleton, Nat.add_assoc]

/-! ## Types of a line -/

theorem stripPrefix_begins {x : Char} (hx : x ≠ terminator) (p rest : List Char) (i : ℕ) :
    stripPrefix (p ++ x :: rest) (p ++ [terminator]) i = .ok (some (i + p.length)) := by
  induction p generalizing i with
  | nil =>
    rw [List.nil_append, List.nil_append, stripPrefix, if_neg hx, if_pos rfl]
    rfl
  | cons y p ih =>
    rw [List.cons_append, List.cons_append, stripPrefix, if_pos rfl, ih, List.length_cons,
      Nat.add_right_comm, Nat.add_assoc]

/-- A text that ends with its prefix: both terminators are equal. -/
theorem stripPrefix_overread (p rest : List Char) (i : ℕ) :
    stripPrefix (p ++ terminator :: rest) (p ++ [terminator]) i = .error .overread := by
  induction p generalizing i with
  | nil =>
    rw [List.nil_append, List.nil_append, stripPrefix, if_pos rfl]
    cases rest <;> rfl
  | cons y p ih =>
    rw [List.cons_append, List.cons_append, stripPrefix, if_pos rfl]
    exact ih (i + 1)

theorem stripPrefix_differs {p l : List Char} {c : Char} (hp : ¬ p <+: l) (hc : c ∉ p)
    (hnul : terminator ∉ p) (rest : List Char) (i : ℕ) :
    stripPrefix (l ++ c :: rest) (p ++ [terminator]) i = .ok none := by
  induction p generalizing l i with
  | nil => exact absurd (List.nil_prefix) hp
  | cons y p ih =>
    rw [List.mem_cons, not_or] at hc hnul
    cases l with
    | nil =>
      rw [List.nil_append, List.cons_append, stripPrefix, if_neg hc.1, if_neg (Ne.symm hnul.1)]
      rfl
    | cons x l =>
      rw [List.cons_append, List.cons_append, stripPrefix]
      by_cases hxy : x = y
      · rw [if_pos hxy]
        apply ih _ hc.2 hnul.2
        intro hbegins
        apply hp
        rw [hxy]
        exact List.cons_prefix_cons.2 ⟨rfl, hbegins⟩
      · rw [if_neg hxy, if_neg (Ne.symm hnul.1)]
        rfl

section Types

variable {pre l rest : List Char} {c : Char}

/-- A type that the text begins with, as its next byte decides. -/
theorem typeLoop_begins {x : Char} (hx : x ≠ terminator) (type : SuppressionType)
    (types : List SuppressionType) (s : List Char) :
    typeLoop (pre ++ (suppressionTypeString type ++ x :: s)) pre.length (type :: types) =
      if x = ':' then .ok (some (type, pre.length + (suppressionTypeString type).length + 1))
      else typeLoop (pre ++ (suppressionTypeString type ++ x :: s)) pre.length types := by
  rw [typeLoop, List.drop_left, stripPrefix_begins hx]
  change (byteAt _ (pre.length + _) >>= _) = _
  rw [byteAt_add]
  rfl

theorem typeLoop_overread_cons (type : SuppressionType) (types : List SuppressionType) :
    typeLoop (pre ++ (suppressionTypeString type ++ terminator :: rest)) pre.length
      (type :: types) = .error .overread := by
  rw [typeLoop, List.drop_left, stripPrefix_overread]
  rfl

/-- A type that is not the one of the line. -/
theorem typeLoop_next (h : EndedBy l c) {type : SuppressionType}
    (hcolon : ∀ s, l ≠ suppressionTypeString type ++ ':' :: s)
    (hend : ¬ (l = suppressionTypeString type ∧ c = terminator))
    (types : List SuppressionType) :
    typeLoop (pre ++ (l ++ c :: rest)) pre.length (type :: types) =
      typeLoop (pre ++ (l ++ c :: rest)) pre.length types := by
  -- the line begins with the type and goes on without a colon, or it differs from the type before
  by_cases hbegins : suppressionTypeString type <+: l
  · rcases hbegins with ⟨t, rfl⟩
    cases t with
    | nil =>
      rw [List.append_nil] at hend ⊢
      have hnul : c ≠ terminator := fun hc => hend ⟨rfl, hc⟩
      have hc : c ≠ ':' := by
        rcases h.ends with rfl | rfl <;> decide
      rw [typeLoop_begins hnul, if_neg hc]
    | cons x t =>
      have hnul : x ≠ terminator := by
        rintro rfl
        exact h.complete (by simp)
      have hx : x ≠ ':' := by
        rintro rfl
        exact hcolon t rfl
      rw [List.append_assoc, List.cons_append, typeLoop_begins hnul, if_neg hx]
  · have hc : c ∉ suppressionTypeString type := by
      intro hmem
      rcases h.ends with rfl | rfl
      · exact (mem_suppressionTypeString hmem).2.2.1 rfl
      · exact (mem_suppressionTypeString hmem).2.2.2.1 rfl
    have hnul : terminator ∉ suppressionTypeString type := fun hmem =>
      (mem_suppressionTypeString hmem).2.2.2.1 rfl
    rw [typeLoop, List.drop_left, stripPrefix_differs hbegins hc hnul]
    rfl

theorem colon_not_mem_typeString (type : SuppressionType) : ':' ∉ suppressionTypeString type :=
  fun hmem => (mem_suppressionTypeString hmem).1 rfl

/-- The type is found, whatever the types before it. -/
theorem typeLoop_found {type : SuppressionType} {types : List SuppressionType} {s : List Char}
    (h : EndedBy (suppressionTypeString type ++ ':' :: s) c) (hmem : type ∈ types) :
    typeLoop (pre ++ (suppressionTypeString type ++ ':' :: s ++ c :: rest)) pre.length types =
      .ok (some (type, pre.length + (suppressionTypeString type).length + 1)) := by
  induction types with
  | nil => cases hmem
  | cons a types ih =>
    by_cases ha : a = type
    · rw [ha, List.append_assoc, List.cons_append, typeLoop_begins (by decide), if_pos rfl]
    · have hcolon : ∀ t, suppressionTypeString type ++ ':' :: s ≠
          suppressionTypeString a ++ ':' :: t := fun t ht =>
        ha (typeString_prefix_unique ht).symm
      have hend : ¬ (suppressionTypeString type ++ ':' :: s = suppressionTypeString a ∧
          c = terminator) := by
        rintro ⟨hname, -⟩
        apply colon_not_mem_typeString a
        rw [← hname]
        simp
      rw [typeLoop_next h hcolon hend]
      exact ih ((List.mem_cons.1 hmem).resolve_left (Ne.symm ha))

theorem typeLoop_none (h : EndedBy l c) {types : List SuppressionType}
    (hcolon : ∀ type s, l ≠ suppressionTypeString type ++ ':' :: s)
    (hend : ∀ type, ¬ (l = suppressionTypeString type ∧ c = terminator)) :
    typeLoop (pre ++ (l ++ c :: rest)) pre.length types = .ok none := by
  induction types with
  | nil => rfl
  | cons a types ih =>
    rw [typeLoop_next h (hcolon a) (hend a)]
    exact ih

/-- A last line that is a type and nothing else. -/
theorem typeLoop_overread {type : SuppressionType} {types : List SuppressionType}
    (h : EndedBy (suppressionTypeString type) terminator) (hmem : type ∈ types) :
    typeLoop (pre ++ (suppressionTypeString type ++ terminator :: rest)) pre.length types =
      .error .overread := by
  induction types with
  | nil => cases hmem
  | cons a types ih =>
    by_cases ha : a = type
    · rw [ha]
      exact typeLoop_overread_cons type types
    · have hcolon : ∀ t, suppressionTypeString type ≠ suppressionTypeString a ++ ':' :: t := by
        intro t ht
        apply colon_not_mem_typeString type
        rw [ht]
        simp
      have hend : ¬ (suppressionTypeString type = suppressionTypeString a ∧
          terminator = terminator) := fun hname =>
        ha (suppressionTypeString_injective hname.1).symm
      rw [typeLoop_next h hcolon hend]
      exact ih ((List.mem_cons.1 hmem).resolve_left (Ne.symm ha))

end Types

/-! ## One line -/

/-- The last line of a file, cut off behind the type. -/
def CutOff (raw : List Char) : Prop :=
  raw.dropWhile isBlank ∈ suppressionTypes.map suppressionTypeString

instance (raw : List Char) : Decidable (CutOff raw) :=
  inferInstanceAs (Decidable (_ ∈ suppressionTypes.map suppressionTypeString))

section Lines

variable {pre raw rest : List Char} {c : Char}

theorem EndedBy.dropWhile (h : EndedBy raw c) : EndedBy (raw.dropWhile isBlank) c :=
  h.of_suffix (List.dropWhile_suffix isBlank)

theorem parseLine_silent (h : Silent raw) :
    parseLine (pre ++ (raw.dropWhile isBlank ++ c :: rest)) pre.length
      (pre.length + (raw.dropWhile isBlank).length) = .ok [] := by
  rw [silent_iff] at h
  cases hline : raw.dropWhile isBlank with
  | nil =>
    rw [List.length_nil, Nat.add_zero, parseLine, if_pos rfl]
    rfl
  | cons x l =>
    rw [hline, List.head?_cons, Option.some_inj] at h
    have hx : x = '#' := h.resolve_left (List.cons_ne_nil x l)
    have hne : pre.length ≠ pre.length + (x :: l).length := by
      rw [List.length_cons]
      omega
    rw [parseLine, if_neg hne, List.cons_append, byteAt_length, hx]
    rfl

/-- A line that is not silent: its type decides. -/
theorem parseLine_loud (h : ¬ Silent raw) :
    parseLine (pre ++ (raw.dropWhile isBlank ++ c :: rest)) pre.length
        (pre.length + (raw.dropWhile isBlank).length) =
      (typeLoop (pre ++ (raw.dropWhile isBlank ++ c :: rest)) pre.length suppressionTypes >>=
        pushed (pre ++ (raw.dropWhile isBlank ++ c :: rest))
          (pre.length + (trimmed raw).length)) := by
  rw [silent_iff] at h
  unfold trimmed
  cases hline : raw.dropWhile isBlank with
  | nil => exact absurd (.inl hline) h
  | cons x l =>
    rw [hline, List.head?_cons, Option.some_inj] at h
    have hx : x ≠ '#' := fun hx => h (.inr hx)
    have hne : pre.length ≠ pre.length + (x :: l).length := by
      rw [List.length_cons]
      omega
    have hbyte : byteAt (pre ++ (x :: l ++ c :: rest)) pre.length = .ok x :=
      byteAt_length pre (l ++ c :: rest) x
    rw [parseLine, if_neg hne, hbyte]
    change (if x = '#' then _ else _) = _
    rw [if_neg hx, trimEnd_append]
    rfl

theorem parseLine_says (h : EndedBy raw c) {type : SuppressionType} {text : List Char}
    (htext : Says raw type text) :
    parseLine (pre ++ (raw.dropWhile isBlank ++ c :: rest)) pre.length
        (pre.length + (raw.dropWhile isBlank).length) =
      .ok [⟨type, text ++ [terminator]⟩] := by
  have hline := h.dropWhile
  rw [parseLine_loud htext.not_silent, htext]
  rcases says_iff.1 htext with ⟨s, hs, rfl⟩
  rw [hs] at hline ⊢
  rw [typeLoop_found hline (mem_suppressionTypes type)]
  have hbytes : pre ++ (suppressionTypeString type ++ ':' :: s ++ c :: rest) =
      (pre ++ suppressionTypeString type ++ [':']) ++ (s ++ c :: rest) := by simp
  have hstart : pre.length + (suppressionTypeString type).length + 1 =
      (pre ++ suppressionTypeString type ++ [':']).length := by simp [Nat.add_assoc]
  have hlength : pre.length + (suppressionTypeString type ++ ':' :: s.rdropWhile isBlank).length -
      (pre.length + (suppressionTypeString type).length + 1) = (s.rdropWhile isBlank).length := by
    rw [List.length_append, List.length_cons]
    omega
  have htake : (s ++ c :: rest).take (s.rdropWhile isBlank).length = s.rdropWhile isBlank :=
    (List.prefix_iff_eq_take.1 (( rdropWhile_prefix isBlank s).trans (List.prefix_append s _))).symm
  change Except.ok [Suppression.mk type (((pre ++ _).drop _).take _ ++ [terminator])] = _
  rw [hlength, hbytes, hstart, List.drop_left, htake]

/-- What a readable line says is what is pushed. -/
theorem parseLine_rule (h : EndedBy raw c) {rule : Option (SuppressionType × Template)}
    (hrule : LineRule raw rule) :
    parseLine (pre ++ (raw.dropWhile isBlank ++ c :: rest)) pre.length
        (pre.length + (raw.dropWhile isBlank).length) =
      .ok (contextOf rule.toList true).suppressions := by
  cases rule with
  | none => exact parseLine_silent hrule
  | some rule => exact parseLine_says h hrule

/-- Any other line stops the runtime. -/
theorem parseLine_failure (h : EndedBy raw c) (hbad : ¬ Readable raw) :
    parseLine (pre ++ (raw.dropWhile isBlank ++ c :: rest)) pre.length
        (pre.length + (raw.dropWhile isBlank).length) =
      .error (if CutOff raw ∧ c = terminator then .overread else .died) := by
  have hloud : ¬ Silent raw := fun hsilent => hbad ⟨none, hsilent⟩
  have hcolon : ∀ type s, raw.dropWhile isBlank ≠ suppressionTypeString type ++ ':' :: s := by
    intro type s hs
    have hnul : terminator ∉ s.rdropWhile isBlank := by
      intro hmem
      apply h.dropWhile.complete
      rw [hs]
      simp [( rdropWhile_prefix isBlank s).subset hmem]
    exact hbad ⟨some (type, ⟨_, hnul⟩), says_iff.2 ⟨s, hs, rfl⟩⟩
  rw [parseLine_loud hloud]
  split
  · next hcut =>
    rcases hcut with ⟨hcut, rfl⟩
    rcases List.mem_map.1 hcut with ⟨type, hmem, hname⟩
    have hline := h.dropWhile
    rw [← hname] at hline ⊢
    rw [typeLoop_overread hline hmem]
    rfl
  · next hcut =>
    have hend : ∀ type,
        ¬ (raw.dropWhile isBlank = suppressionTypeString type ∧ c = terminator) := by
      rintro type ⟨hname, hc⟩
      exact hcut ⟨List.mem_map.2 ⟨type, mem_suppressionTypes type, hname.symm⟩, hc⟩
    rw [typeLoop_none h.dropWhile hcolon hend]
    rfl

end Lines

/-- A type alone is no rule. -/
theorem CutOff.not_readable {raw : List Char} (h : CutOff raw) : ¬ Readable raw := by
  rcases List.mem_map.1 h with ⟨type, -, hname⟩
  rintro ⟨rule, hrule⟩
  cases rule with
  | none =>
    rcases (silent_iff raw).1 hrule with hline | hline
    · exact suppressionTypeString_ne_nil type (hname.trans hline)
    · rw [← hname] at hline
      exact (mem_suppressionTypeString (List.mem_of_mem_head? hline)).2.1 rfl
  | some rule =>
    rcases says_iff.1 hrule with ⟨s, hs, -⟩
    apply colon_not_mem_typeString type
    rw [hname, hs]
    simp

/-! ## All lines -/

theorem parseLoop_succ {raw : List Char} {c : Char} (h : EndedBy raw c) (pre rest : List Char)
    (fuel : ℕ) (suppressions : List Suppression) :
    parseLoop (pre ++ (raw ++ c :: rest)) (fuel + 1) pre.length suppressions =
      (parseLine ((pre ++ raw.takeWhile isBlank) ++ (raw.dropWhile isBlank ++ c :: rest))
          (pre ++ raw.takeWhile isBlank).length
          ((pre ++ raw.takeWhile isBlank).length + (raw.dropWhile isBlank).length) >>=
        fun found =>
          if c = terminator then .ok (suppressions ++ found)
          else parseLoop ((pre ++ (raw ++ [c])) ++ rest) fuel (pre ++ (raw ++ [c])).length
            (suppressions ++ found)) := by
  -- the line starts behind its blanks and ends at `c`
  have hraw : pre ++ (raw ++ c :: rest) =
      (pre ++ raw.takeWhile isBlank) ++ (raw.dropWhile isBlank ++ c :: rest) := by
    rw [List.append_assoc, ← List.append_assoc (raw.takeWhile isBlank),
      List.takeWhile_append_dropWhile]
  have hline : pre.length + (raw.takeWhile isBlank).length =
      (pre ++ raw.takeWhile isBlank).length := List.length_append.symm
  have hend : (pre ++ raw.takeWhile isBlank).length + (raw.dropWhile isBlank).length =
      pre.length + raw.length := by
    rw [List.length_append, Nat.add_assoc, ← List.length_append, List.takeWhile_append_dropWhile]
  rw [parseLoop, List.drop_left, skipBlanks_append h.not_blank, hline]
  change (lineEnd _ _ >>= _) = _
  rw [hraw, lineEnd_append h.dropWhile]
  change (parseLine _ _ _ >>= _) = _
  congr 1
  funext found
  -- the byte there says whether the file goes on
  have hbyte : byteAt ((pre ++ raw.takeWhile isBlank) ++ (raw.dropWhile isBlank ++ c :: rest))
      ((pre ++ raw.takeWhile isBlank).length + (raw.dropWhile isBlank).length) = .ok c :=
    byteAt_add _ _ rest c
  have hnext : (pre ++ raw.takeWhile isBlank).length + (raw.dropWhile isBlank).length + 1 =
      (pre ++ (raw ++ [c])).length := by
    rw [hend, List.length_append, List.length_append, List.length_singleton, Nat.add_assoc]
  have hbytes : (pre ++ raw.takeWhile isBlank) ++ (raw.dropWhile isBlank ++ c :: rest) =
      (pre ++ (raw ++ [c])) ++ rest := by
    rw [← hraw]
    simp
  rw [hbyte]
  change (if c = terminator then _ else parseLoop _ fuel (_ + 1) _) = _
  rw [hnext, hbytes]
  rfl

/-- A readable line, and the next one. -/
theorem parseLoop_readable {raw : List Char} (h : EndedBy raw '\n')
    {rule : Option (SuppressionType × Template)} (hrule : LineRule raw rule)
    (pre rest : List Char) (fuel : ℕ) (suppressions : List Suppression) :
    parseLoop (pre ++ (raw ++ '\n' :: rest)) (fuel + 1) pre.length suppressions =
      parseLoop ((pre ++ (raw ++ ['\n'])) ++ rest) fuel (pre ++ (raw ++ ['\n'])).length
        (suppressions ++ (contextOf rule.toList true).suppressions) := by
  rw [parseLoop_succ h, parseLine_rule h hrule]
  rfl

/-- The lines of a text. -/
abbrev linesOf (text : List Char) : List (List Char) := text.splitOn '\n'

/-- The lines with newlines between them. -/
abbrev unlines (raws : List (List Char)) : List Char := ['\n'].intercalate raws

theorem unlines_cons (raw raw' : List Char) (raws : List (List Char)) :
    unlines (raw :: raw' :: raws) = raw ++ '\n' :: unlines (raw' :: raws) := by
  simp [unlines, List.intercalate]

section Loop

variable {raws : List (List Char)}

/-- `Parse` pushes what the lines say. -/
theorem parseLoop_rules {rules : List (Option (SuppressionType × Template))}
    (hrules : Forall₂ LineRule raws rules) (hne : raws ≠ [])
    (hraws : ∀ raw ∈ raws, EndedBy raw terminator) {fuel : ℕ} (hfuel : raws.length ≤ fuel)
    (pre rest : List Char) (suppressions : List Suppression) :
    parseLoop (pre ++ (unlines raws ++ terminator :: rest)) fuel pre.length suppressions =
      .ok (suppressions ++ (contextOf rules.reduceOption true).suppressions) := by
  induction hrules generalizing pre fuel suppressions with
  | nil => exact absurd rfl hne
  | @cons raw rule raws rules hrule hrest ih =>
    cases fuel with
    | zero => exact absurd hfuel (Nat.not_succ_le_zero _)
    | succ fuel =>
      have hraw := hraws raw List.mem_cons_self
      cases raws with
      | nil =>
        cases hrest
        have hunlines : unlines [raw] = raw := by simp [unlines, List.intercalate]
        rw [hunlines, parseLoop_succ hraw, parseLine_rule hraw hrule]
        cases rule with
        | none => rfl
        | some rule => rfl
      | cons raw' raws =>
        have hnewline : EndedBy raw '\n' := ⟨hraw.line, hraw.complete, .inl rfl⟩
        rw [unlines_cons, List.append_assoc, List.cons_append, parseLoop_readable hnewline hrule,
          ih (List.cons_ne_nil _ _) (fun r hr => hraws r (List.mem_cons_of_mem _ hr))
            (Nat.le_of_succ_le_succ hfuel), List.append_assoc]
        cases rule with
        | none => rfl
        | some rule => rfl

/-- The file ends within its last line, behind a type. -/
def Unfinished (raws : List (List Char)) : Prop :=
  ∃ init last, raws = init ++ [last] ∧ (∀ raw ∈ init, Readable raw) ∧ CutOff last

theorem unfinished_singleton {raw : List Char} : Unfinished [raw] ↔ CutOff raw := by
  constructor
  · rintro ⟨init, last, heq, -, hcut⟩
    rcases List.append_eq_singleton_iff.1 heq.symm with ⟨-, hlast⟩ | ⟨-, hlast⟩
    · rw [← (List.cons.inj hlast).1]
      exact hcut
    · cases hlast
  · intro hcut
    exact ⟨[], raw, rfl, by simp, hcut⟩

theorem unfinished_cons {raw raw' : List Char} {raws : List (List Char)} :
    Unfinished (raw :: raw' :: raws) ↔ Readable raw ∧ Unfinished (raw' :: raws) := by
  constructor
  · rintro ⟨init, last, heq, hinit, hcut⟩
    cases init with
    | nil => cases heq
    | cons r init =>
      rw [List.cons_append, List.cons_eq_cons] at heq
      rcases heq with ⟨rfl, heq⟩
      exact ⟨hinit raw List.mem_cons_self,
        init, last, heq, fun r hr => hinit r (List.mem_cons_of_mem _ hr), hcut⟩
  · rintro ⟨hraw, init, last, heq, hinit, hcut⟩
    refine ⟨raw :: init, last, by rw [heq, List.cons_append], ?_, hcut⟩
    intro r hr
    rcases List.mem_cons.1 hr with rfl | hr
    · exact hraw
    · exact hinit r hr

theorem Unfinished.bad {raws : List (List Char)} (h : Unfinished raws) :
    ∃ raw ∈ raws, ¬ Readable raw := by
  rcases h with ⟨init, last, rfl, -, hcut⟩
  exact ⟨last, List.mem_append_right init List.mem_cons_self, hcut.not_readable⟩

/-- The first line that is not readable stops the runtime. -/
theorem parseLoop_failure (hbad : ∃ raw ∈ raws, ¬ Readable raw)
    (hraws : ∀ raw ∈ raws, EndedBy raw terminator) {fuel : ℕ} (hfuel : raws.length ≤ fuel)
    (pre rest : List Char) (suppressions : List Suppression) :
    ∃ e, parseLoop (pre ++ (unlines raws ++ terminator :: rest)) fuel pre.length suppressions =
      .error e ∧ (e = .overread ↔ Unfinished raws) := by
  induction raws generalizing pre fuel suppressions with
  | nil => simp at hbad
  | cons raw raws ih =>
    cases fuel with
    | zero => exact absurd hfuel (Nat.not_succ_le_zero _)
    | succ fuel =>
      have hraw := hraws raw List.mem_cons_self
      cases raws with
      | nil =>
        have hunlines : unlines [raw] = raw := by simp [unlines, List.intercalate]
        have hunreadable : ¬ Readable raw := by simpa using hbad
        rw [hunlines, parseLoop_succ hraw, parseLine_failure hraw hunreadable,
          unfinished_singleton]
        refine ⟨_, rfl, ?_⟩
        -- the last line: it may be cut off behind its type
        by_cases hcut : CutOff raw
        · simp [hcut]
        · simp [hcut]
      | cons raw' raws =>
        have hnewline : EndedBy raw '\n' := ⟨hraw.line, hraw.complete, .inl rfl⟩
        rw [unlines_cons, List.append_assoc, List.cons_append, unfinished_cons]
        -- the loop goes on behind a line that can be read
        by_cases hreadable : Readable raw
        · have hbad' : ∃ raw ∈ raw' :: raws, ¬ Readable raw := by
            rcases hbad with ⟨r, hr, hunreadable⟩
            rcases List.mem_cons.1 hr with rfl | hr
            · exact absurd hreadable hunreadable
            · exact ⟨r, hr, hunreadable⟩
          have hrest : ∀ r ∈ raw' :: raws, EndedBy r terminator :=
            fun r hr => hraws r (List.mem_cons_of_mem _ hr)
          rcases hreadable with ⟨rule, hrule⟩
          rw [parseLoop_readable hnewline hrule]
          rcases ih hbad' hrest (Nat.le_of_succ_le_succ hfuel) _ _ with ⟨e, he, hover⟩
          refine ⟨e, he, ?_⟩
          rw [hover]
          exact ⟨fun h => ⟨⟨rule, hrule⟩, h⟩, fun h => h.2⟩
        · rw [parseLoop_succ hnewline, parseLine_failure hnewline hreadable,
            if_neg (fun h => absurd h.2 (by decide))]
          exact ⟨.died, rfl, by simp [hreadable]⟩

end Loop

end Caver.Sanitizer
