import Mathlib.Data.List.TakeWhile
import SchemaExpr.Proofs.LexemeBoundaries
import SchemaExpr.Proofs.Numerals
import SchemaExpr.Proofs.TokenPatterns

/-!
# Scans that read the longest word

The scanner reads the parts of a number or a string one after the other and never backtracks. Each
part is the longest word of its language (`Greedy`), and parts that follow each other compose, since
no word of the second can start with a character that would have continued the first. What may
follow the first character of a number, a string or a word is thereby read as far as it goes.
-/
namespace SchemaExpr.Scan

open Pattern (inRanges)

section Classes

theorem inRanges_nil (c : Char) : inRanges [] c = false := rfl

theorem inRanges_cons (low high : Char) (ranges : List (Char × Char)) (c : Char) :
    inRanges ((low, high) :: ranges) c = (low ≤ c && c ≤ high || inRanges ranges c) := rfl

theorem inRanges_cons_self (d : Char) (ranges : List (Char × Char)) (c : Char) :
    inRanges ((d, d) :: ranges) c = (c == d || inRanges ranges c) := by
  have hsplit : inRanges ((d, d) :: ranges) c = (inRanges [(d, d)] c || inRanges ranges c) := by
    rw [inRanges_cons, inRanges_cons, inRanges_nil, Bool.or_false]
  rw [hsplit, Bool.eq_iff_iff, Bool.or_eq_true, Bool.or_eq_true, Pattern.inRanges_self, beq_iff_eq]

theorem inRanges_cons_digit (ranges : List (Char × Char)) (c : Char) :
    inRanges (('0', '9') :: ranges) c = (c.isDigit || inRanges ranges c) := rfl

theorem inRanges_cons_lower (ranges : List (Char × Char)) (c : Char) :
    inRanges (('a', 'z') :: ranges) c = (c.isLower || inRanges ranges c) := rfl

theorem inRanges_cons_upper (ranges : List (Char × Char)) (c : Char) :
    inRanges (('A', 'Z') :: ranges) c = (c.isUpper || inRanges ranges c) := by
  have hupper : c.isUpper = (decide ('A' ≤ c) && decide (c ≤ 'Z')) := Bool.decide_and _ _
  rw [inRanges_cons, hupper]

theorem inRanges_digit (c : Char) : inRanges [('0', '9')] c = c.isDigit := by
  rw [inRanges_cons_digit, inRanges_nil, Bool.or_false]

theorem inRanges_digitOrSeparator (c : Char) :
    inRanges [('0', '9'), ('_', '_')] c = isDigitOrSeparator c := by
  rw [inRanges_cons_digit, inRanges_cons_self, inRanges_nil, Bool.or_false, isDigitOrSeparator]

theorem inRanges_either (d e c : Char) : inRanges [(d, d), (e, e)] c = true ↔ c = d ∨ c = e := by
  rw [inRanges_cons_self, inRanges_cons_self, inRanges_nil, Bool.or_false, Bool.or_eq_true,
    beq_iff_eq, beq_iff_eq]

theorem inRanges_wordStart (c : Char) :
    inRanges [('a', 'z'), ('A', 'Z'), ('_', '_')] c = isWordStart c := by
  have hstart : isWordStart c = (c.isUpper || c.isLower || c == '_') := rfl
  rw [inRanges_cons_lower, inRanges_cons_upper, inRanges_cons_self, inRanges_nil, Bool.or_false,
    hstart, Bool.or_left_comm, Bool.or_assoc]

theorem inRanges_wordChar (c : Char) :
    inRanges [('a', 'z'), ('A', 'Z'), ('0', '9'), ('_', '_')] c = isWordChar c := by
  have hword : isWordChar c = (c.isUpper || c.isLower || c.isDigit || c == '_') := rfl
  rw [inRanges_cons_lower, inRanges_cons_upper, inRanges_cons_digit, inRanges_cons_self,
    inRanges_nil, Bool.or_false, hword, Bool.or_left_comm, Bool.or_assoc, Bool.or_assoc]

end Classes

/-- The scan reads the longest word of the language that starts a text. -/
structure Greedy (L : Language Char) (scan : List Char → List Char) : Prop where
  mem : ∀ cs, scan cs ∈ L
  isPrefix : ∀ cs, scan cs <+: cs
  longest : ∀ {cs w}, w ∈ L → w <+: cs → w.length ≤ (scan cs).length

namespace Greedy

variable {L M : Language Char} {scan next : List Char → List Char}

theorem takeWhile {ranges : List (Char × Char)} {p : Char → Bool}
    (hp : ∀ c, inRanges ranges c = p c) :
    Greedy (Pattern.star (.oneOf ranges)).language (List.takeWhile p) where
  mem cs := by
    rw [Pattern.mem_star_oneOf]
    intro c hc
    exact (hp c).trans (List.mem_takeWhile_imp hc)
  isPrefix _ := List.takeWhile_prefix p
  longest := by
    rintro _ w hw ⟨rest, rfl⟩
    rw [Pattern.mem_star_oneOf] at hw
    rw [List.takeWhile_append_of_pos fun c hc => (hp c).symm.trans (hw c hc), List.length_append]
    exact Nat.le_add_right ..

/-- Two scans one after the other, if no word of the second language starts with a character of the
first. -/
theorem append (hscan : Greedy L scan) (hnext : Greedy M next) {p : Char → Prop}
    (hfirst : ∀ w ∈ L, ∀ c ∈ w, p c) (hsecond : ∀ c w, c :: w ∈ M → ¬p c) :
    Greedy (L * M) fun cs => scan cs ++ next (cs.drop (scan cs).length) where
  mem cs := Language.append_mem_mul (hscan.mem cs) (hnext.mem _)
  isPrefix := append_isPrefix hscan.isPrefix hnext.isPrefix
  longest := by
    intro cs w hw hstarts
    obtain ⟨u, hu, v, hv, rfl⟩ := Language.mem_mul.mp hw
    have hstart : u <+: cs := (List.prefix_append u v).trans hstarts
    obtain ⟨t, ht⟩ := List.prefix_of_prefix_length_le hstart (hscan.isPrefix cs)
      (hscan.longest hu hstart)
    obtain ⟨rest, rfl⟩ := hstart
    cases t with
    | nil =>
      rw [List.append_nil] at ht
      rw [List.prefix_append_right_inj] at hstarts
      rw [← ht, List.drop_left, List.length_append, List.length_append]
      exact Nat.add_le_add_left (hnext.longest hv hstarts) _
    | cons x t =>
      have hmore : x :: t <+: rest := by
        have hscanned := hscan.isPrefix (u ++ rest)
        rwa [← ht, List.prefix_append_right_inj] at hscanned
      rw [List.prefix_append_right_inj] at hstarts
      cases v with
      | nil =>
        rw [← ht, List.append_nil, List.append_assoc, List.length_append]
        exact Nat.le_add_right ..
      | cons y v =>
        have hyx : y = x := by
          obtain ⟨more, rfl⟩ := hmore
          exact (List.cons_prefix_cons.mp hstarts).1
        have hmem : u ++ x :: t ∈ L := ht ▸ hscan.mem _
        exact absurd (hfirst _ hmem y (by simp [hyx])) (hsecond y v hv)

end Greedy

section Numbers

theorem greedy_digits : Greedy (Pattern.star (.oneOf [('0', '9'), ('_', '_')])).language
    (List.takeWhile isDigitOrSeparator) :=
  Greedy.takeWhile inRanges_digitOrSeparator

def pointPattern : Pattern := .seq (.char '.') .digits

theorem mem_digits {w : List Char} : w ∈ Pattern.digits.language ↔
    ∃ d u, w = d :: u ∧ d.isDigit = true ∧ ∀ c ∈ u, isDigitOrSeparator c = true := by
  simp [Pattern.digits, inRanges_digit, inRanges_digitOrSeparator]

theorem greedy_fraction : Greedy (Pattern.optional pointPattern).language fraction where
  mem cs := by
    unfold fraction
    split
    · next d cs =>
      split
      · next hd =>
        rw [Pattern.mem_optional, pointPattern, Pattern.mem_seq_char]
        refine .inr ⟨_, rfl, mem_digits.mpr ⟨d, _, rfl, hd, fun c hc => List.mem_takeWhile_imp hc⟩⟩
      · exact .inl rfl
    · exact .inl rfl
  isPrefix := fraction_isPrefix
  longest := by
    rintro _ w hw ⟨rest, rfl⟩
    rw [Pattern.mem_optional, pointPattern, Pattern.mem_seq_char] at hw
    rcases hw with rfl | ⟨_, rfl, hw⟩
    · exact Nat.zero_le _
    · obtain ⟨d, u, rfl, hd, hu⟩ := mem_digits.mp hw
      have hle := greedy_digits.longest (Pattern.mem_star_oneOf.mpr fun c hc =>
        (inRanges_digitOrSeparator c).trans (hu c hc)) (List.prefix_append u rest)
      simpa [fraction, hd] using hle

theorem mem_sign {s : List Char} :
    s ∈ (Pattern.optional (.oneOf [('+', '+'), ('-', '-')])).language ↔
      s = [] ∨ s = ['+'] ∨ s = ['-'] := by
  rw [Pattern.mem_optional, Pattern.mem_oneOf]
  simp only [inRanges_either]
  grind

theorem mem_exponent {w : List Char} : w ∈ Pattern.exponent.language ↔
    ∃ letter s ds, w = letter :: (s ++ ds) ∧ (letter = 'e' ∨ letter = 'E') ∧
      (s = [] ∨ s = ['+'] ∨ s = ['-']) ∧ ds ≠ [] ∧ ∀ d ∈ ds, d.isDigit = true := by
  rw [Pattern.exponent, Pattern.mem_seq_oneOf]
  simp only [inRanges_either, Pattern.mem_seq, mem_sign, Pattern.mem_oneOrMore_oneOf,
    inRanges_digit]
  constructor
  · rintro ⟨letter, _, rfl, hletter, s, hs, ds, hds, rfl⟩
    exact ⟨letter, s, ds, rfl, hletter, hs, hds⟩
  · rintro ⟨letter, s, ds, rfl, hletter, hs, hds⟩
    exact ⟨letter, _, rfl, hletter, s, hs, ds, hds, rfl⟩

theorem sign_cases (cs : List Char) : sign cs = [] ∨ sign cs = ['+'] ∨ sign cs = ['-'] := by
  cases cs with
  | nil => exact .inl rfl
  | cons c cs =>
    by_cases h : c = '+' ∨ c = '-'
    · rcases h with rfl | rfl <;> simp [sign]
    · simp [sign, h]

theorem sign_append {s ds : List Char} (hs : s = [] ∨ s = ['+'] ∨ s = ['-']) (hne : ds ≠ [])
    (hds : ∀ d ∈ ds, d.isDigit = true) (rest : List Char) : sign (s ++ ds ++ rest) = s := by
  rcases hs with rfl | rfl | rfl
  · obtain ⟨d, ds, rfl⟩ := List.exists_cons_of_ne_nil hne
    exact sign_digit fun c hc => by simp_all
  · rfl
  · rfl

theorem greedy_exponent : Greedy (Pattern.optional .exponent).language exponent where
  mem cs := by
    cases cs with
    | nil => exact .inl rfl
    | cons letter cs =>
      rw [exponent]
      split
      · next h =>
        exact .inr (mem_exponent.mpr ⟨letter, _, _, rfl, h.1, sign_cases cs, h.2,
          fun d hd => List.mem_takeWhile_imp hd⟩)
      · exact .inl rfl
  isPrefix := exponent_isPrefix
  longest := by
    rintro _ w hw ⟨rest, rfl⟩
    rcases hw with rfl | hw
    · exact Nat.zero_le _
    · obtain ⟨letter, s, ds, rfl, hletter, hs, hne, hds⟩ := mem_exponent.mp hw
      have hsign := sign_append hs hne hds rest
      have hdigits : ((s ++ ds ++ rest).drop s.length).takeWhile Char.isDigit =
          ds ++ rest.takeWhile Char.isDigit := by
        rw [List.append_assoc, List.drop_left, List.takeWhile_append_of_pos hds]
      have hread : exponent (letter :: (s ++ ds) ++ rest) =
          letter :: (s ++ (ds ++ rest.takeWhile Char.isDigit)) := by
        rw [List.cons_append, exponent, hsign, hdigits]
        simp [hletter, hne]
      rw [hread]
      simp only [List.length_cons, List.length_append]
      omega

def decimalTails : Language Char :=
  (Pattern.star (.oneOf [('0', '9'), ('_', '_')])).language *
    (Pattern.optional pointPattern).language * (Pattern.optional .exponent).language

theorem mem_star_digits {w : List Char} :
    w ∈ (Pattern.star (.oneOf [('0', '9'), ('_', '_')])).language ↔
      ∀ c ∈ w, isDigitOrSeparator c = true := by
  simp [inRanges_digitOrSeparator]

theorem mem_optional_point {w : List Char} : w ∈ (Pattern.optional pointPattern).language ↔
    w = [] ∨ ∃ d u, w = '.' :: d :: u ∧ d.isDigit = true ∧
      ∀ c ∈ u, isDigitOrSeparator c = true := by
  simp [pointPattern, mem_digits]

theorem mem_whole_point {w : List Char} {c : Char} (hw : w ∈
    (Pattern.star (.oneOf [('0', '9'), ('_', '_')])).language *
      (Pattern.optional pointPattern).language) (hc : c ∈ w) :
    isDigitOrSeparator c = true ∨ c = '.' := by
  obtain ⟨u, hu, v, hv, rfl⟩ := hw
  rcases List.mem_append.mp hc with hc | hc
  · exact .inl (mem_star_digits.mp hu c hc)
  · rcases mem_optional_point.mp hv with rfl | ⟨d, v, rfl, hd, hv⟩
    · cases hc
    · have hd := isDigitOrSeparator_of_isDigit hd
      grind

theorem head_optional_point {c : Char} {w : List Char}
    (h : c :: w ∈ (Pattern.optional pointPattern).language) : c = '.' := by
  rcases mem_optional_point.mp h with h | ⟨d, u, h, -⟩
  · cases h
  · exact (List.cons.inj h).1

theorem head_optional_exponent {c : Char} {w : List Char}
    (h : c :: w ∈ (Pattern.optional .exponent).language) : c = 'e' ∨ c = 'E' := by
  rcases h with h | h
  · cases h
  · obtain ⟨letter, s, ds, h, hletter, -⟩ := mem_exponent.mp h
    rwa [(List.cons.inj h).1]

theorem greedy_decimalTail : Greedy decimalTails decimalTail := by
  refine (greedy_digits.append greedy_fraction (fun w hw => mem_star_digits.mp hw) ?_).append
    greedy_exponent (fun w hw c hc => mem_whole_point hw hc) ?_
  · intro c w hw
    rw [head_optional_point hw]
    decide
  · intro c w hw
    rcases head_optional_exponent hw with rfl | rfl <;> decide

/-- The decimal patterns are one: a point with digits and an exponent may follow, or not. -/
theorem decimal_language :
    Pattern.digits.language +
        (Pattern.seq .digits (.seq (.char '.') (.seq .digits (.optional .exponent)))).language +
        (Pattern.seq .digits .exponent).language =
      (Pattern.oneOf [('0', '9')]).language * decimalTails := by
  let first := (Pattern.oneOf [('0', '9')]).language
  let more := (Pattern.star (.oneOf [('0', '9'), ('_', '_')])).language
  let point := (Pattern.char '.').language
  let exponent := Pattern.exponent.language
  change first * more + first * more * (point * (first * more * (1 + exponent))) +
    first * more * exponent = first * (more * (1 + point * (first * more)) * (1 + exponent))
  simp only [mul_add, add_mul, mul_one, mul_assoc]
  ac_rfl

theorem radixDigit?_eq_some {letter : Char} {digit : Char → Bool} :
    radixDigit? letter = some digit ↔
      (letter = 'x' ∨ letter = 'X') ∧ digit = (fun c => isHexDigit c || c == '_') ∨
      (letter = 'o' ∨ letter = 'O') ∧ digit = (fun c => ('0' ≤ c && c ≤ '7') || c == '_') ∨
      (letter = 'b' ∨ letter = 'B') ∧ digit = (fun c => c == '0' || c == '1' || c == '_') := by
  unfold radixDigit?
  constructor
  · intro h
    split at h
    · next hletter => exact .inl ⟨hletter, (Option.some.inj h).symm⟩
    · split at h
      · next hletter => exact .inr (.inl ⟨hletter, (Option.some.inj h).symm⟩)
      · split at h
        · next hletter => exact .inr (.inr ⟨hletter, (Option.some.inj h).symm⟩)
        · cases h
  · rintro (⟨rfl | rfl, rfl⟩ | ⟨rfl | rfl, rfl⟩ | ⟨rfl | rfl, rfl⟩) <;> rfl

/-- What may follow a leading zero besides the rest of a decimal number. -/
def radixTails : Language Char :=
  {w | ∃ letter digit u, w = letter :: u ∧ radixDigit? letter = some digit ∧ u ≠ [] ∧
    ∀ c ∈ u, digit c = true}

theorem mem_radix {letters digits : List (Char × Char)} {w : List Char} :
    w ∈ (Pattern.radix letters digits).language ↔ ∃ letter u, w = '0' :: letter :: u ∧
      inRanges letters letter = true ∧ u ≠ [] ∧ ∀ c ∈ u, inRanges digits c = true := by
  rw [Pattern.radix, Pattern.mem_seq_char]
  simp only [Pattern.mem_seq_oneOf, Pattern.mem_oneOrMore_oneOf]
  grind

theorem inRanges_hexDigit (c : Char) :
    inRanges [('0', '9'), ('a', 'f'), ('A', 'F'), ('_', '_')] c = (isHexDigit c || c == '_') := by
  rw [inRanges_cons_digit, inRanges_cons, inRanges_cons, inRanges_cons_self, inRanges_nil,
    Bool.or_false, isHexDigit, Bool.or_assoc, Bool.or_assoc]

theorem inRanges_octalDigit (c : Char) :
    inRanges [('0', '7'), ('_', '_')] c = (('0' ≤ c && c ≤ '7') || c == '_') := by
  rw [inRanges_cons, inRanges_cons_self, inRanges_nil, Bool.or_false]

theorem inRanges_binaryDigit (c : Char) :
    inRanges [('0', '0'), ('1', '1'), ('_', '_')] c = (c == '0' || c == '1' || c == '_') := by
  rw [inRanges_cons_self, inRanges_cons_self, inRanges_cons_self, inRanges_nil, Bool.or_false,
    Bool.or_assoc]

theorem greedy_radixTail : Greedy (1 + radixTails) radixTail where
  mem cs := by
    cases cs with
    | nil => exact .inl rfl
    | cons letter cs =>
      rw [radixTail]
      split
      · next digit hdigit =>
        split
        · exact .inl rfl
        · next hne =>
          exact .inr ⟨letter, digit, _, rfl, hdigit, hne, fun c hc => List.mem_takeWhile_imp hc⟩
      · exact .inl rfl
  isPrefix := radixTail_isPrefix
  longest := by
    rintro _ w hw ⟨rest, rfl⟩
    rcases hw with rfl | ⟨letter, digit, u, rfl, hdigit, hne, hu⟩
    · exact Nat.zero_le _
    · have hread : radixTail (letter :: u ++ rest) = letter :: (u ++ rest.takeWhile digit) := by
        rw [List.cons_append, radixTail]
        simp [hdigit, List.takeWhile_append_of_pos hu, hne]
      rw [hread, ← List.cons_append, List.length_append]
      exact Nat.le_add_right ..

theorem mem_radixes {w : List Char} :
    (∃ p ∈ [Pattern.radix [('x', 'x'), ('X', 'X')]
          [('0', '9'), ('a', 'f'), ('A', 'F'), ('_', '_')],
        .radix [('o', 'o'), ('O', 'O')] [('0', '7'), ('_', '_')],
        .radix [('b', 'b'), ('B', 'B')] [('0', '0'), ('1', '1'), ('_', '_')]],
      w ∈ p.language) ↔ ∃ u, w = '0' :: u ∧ u ∈ radixTails := by
  simp only [List.exists_mem_cons_iff, List.not_mem_nil, false_and, exists_false, or_false,
    mem_radix, inRanges_either, inRanges_hexDigit, inRanges_octalDigit, inRanges_binaryDigit]
  constructor
  · rintro (⟨letter, u, rfl, hletter, hu⟩ | ⟨letter, u, rfl, hletter, hu⟩ |
      ⟨letter, u, rfl, hletter, hu⟩)
    · exact ⟨_, rfl, letter, _, u, rfl, radixDigit?_eq_some.mpr (.inl ⟨hletter, rfl⟩), hu⟩
    · exact ⟨_, rfl, letter, _, u, rfl, radixDigit?_eq_some.mpr (.inr (.inl ⟨hletter, rfl⟩)), hu⟩
    · exact ⟨_, rfl, letter, _, u, rfl, radixDigit?_eq_some.mpr (.inr (.inr ⟨hletter, rfl⟩)), hu⟩
  · rintro ⟨_, rfl, letter, digit, u, rfl, hdigit, hu⟩
    rcases radixDigit?_eq_some.mp hdigit with ⟨hletter, rfl⟩ | ⟨hletter, rfl⟩ | ⟨hletter, rfl⟩
    · exact .inl ⟨letter, u, rfl, hletter, hu⟩
    · exact .inr (.inl ⟨letter, u, rfl, hletter, hu⟩)
    · exact .inr (.inr ⟨letter, u, rfl, hletter, hu⟩)

theorem mem_decimals {w : List Char} :
    w ∈ (Pattern.oneOf [('0', '9')]).language * decimalTails ↔
      ∃ c u, w = c :: u ∧ c.isDigit = true ∧ u ∈ decimalTails := by
  simp only [Language.mem_mul, Pattern.mem_oneOf, inRanges_digit]
  constructor
  · rintro ⟨_, ⟨c, rfl, hc⟩, u, hu, rfl⟩
    exact ⟨c, u, rfl, hc, hu⟩
  · rintro ⟨c, u, rfl, hc, hu⟩
    exact ⟨[c], ⟨c, rfl, hc⟩, u, hu, rfl⟩

theorem mem_numbers {w : List Char} : (∃ p ∈ Pattern.numbers, w ∈ p.language) ↔
    ∃ c u, w = c :: u ∧ c.isDigit = true ∧ (u ∈ decimalTails ∨ c = '0' ∧ u ∈ radixTails) := by
  have hsplit : (∃ p ∈ Pattern.numbers, w ∈ p.language) ↔
      w ∈ (Pattern.oneOf [('0', '9')]).language * decimalTails ∨
        ∃ u, w = '0' :: u ∧ u ∈ radixTails := by
    rw [← decimal_language, ← mem_radixes]
    simp only [Pattern.numbers, List.exists_mem_cons_iff, List.not_mem_nil, false_and,
      exists_false, or_false, Language.mem_add]
    grind
  rw [hsplit, mem_decimals]
  constructor
  · rintro (⟨c, u, rfl, hc, hu⟩ | ⟨u, rfl, hu⟩)
    · exact ⟨c, u, rfl, hc, .inl hu⟩
    · exact ⟨'0', u, rfl, rfl, .inr ⟨rfl, hu⟩⟩
  · rintro ⟨c, u, rfl, hc, hu | ⟨rfl, hu⟩⟩
    · exact .inl ⟨c, u, rfl, hc, hu⟩
    · exact .inr ⟨u, rfl, hu⟩

theorem head_decimalTails {c : Char} {w : List Char} (h : c :: w ∈ decimalTails) :
    radixDigit? c = none := by
  obtain ⟨u, hu, v, hv, heq⟩ := Language.mem_mul.mp h
  cases u with
  | nil =>
    rw [List.nil_append] at heq
    subst heq
    rcases head_optional_exponent hv with rfl | rfl <;> rfl
  | cons d u =>
    obtain ⟨rfl, -⟩ := List.cons.inj heq
    rcases mem_whole_point hu List.mem_cons_self with hd | rfl
    · rw [isDigitOrSeparator, Bool.or_eq_true, beq_iff_eq] at hd
      rcases hd with hd | rfl
      · exact (Literal.isDigit_class hd).2.1
      · rfl
    · rfl

def numberTails (c : Char) : Language Char := {u | u ∈ decimalTails ∨ c = '0' ∧ u ∈ radixTails}

theorem radixTails_of_radixTail_ne_nil {cs : List Char} (h : radixTail cs ≠ []) :
    radixTail cs ∈ radixTails := by
  rcases greedy_radixTail.mem cs with hnil | hmem
  · exact absurd hnil h
  · exact hmem

theorem greedy_number (c : Char) : Greedy (numberTails c) fun cs => (number c cs).tail where
  mem cs := by
    rw [number]
    split
    · next h => exact .inr ⟨h.1, radixTails_of_radixTail_ne_nil h.2⟩
    · exact .inl (greedy_decimalTail.mem cs)
  isPrefix cs := by
    rw [number]
    split
    · exact radixTail_isPrefix cs
    · exact decimalTail_isPrefix cs
  longest := by
    intro cs u hu hstarts
    rw [number]
    split
    · next h =>
      rcases hu with hu | ⟨-, hu⟩
      · -- After `0x` and a digit, a decimal number could only be the zero.
        cases u with
        | nil => exact Nat.zero_le _
        | cons d u =>
          obtain ⟨letter, digit, v, hv, hdigit, -⟩ := radixTails_of_radixTail_ne_nil h.2
          obtain ⟨rest, rfl⟩ := hstarts
          have hd : d = letter := (List.cons_prefix_cons.mp (hv ▸ radixTail_isPrefix _)).1.symm
          have hnone := head_decimalTails hu
          rw [hd, hdigit] at hnone
          cases hnone
      · exact greedy_radixTail.longest (.inr hu) hstarts
    · next h =>
      rcases hu with hu | ⟨rfl, hu⟩
      · exact greedy_decimalTail.longest hu hstarts
      · have hnil : radixTail cs = [] := by simpa using h
        have hle := greedy_radixTail.longest (.inr hu) hstarts
        rw [hnil] at hle
        exact hle.trans (Nat.zero_le _)

theorem number_eq (c : Char) (cs : List Char) : number c cs = c :: (number c cs).tail := by
  rw [number]
  split <;> rfl

end Numbers

section Strings

def stringTails (quote : Char) : Language Char :=
  (Pattern.units quote).language *
    ((Pattern.char quote).language + (Pattern.optional (.char '\\')).language)

theorem mem_strings {quote : Char} {w : List Char} :
    (∃ p ∈ Pattern.strings quote, w ∈ p.language) ↔
      ∃ u, w = quote :: u ∧ u ∈ stringTails quote := by
  have htails : stringTails quote = (Pattern.seq (.units quote) (.char quote)).language +
      (Pattern.seq (.units quote) (.optional (.char '\\'))).language := mul_add ..
  simp only [Pattern.strings, List.exists_mem_cons_iff, List.not_mem_nil, false_and, exists_false,
    or_false, Pattern.mem_seq_char, htails, Language.mem_add]
  grind

theorem mem_unit {quote : Char} {w : List Char} :
    w ∈ (Pattern.alt (.noneOf [quote, '\\'])
        (.seq (.char '\\') (.alt (.noneOf ['\n']) (.char '\n')))).language ↔
      (∃ c, w = [c] ∧ c ≠ quote ∧ c ≠ '\\') ∨ ∃ c, w = ['\\', c] := by
  simp only [Pattern.mem_alt, Pattern.mem_noneOf, Pattern.mem_seq_char, Pattern.mem_char,
    List.mem_cons, List.not_mem_nil, or_false]
  grind

theorem mem_units {quote : Char} {w : List Char} : w ∈ (Pattern.units quote).language ↔
    w = [] ∨ (∃ c u, w = c :: u ∧ c ≠ quote ∧ c ≠ '\\' ∧ u ∈ (Pattern.units quote).language) ∨
      ∃ c u, w = '\\' :: c :: u ∧ u ∈ (Pattern.units quote).language := by
  rw [Pattern.units, Pattern.mem_star_iff]
  simp only [mem_unit]
  constructor
  · rintro (h | ⟨_, ⟨c, rfl, hquote, hslash⟩ | ⟨c, rfl⟩, u, hu, rfl⟩)
    · exact .inl h
    · exact .inr (.inl ⟨c, u, rfl, hquote, hslash, hu⟩)
    · exact .inr (.inr ⟨c, u, rfl, hu⟩)
  · rintro (h | ⟨c, u, rfl, hquote, hslash, hu⟩ | ⟨c, u, rfl, hu⟩)
    · exact .inl h
    · exact .inr ⟨[c], .inl ⟨c, rfl, hquote, hslash⟩, u, hu, rfl⟩
    · exact .inr ⟨['\\', c], .inr ⟨c, rfl⟩, u, hu, rfl⟩

theorem mem_stringEnd {quote : Char} {w : List Char} :
    w ∈ (Pattern.char quote).language + (Pattern.optional (.char '\\')).language ↔
      w = [quote] ∨ w = [] ∨ w = ['\\'] := by
  rw [Language.mem_add, Pattern.mem_optional, Pattern.mem_char, Pattern.mem_char]

/-- The tails of a string, one unit at a time. -/
theorem mem_stringTails {quote : Char} {w : List Char} : w ∈ stringTails quote ↔
    (w = [quote] ∨ w = [] ∨ w = ['\\']) ∨
      (∃ c u, w = c :: u ∧ c ≠ quote ∧ c ≠ '\\' ∧ u ∈ stringTails quote) ∨
      ∃ c u, w = '\\' :: c :: u ∧ u ∈ stringTails quote := by
  simp only [stringTails, Language.mem_mul, mem_stringEnd]
  constructor
  · rintro ⟨u, hu, v, hv, rfl⟩
    rcases mem_units.mp hu with rfl | ⟨c, u, rfl, hquote, hslash, hmore⟩ | ⟨c, u, rfl, hmore⟩
    · exact .inl hv
    · exact .inr (.inl ⟨c, u ++ v, rfl, hquote, hslash, u, hmore, v, hv, rfl⟩)
    · exact .inr (.inr ⟨c, u ++ v, rfl, u, hmore, v, hv, rfl⟩)
  · rintro (hw | ⟨c, _, rfl, hquote, hslash, u, hu, v, hv, rfl⟩ | ⟨c, _, rfl, u, hu, v, hv, rfl⟩)
    · exact ⟨[], mem_units.mpr (.inl rfl), w, hw, rfl⟩
    · exact ⟨c :: u, mem_units.mpr (.inr (.inl ⟨c, u, rfl, hquote, hslash, hu⟩)), v, hv, rfl⟩
    · exact ⟨'\\' :: c :: u, mem_units.mpr (.inr (.inr ⟨c, u, rfl, hu⟩)), v, hv, rfl⟩

theorem ne_backslash {c : Char} {cs : List Char} (hend : c = '\\' → cs = [] → False)
    (hescape : ∀ d ds, c = '\\' → cs = d :: ds → False) : c ≠ '\\' := by
  intro hc
  cases cs with
  | nil => exact hend hc rfl
  | cons d ds => exact hescape d ds hc rfl

theorem length_le_of_stringEnd {quote : Char} {w : List Char}
    (h : w = [quote] ∨ w = [] ∨ w = ['\\']) : w.length ≤ 1 := by
  rcases h with rfl | rfl | rfl <;> simp

theorem greedy_stringTail (quote : Char) : Greedy (stringTails quote) (stringTail quote) where
  mem cs := by
    fun_induction stringTail quote cs with
    | case1 => exact mem_stringTails.mpr (.inl (.inr (.inl rfl)))
    | case2 => exact mem_stringTails.mpr (.inl (.inr (.inr rfl)))
    | case3 c cs ih => exact mem_stringTails.mpr (.inr (.inr ⟨c, _, rfl, ih⟩))
    | case4 => exact mem_stringTails.mpr (.inl (.inl rfl))
    | case5 c cs hend hescape hquote ih =>
      exact mem_stringTails.mpr (.inr (.inl ⟨c, _, rfl, hquote, ne_backslash hend hescape, ih⟩))
  isPrefix := stringTail_isPrefix quote
  longest := by
    intro cs w hw hstarts
    fun_induction stringTail quote cs generalizing w with
    | case1 => exact hstarts.length_le
    | case2 => exact hstarts.length_le
    | case3 c cs ih =>
      rcases mem_stringTails.mp hw with hend | ⟨d, u, rfl, -, hslash, hu⟩ | ⟨d, u, rfl, hu⟩
      · exact (length_le_of_stringEnd hend).trans (Nat.le_add_left ..)
      · exact absurd (List.cons_prefix_cons.mp hstarts).1 hslash
      · have hmore := (List.cons_prefix_cons.mp (List.cons_prefix_cons.mp hstarts).2).2
        exact Nat.succ_le_succ (Nat.succ_le_succ (ih hu hmore))
    | case4 cs hend hescape =>
      rcases mem_stringTails.mp hw with hend | ⟨d, u, rfl, hquote, -⟩ | ⟨d, u, rfl, -⟩
      · exact length_le_of_stringEnd hend
      · exact absurd (List.cons_prefix_cons.mp hstarts).1 hquote
      · exact absurd (List.cons_prefix_cons.mp hstarts).1.symm (ne_backslash hend hescape)
    | case5 c cs hend hescape hquote ih =>
      rcases mem_stringTails.mp hw with hend | ⟨d, u, rfl, -, -, hu⟩ | ⟨d, u, rfl, -⟩
      · exact (length_le_of_stringEnd hend).trans (Nat.le_add_left ..)
      · exact Nat.succ_le_succ (ih hu (List.cons_prefix_cons.mp hstarts).2)
      · exact absurd (List.cons_prefix_cons.mp hstarts).1.symm (ne_backslash hend hescape)

end Strings

section Words

def wordTails : Language Char :=
  (Pattern.star (.oneOf [('a', 'z'), ('A', 'Z'), ('0', '9'), ('_', '_')])).language

theorem greedy_word : Greedy wordTails (List.takeWhile isWordChar) :=
  Greedy.takeWhile inRanges_wordChar

theorem mem_wordTails {w : List Char} : w ∈ wordTails ↔ ∀ c ∈ w, isWordChar c = true := by
  simp [wordTails, inRanges_wordChar]

theorem mem_ident {w : List Char} : w ∈ Pattern.ident.language ↔
    ∃ c u, w = c :: u ∧ isWordStart c = true ∧ u ∈ wordTails := by
  rw [Pattern.ident, Pattern.mem_seq_oneOf]
  simp only [inRanges_wordStart]
  rfl

end Words

end SchemaExpr.Scan
