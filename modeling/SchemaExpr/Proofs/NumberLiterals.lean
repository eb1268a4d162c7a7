import Mathlib.Data.Nat.Digits.Defs
import SchemaExpr.Proofs.LongestMatch
import SchemaExpr.Proofs.SpanIndependence

/-!
# The values of number literals

The patterns of numbers fall into integers, each with a radix and digits among which separators may
stand, and numbers with a fraction or an exponent. The digits of an integer have a positional value,
and a literal is read as that value unless it needs more than 64 bits. The patterns leave nothing to
the reader that it could not convert, except for a radix letter with separators only.
-/
namespace SchemaExpr

namespace Literal

/-- The character is the digit `d` of a radix. Letters, small or capital, continue after nine. -/
def IsDigitOf (radix : Nat) (c : Char) (d : Nat) : Prop :=
  d < radix ∧ (c = Nat.digitChar d ∨ c = (Nat.digitChar d).toUpper)

/-- The digits, the most significant first and with separators among them, have this value. -/
def Denotes (radix : Nat) (digits : List Char) (value : Nat) : Prop :=
  ∃ ds, List.Forall₂ (IsDigitOf radix) (digits.filter (· ≠ '_')) ds ∧
    value = Nat.ofDigits radix ds.reverse

/-- An integer literal with its radix and its digits, those after the radix letter if there is
one. -/
inductive IntegerText : (text : List Char) → (radix : Nat) → (digits : List Char) → Prop
  | decimal {digits} : digits ∈ Pattern.digits.language → IntegerText digits 10 digits
  | hexadecimal {letter digits} :
      '0' :: letter :: digits ∈ (Pattern.radix [('x', 'x'), ('X', 'X')]
        [('0', '9'), ('a', 'f'), ('A', 'F'), ('_', '_')]).language →
      IntegerText ('0' :: letter :: digits) 16 digits
  | octal {letter digits} :
      '0' :: letter :: digits ∈ (Pattern.radix [('o', 'o'), ('O', 'O')]
        [('0', '7'), ('_', '_')]).language →
      IntegerText ('0' :: letter :: digits) 8 digits
  | binary {letter digits} :
      '0' :: letter :: digits ∈ (Pattern.radix [('b', 'b'), ('B', 'B')]
        [('0', '0'), ('1', '1'), ('_', '_')]).language →
      IntegerText ('0' :: letter :: digits) 2 digits

/-- A literal with a fraction or an exponent. -/
def FloatText (text : List Char) : Prop :=
  text ∈ (Pattern.seq .digits
      (.seq (.char '.') (.seq .digits (.optional .exponent)))).language ∨
    text ∈ (Pattern.seq .digits .exponent).language

section Values

theorem digitValue_of_isDigitOf {radix : Nat} (hradix : radix ≤ 16) {c : Char} {d : Nat}
    (h : IsDigitOf radix c d) : digitValue c = d := by
  have hall : ∀ d < 16, digitValue (Nat.digitChar d) = d ∧
      digitValue (Nat.digitChar d).toUpper = d := by decide
  obtain ⟨hd, rfl | rfl⟩ := h
  · exact (hall d (Nat.lt_of_lt_of_le hd hradix)).1
  · exact (hall d (Nat.lt_of_lt_of_le hd hradix)).2

/-- Horner's rule, read from the least significant digit. -/
theorem positional_reverse {radix : Nat} (hradix : radix ≤ 16) {cs : List Char} {ds : List Nat}
    (h : List.Forall₂ (IsDigitOf radix) cs ds) :
    positional radix cs.reverse = Nat.ofDigits radix ds := by
  induction h with
  | nil => rfl
  | @cons c d cs ds hd _ ih =>
    have hstep : positional radix (cs.reverse ++ [c]) =
        positional radix cs.reverse * radix + digitValue c := by simp [positional]
    rw [List.reverse_cons, hstep, ih, digitValue_of_isDigitOf hradix hd, Nat.ofDigits_cons,
      Nat.mul_comm, Nat.add_comm]

theorem Denotes.eq_positional {radix : Nat} (hradix : radix ≤ 16) {digits : List Char}
    {value : Nat} (h : Denotes radix digits value) :
    value = positional radix (digits.filter (· ≠ '_')) := by
  obtain ⟨ds, hdigits, rfl⟩ := h
  rw [← positional_reverse hradix (List.forall₂_reverse_iff.mpr hdigits), List.reverse_reverse]

/-- Where every character but the separators is a digit, there is one value. -/
theorem denotes_iff {radix : Nat} (hradix : radix ≤ 16) {digits : List Char}
    (hdigits : ∀ c ∈ digits, c ≠ '_' → ∃ d, IsDigitOf radix c d) (value : Nat) :
    Denotes radix digits value ↔ value = positional radix (digits.filter (· ≠ '_')) := by
  refine ⟨fun h => h.eq_positional hradix, ?_⟩
  rintro rfl
  have hall : ∀ c ∈ digits.filter (· ≠ '_'), IsDigitOf radix c (digitValue c) := by
    intro c hc
    obtain ⟨hmem, hne⟩ := List.mem_filter.mp hc
    obtain ⟨d, hd⟩ := hdigits c hmem (of_decide_eq_true hne)
    rwa [digitValue_of_isDigitOf hradix hd]
  have hforall : List.Forall₂ (IsDigitOf radix) (digits.filter (· ≠ '_'))
      ((digits.filter (· ≠ '_')).map digitValue) :=
    List.forall₂_map_right_iff.mpr (List.forall₂_same.mpr hall)
  refine ⟨_, hforall, ?_⟩
  rw [← positional_reverse hradix (List.forall₂_reverse_iff.mpr hforall), List.reverse_reverse]

end Values

section Forms

instance (radix : Nat) (c : Char) (d : Nat) : Decidable (IsDigitOf radix c d) :=
  inferInstanceAs (Decidable (_ ∧ _))

theorem isDigit_iff_toNat {c : Char} :
    c.isDigit = true ↔ '0'.toNat ≤ c.toNat ∧ c.toNat ≤ '9'.toNat := by
  have hrange : c.isDigit = ('0'.val ≤ c.val && c.val ≤ '9'.val) := rfl
  simp [hrange, UInt32.le_iff_toNat_le]

theorem isDigitOf_of_isHexDigit {c : Char} (h : Scan.isHexDigit c = true) :
    IsDigitOf 16 c (digitValue c) := by
  have hascii : c.toNat < 128 := by
    simp only [Scan.isHexDigit, Bool.or_eq_true, Bool.and_eq_true, decide_eq_true_eq] at h
    rcases h with (h | ⟨-, h⟩) | ⟨-, h⟩
    · exact Nat.lt_of_le_of_lt (isDigit_iff_toNat.mp h).2 (by decide)
    · exact Nat.lt_of_le_of_lt (UInt32.le_iff_toNat_le.mp h) (by decide)
    · exact Nat.lt_of_le_of_lt (UInt32.le_iff_toNat_le.mp h) (by decide)
  have hall : ∀ n < 128, Scan.isHexDigit (Char.ofNat n) = true →
      IsDigitOf 16 (Char.ofNat n) (digitValue (Char.ofNat n)) := by decide +kernel
  have hc := hall c.toNat hascii
  rw [Char.ofNat_toNat] at hc
  exact hc h

theorem isDigitOf_of_isDigit {radix : Nat} {c : Char} (h : c.isDigit = true)
    (hlt : c.toNat < '0'.toNat + radix) : IsDigitOf radix c (digitValue c) := by
  have hhex : Scan.isHexDigit c = true := by simp [Scan.isHexDigit, h]
  refine ⟨?_, (isDigitOf_of_isHexDigit hhex).2⟩
  have hle := (isDigit_iff_toNat.mp h).1
  rw [digitValue_of_isDigit h]
  omega

/-- An integer literal is decimal, or its second character sets the radix. -/
theorem IntegerText.view {text digits : List Char} {radix : Nat}
    (h : IntegerText text radix digits) :
    (radix = 10 ∧ digits = text ∧ text ∈ Pattern.digits.language) ∨
      ∃ letter, text = '0' :: letter :: digits ∧ radix? letter = some radix := by
  have hletter {x y letter : Char} {ranges : List (Char × Char)} {digits : List Char}
      (h : '0' :: letter :: digits ∈ (Pattern.radix [(x, x), (y, y)] ranges).language) :
      letter = x ∨ letter = y := by
    obtain ⟨_, _, ⟨-, rfl, rfl⟩, hletter, -⟩ := Scan.mem_radix.mp h
    rwa [Scan.inRanges_either] at hletter
  cases h with
  | decimal h => exact .inl ⟨rfl, rfl, h⟩
  | hexadecimal h => exact .inr ⟨_, rfl, by rcases hletter h with rfl | rfl <;> rfl⟩
  | octal h => exact .inr ⟨_, rfl, by rcases hletter h with rfl | rfl <;> rfl⟩
  | binary h => exact .inr ⟨_, rfl, by rcases hletter h with rfl | rfl <;> rfl⟩

theorem IntegerText.radix_le {text digits : List Char} {radix : Nat}
    (h : IntegerText text radix digits) : radix ≤ 16 := by
  cases h <;> decide

theorem isDigit_of_octal {c : Char} (h : ('0' ≤ c && c ≤ '7') = true) :
    c.isDigit = true ∧ c.toNat < '0'.toNat + 8 := by
  simp only [Bool.and_eq_true, decide_eq_true_eq, Char.le_def, UInt32.le_iff_toNat_le] at h
  obtain ⟨hlow, hhigh⟩ := h
  exact ⟨isDigit_iff_toNat.mpr ⟨hlow, Nat.le_trans hhigh (by decide)⟩,
    Nat.lt_of_le_of_lt hhigh (by decide)⟩

theorem IntegerText.isDigitOf {text digits : List Char} {radix : Nat}
    (h : IntegerText text radix digits) : ∀ c ∈ digits, c ≠ '_' → ∃ d, IsDigitOf radix c d := by
  intro c hc hne
  have hdecimal (hdigit : c.isDigit = true) : IsDigitOf 10 c (digitValue c) :=
    isDigitOf_of_isDigit hdigit (Nat.lt_succ_of_le (isDigit_iff_toNat.mp hdigit).2)
  cases h with
  | decimal h =>
    obtain ⟨d, u, rfl, hd, hu⟩ := Scan.mem_digits.mp h
    rcases List.mem_cons.mp hc with rfl | hc
    · exact ⟨_, hdecimal hd⟩
    · have hdigit := hu c hc
      simp only [Scan.isDigitOrSeparator, Bool.or_eq_true, beq_iff_eq, hne, or_false] at hdigit
      exact ⟨_, hdecimal hdigit⟩
  | hexadecimal h =>
    obtain ⟨_, _, ⟨-, rfl, rfl⟩, -, -, hdigits⟩ := Scan.mem_radix.mp h
    have hdigit := hdigits c hc
    simp only [Scan.inRanges_hexDigit, Bool.or_eq_true, beq_iff_eq, hne, or_false] at hdigit
    exact ⟨_, isDigitOf_of_isHexDigit hdigit⟩
  | octal h =>
    obtain ⟨_, _, ⟨-, rfl, rfl⟩, -, -, hdigits⟩ := Scan.mem_radix.mp h
    have hdigit := hdigits c hc
    simp only [Scan.inRanges_octalDigit, Bool.or_eq_true, beq_iff_eq, hne, or_false] at hdigit
    obtain ⟨hdigit, hlt⟩ := isDigit_of_octal hdigit
    exact ⟨_, isDigitOf_of_isDigit hdigit hlt⟩
  | binary h =>
    obtain ⟨_, _, ⟨-, rfl, rfl⟩, -, -, hdigits⟩ := Scan.mem_radix.mp h
    have hdigit := hdigits c hc
    simp only [Scan.inRanges_binaryDigit, Bool.or_eq_true, beq_iff_eq, hne, or_false] at hdigit
    rcases hdigit with rfl | rfl
    · exact ⟨0, by decide⟩
    · exact ⟨1, by decide⟩

/-- The numbers are the integers and the numbers with a fraction or an exponent. -/
theorem integer_or_float {text : List Char} (h : ∃ p ∈ Pattern.numbers, text ∈ p.language) :
    (∃ radix digits, IntegerText text radix digits) ∨ FloatText text := by
  have hradix {letters ranges : List (Char × Char)}
      (h : text ∈ (Pattern.radix letters ranges).language) :
      ∃ letter digits, text = '0' :: letter :: digits := by
    obtain ⟨letter, digits, rfl, -⟩ := Scan.mem_radix.mp h
    exact ⟨letter, digits, rfl⟩
  simp only [Pattern.numbers, List.exists_mem_cons_iff, List.not_mem_nil, false_and, exists_false,
    or_false] at h
  rcases h with h | h | h | h | h | h
  · exact .inl ⟨10, text, .decimal h⟩
  · obtain ⟨letter, digits, rfl⟩ := hradix h
    exact .inl ⟨16, digits, .hexadecimal h⟩
  · obtain ⟨letter, digits, rfl⟩ := hradix h
    exact .inl ⟨8, digits, .octal h⟩
  · obtain ⟨letter, digits, rfl⟩ := hradix h
    exact .inl ⟨2, digits, .binary h⟩
  · exact .inr (.inl h)
  · exact .inr (.inr h)

theorem IntegerText.mem_numbers {text digits : List Char} {radix : Nat}
    (h : IntegerText text radix digits) : ∃ p ∈ Pattern.numbers, text ∈ p.language := by
  simp only [Pattern.numbers, List.exists_mem_cons_iff, List.not_mem_nil, false_and, exists_false,
    or_false]
  cases h with
  | decimal h => exact .inl h
  | hexadecimal h => exact .inr (.inl h)
  | octal h => exact .inr (.inr (.inl h))
  | binary h => exact .inr (.inr (.inr (.inl h)))

end Forms

section Reading

theorem digits_filter {w : List Char} (h : w ∈ Pattern.digits.language) :
    w.filter (· ≠ '_') ≠ [] ∧ ∀ c ∈ w.filter (· ≠ '_'), c.isDigit = true := by
  obtain ⟨d, u, rfl, hd, hu⟩ := Scan.mem_digits.mp h
  have hsome : d ∈ (d :: u).filter (· ≠ '_') := by simp [(isDigit_class hd).2.2.1]
  refine ⟨List.ne_nil_of_mem hsome, fun c hc => ?_⟩
  obtain ⟨hmem, hne⟩ := List.mem_filter.mp hc
  rcases List.mem_cons.mp hmem with rfl | hmem
  · exact hd
  · simpa [Scan.isDigitOrSeparator, of_decide_eq_true hne] using hu c hmem

/-- A text without a radix letter is read as a decimal number once its separators are dropped. -/
theorem readNumber_decimal {text : List Char}
    (hradix : ∀ c ∈ text.filter (· ≠ '_'), radix? c = none) :
    readNumber text = readDecimal (text.filter (· ≠ '_')) := by
  have hfilter : readNumber (text.filter (· ≠ '_')) = readNumber text := by
    simp only [readNumber, List.filter_filter, Bool.and_self]
  rw [← hfilter, readNumber_eq_readDecimal]
  · simp
  · intro letter tail htext
    exact hradix letter (htext ▸ by simp)

theorem readDecimal_of_isDigit {digits : List Char} (h : ∀ c ∈ digits, c.isDigit = true) :
    readDecimal digits = readInteger 10 digits := by
  have hany : digits.any (fun c => c == '.' || c == 'e' || c == 'E') = false := by
    rw [List.any_eq_false]
    intro c hc
    obtain ⟨-, -, -, hdot, he, hE, -⟩ := isDigit_class (h c hc)
    simp [hdot, he, hE]
  simp [readDecimal, hany]

/-- An integer literal is read as the value of its digits, unless it has none. -/
theorem IntegerText.readNumber_eq {text digits : List Char} {radix : Nat}
    (h : IntegerText text radix digits) :
    readNumber text = if digits.filter (· ≠ '_') = [] then .error .noDigits
      else readInteger radix (digits.filter (· ≠ '_')) := by
  rcases h.view with ⟨rfl, rfl, hdigits⟩ | ⟨letter, rfl, hradix⟩
  · obtain ⟨hne, hdigit⟩ := digits_filter hdigits
    rw [if_neg hne, readNumber_decimal, readDecimal_of_isDigit hdigit]
    exact fun c hc => (isDigit_class (hdigit c hc)).1
  · have hletter : letter ≠ '_' := by
      rintro rfl
      cases hradix
    simp [readNumber, hletter, hradix]

theorem exists_readExponent {w : List Char} (h : w = [] ∨ w ∈ Pattern.exponent.language) :
    ∃ e, readExponent? w = some e := by
  rcases h with rfl | h
  · exact ⟨0, rfl⟩
  · obtain ⟨letter, s, ds, rfl, hletter, hs, hne, hds⟩ := Scan.mem_exponent.mp h
    have hall : ds.all Char.isDigit = true := List.all_eq_true.mpr hds
    obtain ⟨d, ds, rfl⟩ := List.exists_cons_of_ne_nil hne
    rcases hs with rfl | rfl | rfl
    · have hd := hds d List.mem_cons_self
      have hsign : d ≠ '-' ∧ d ≠ '+' := by
        constructor <;> rintro rfl <;> contradiction
      simp only [readExponent?, hletter, List.nil_append, if_true]
      split
      · next heq => exact absurd (List.cons.inj heq).1 hsign.1
      · next heq => exact absurd (List.cons.inj heq).1 hsign.2
      · rw [if_pos ⟨hne, hall⟩]
        exact ⟨_, rfl⟩
    · simp only [readExponent?, hletter, List.cons_append, List.nil_append, if_true]
      rw [if_pos ⟨hne, hall⟩]
      exact ⟨_, rfl⟩
    · simp only [readExponent?, hletter, List.cons_append, List.nil_append, if_true]
      rw [if_pos ⟨hne, hall⟩]
      exact ⟨_, rfl⟩

theorem head_exponent {w : List Char} (h : w = [] ∨ w ∈ Pattern.exponent.language) :
    ∀ c ∈ w.head?, c = 'e' ∨ c = 'E' := by
  cases w with
  | nil => simp
  | cons c w => simpa using Scan.head_optional_exponent h

theorem exponent_class {w : List Char} (h : w = [] ∨ w ∈ Pattern.exponent.language) {c : Char}
    (hc : c ∈ w) : c ≠ '_' ∧ radix? c = none := by
  have hdigit (h : c.isDigit = true) : c ≠ '_' ∧ radix? c = none :=
    ⟨(isDigit_class h).2.2.1, (isDigit_class h).1⟩
  rcases h with rfl | h
  · cases hc
  · obtain ⟨letter, s, ds, rfl, hletter, hs, -, hds⟩ := Scan.mem_exponent.mp h
    rcases List.mem_cons.mp hc with rfl | hc
    · rcases hletter with rfl | rfl <;> decide
    · rcases List.mem_append.mp hc with hc | hc
      · rcases hs with rfl | rfl | rfl
        · cases hc
        · exact List.mem_singleton.mp hc ▸ by decide
        · exact List.mem_singleton.mp hc ▸ by decide
      · exact hdigit (hds c hc)

/-- The parts of a number without separators: digits, a point with digits or nothing, and an
exponent or nothing, but not both nothing. -/
structure FloatParts (whole point exponent : List Char) : Prop where
  whole_ne : whole ≠ []
  whole_digits : ∀ c ∈ whole, c.isDigit = true
  point_cases : point = [] ∨ ∃ part, point = '.' :: part ∧ ∀ c ∈ part, c.isDigit = true
  exponent_cases : exponent = [] ∨ exponent ∈ Pattern.exponent.language
  marked : point ++ exponent ≠ []

namespace FloatParts

variable {whole point exponent : List Char}

theorem exists_readFloat (h : FloatParts whole point exponent) :
    ∃ x, readFloat? (whole ++ (point ++ exponent)) = some x := by
  obtain ⟨hne, hwhole, hpoint, hexponent, -⟩ := h
  obtain ⟨e, he⟩ := exists_readExponent hexponent
  have hstop : ∀ c ∈ exponent.head?, c.isDigit = false := by
    intro c hc
    rcases head_exponent hexponent c hc with rfl | rfl <;> rfl
  rcases hpoint with rfl | ⟨part, rfl, hpart⟩
  · unfold readFloat?
    simp only [List.nil_append, Scan.takeWhile_append_stop hwhole hstop,
      Scan.dropWhile_append_stop hwhole hstop]
    cases exponent with
    | nil => simp [hne, he]
    | cons c cs => rcases head_exponent hexponent c rfl with rfl | rfl <;> simp [hne, he]
  · have hdot : ∀ c ∈ ('.' :: (part ++ exponent)).head?, c.isDigit = false := by simp
    unfold readFloat?
    simp only [List.cons_append, Scan.takeWhile_append_stop hwhole hdot,
      Scan.dropWhile_append_stop hwhole hdot, Scan.takeWhile_append_stop hpart hstop,
      Scan.dropWhile_append_stop hpart hstop]
    simp [hne, he]

/-- The point or the letter of the exponent tells the number from an integer. -/
theorem any_mark (h : FloatParts whole point exponent) : (whole ++ (point ++ exponent)).any
    (fun c => c == '.' || c == 'e' || c == 'E') = true := by
  obtain ⟨c, cs, hcs⟩ := List.exists_cons_of_ne_nil h.marked
  refine List.any_eq_true.mpr ⟨c, by simp [hcs], ?_⟩
  rcases h.point_cases with rfl | ⟨part, rfl, -⟩
  · have hhead : c ∈ exponent.head? := by simpa using congrArg List.head? hcs
    rcases head_exponent h.exponent_cases c hhead with rfl | rfl <;> rfl
  · obtain ⟨rfl, -⟩ := List.cons.inj hcs
    rfl

theorem radix_eq_none (h : FloatParts whole point exponent) :
    ∀ c ∈ whole ++ (point ++ exponent), radix? c = none := by
  intro c hc
  rcases List.mem_append.mp hc with hc | hc
  · exact (isDigit_class (h.whole_digits c hc)).1
  · rcases List.mem_append.mp hc with hc | hc
    · rcases h.point_cases with rfl | ⟨part, rfl, hpart⟩
      · cases hc
      · rcases List.mem_cons.mp hc with rfl | hc
        · rfl
        · exact (isDigit_class (hpart c hc)).1
    · exact (exponent_class h.exponent_cases hc).2

end FloatParts

theorem filter_exponent {w : List Char} (h : w = [] ∨ w ∈ Pattern.exponent.language) :
    w.filter (· ≠ '_') = w :=
  List.filter_eq_self.mpr fun _ hc => decide_eq_true (exponent_class h hc).1

/-- Without its separators, a literal with a fraction or an exponent has the parts of a number. -/
theorem FloatText.exists_parts {text : List Char} (h : FloatText text) :
    ∃ whole point exponent, text.filter (· ≠ '_') = whole ++ (point ++ exponent) ∧
      FloatParts whole point exponent := by
  rcases h with h | h
  · obtain ⟨whole, hwhole, _, hrest, rfl⟩ := Pattern.mem_seq.mp h
    obtain ⟨_, rfl, hfraction⟩ := Pattern.mem_seq_char.mp hrest
    obtain ⟨part, hpart, exponent, hexponent, rfl⟩ := Pattern.mem_seq.mp hfraction
    obtain ⟨hne, hdigits⟩ := digits_filter hwhole
    refine ⟨_, '.' :: part.filter (· ≠ '_'), exponent, ?_,
      hne, hdigits, .inr ⟨_, rfl, (digits_filter hpart).2⟩, hexponent, by simp⟩
    rw [List.filter_append, List.filter_cons_of_pos (by decide), List.filter_append,
      filter_exponent hexponent, List.cons_append]
  · obtain ⟨whole, hwhole, exponent, hexponent, rfl⟩ := Pattern.mem_seq.mp h
    obtain ⟨hne, hdigits⟩ := digits_filter hwhole
    have hsome : exponent ≠ [] := by
      rintro rfl
      obtain ⟨_, _, _, hnil, -⟩ := Scan.mem_exponent.mp hexponent
      cases hnil
    refine ⟨_, [], exponent, ?_, hne, hdigits, .inl rfl, .inr hexponent, hsome⟩
    rw [List.filter_append, filter_exponent (.inr hexponent), List.nil_append]

/-- A literal with a fraction or an exponent is a finite number, or it is out of range. -/
theorem FloatText.readNumber_eq {text : List Char} (h : FloatText text) :
    ∃ x, readNumber text = if x.isFinite then .ok (.float x) else .error .floatRange := by
  obtain ⟨whole, point, exponent, htext, hparts⟩ := h.exists_parts
  obtain ⟨x, hx⟩ := hparts.exists_readFloat
  refine ⟨x, ?_⟩
  rw [readNumber_decimal (htext ▸ hparts.radix_eq_none), htext, readDecimal,
    if_pos hparts.any_mark, hx]

end Reading

section Writing

theorem exists_digits {radix : Nat} (hradix : 1 < radix) (n : Nat) : ∃ ds : List Nat,
    Nat.toDigits radix n = ds.map Nat.digitChar ∧ (∀ d ∈ ds, d < radix) ∧
      n = Nat.ofDigits radix ds.reverse := by
  induction n using Nat.strongRecOn with
  | ind n ih =>
    rw [Nat.toDigits_eq_if hradix]
    split
    · next hlt => exact ⟨[n], rfl, by simpa using hlt, by simp⟩
    · next hge =>
      obtain ⟨ds, hds, hlt, hvalue⟩ := ih (n / radix) (Nat.div_lt_self (by omega) hradix)
      have hlast : n % radix < radix := Nat.mod_lt n (by omega)
      refine ⟨ds ++ [n % radix], by simp [hds], ?_, ?_⟩
      · simpa [or_imp, forall_and] using ⟨hlt, hlast⟩
      · rw [List.reverse_append, List.reverse_singleton, List.singleton_append, Nat.ofDigits_cons,
          ← hvalue]
        exact (Nat.mod_add_div n radix).symm

theorem ne_separator_of_mem_toDigits {radix n : Nat} (hradix : 1 < radix) (hle : radix ≤ 16)
    {c : Char} (hc : c ∈ Nat.toDigits radix n) : c ≠ '_' := by
  obtain ⟨ds, hds, hlt, -⟩ := exists_digits hradix n
  have hplain : ∀ d < 16, Nat.digitChar d ≠ '_' := by decide
  rw [hds] at hc
  obtain ⟨d, hd, rfl⟩ := List.mem_map.mp hc
  exact hplain d (Nat.lt_of_lt_of_le (hlt d hd) hle)

theorem denotes_toDigits {radix : Nat} (hradix : 1 < radix) (hle : radix ≤ 16) (n : Nat) :
    Denotes radix (Nat.toDigits radix n) n := by
  obtain ⟨ds, hds, hlt, hvalue⟩ := exists_digits hradix n
  have hfilter : (Nat.toDigits radix n).filter (· ≠ '_') = Nat.toDigits radix n :=
    List.filter_eq_self.mpr fun c hc =>
      decide_eq_true (ne_separator_of_mem_toDigits hradix hle hc)
  refine ⟨ds, ?_, hvalue⟩
  rw [hfilter, hds, List.forall₂_map_left_iff, List.forall₂_same]
  exact fun d hd => ⟨hlt d hd, .inl rfl⟩

/-- The ways to write an integer: what stands before its digits, and the radix. -/
def marks : List (List Char × Nat) := [([], 10), (['0', 'x'], 16), (['0', 'o'], 8), (['0', 'b'], 2)]

theorem integerText_toDigits {mark : List Char × Nat} (hmark : mark ∈ marks) (n : Nat) :
    IntegerText (mark.1 ++ Nat.toDigits mark.2 n) mark.2 (Nat.toDigits mark.2 n) := by
  have hne (radix : Nat) : Nat.toDigits radix n ≠ [] := Nat.toDigits_ne_nil
  have hmem {radix : Nat} {p : Char → Bool} (hradix : 1 < radix)
      (hp : ∀ d < radix, p (Nat.digitChar d) = true) : ∀ c ∈ Nat.toDigits radix n, p c = true := by
    obtain ⟨ds, hds, hlt, -⟩ := exists_digits hradix n
    rw [hds]
    intro c hc
    obtain ⟨d, hd, rfl⟩ := List.mem_map.mp hc
    exact hp d (hlt d hd)
  simp only [marks, List.mem_cons, List.not_mem_nil, or_false] at hmark
  rcases hmark with rfl | rfl | rfl | rfl
  · obtain ⟨d, u, hdu⟩ := List.exists_cons_of_ne_nil (hne 10)
    have hdigit := isDigit_toDigits n
    refine .decimal (Scan.mem_digits.mpr ⟨d, u, hdu, hdigit d (by simp [hdu]), fun c hc => ?_⟩)
    exact Scan.isDigitOrSeparator_of_isDigit (hdigit c (by simp [hdu, hc]))
  · exact .hexadecimal (Scan.mem_radix.mpr ⟨_, _, rfl, by decide, hne 16,
      hmem (by decide) (by decide)⟩)
  · exact .octal (Scan.mem_radix.mpr ⟨_, _, rfl, by decide, hne 8, hmem (by decide) (by decide)⟩)
  · exact .binary (Scan.mem_radix.mpr ⟨_, _, rfl, by decide, hne 2, hmem (by decide) (by decide)⟩)

end Writing

section Messages

theorem length_around (before text after : String) :
    (before ++ text ++ after).length = (before ++ "" ++ after).length + text.length := by
  rw [String.length_append, String.length_append, String.append_empty, String.length_append]
  omega

/-- The messages about one literal differ, since they differ in length. -/
theorem NumberFault.message_injective (text : String) {fault fault' : NumberFault}
    (h : fault.message text = fault'.message text) : fault = fault' := by
  have hlength (fault : NumberFault) : (fault.message text).length =
      (fault.message "").length + text.length := by
    cases fault <;> exact length_around _ _ _
  have hdistinct : ∀ fault fault' : NumberFault,
      (fault.message "").length = (fault'.message "").length → fault = fault' := by
    intro fault fault'
    cases fault <;> cases fault' <;> decide +kernel
  have hsame : (fault.message "").length + text.length =
      (fault'.message "").length + text.length := by rw [← hlength, ← hlength, h]
  exact hdistinct _ _ (Nat.add_right_cancel hsame)

end Messages

end Literal

open Literal (readNumber IntegerText FloatText Denotes NumberFault)

/-- As an operand, a number token is read as a literal. -/
def Token.ReadsAs (t : Token) (e : Expr Span) : Prop :=
  ∀ stop inner rest, (Nested.reading stop inner).number t rest = ⟨some ⟨e, 1⟩, rest, []⟩

/-- As an operand, a number token is refused with one error, which is at the token. -/
def Token.RefusedWith (t : Token) (message : String) : Prop :=
  ∀ stop inner rest, ∃ fault,
    (Nested.reading stop inner).number t rest = ⟨none, rest, [⟨fault, t.span⟩]⟩ ∧
      fault.message = message

theorem Token.readsAs_int {t : Token} {v : Nat}
    (h : readNumber t.literal.toList = .ok (.int v)) : t.ReadsAs (.int t.span v) := by
  intro stop inner rest
  rw [Reading.number, h]
  rfl

theorem Token.readsAs_float {t : Token} {x : Decimal.Double}
    (h : readNumber t.literal.toList = .ok (.float x)) : t.ReadsAs (.float t.span x) := by
  intro stop inner rest
  rw [Reading.number, h]
  rfl

theorem Token.refusedWith_iff {t : Token} (fault : NumberFault) :
    t.RefusedWith (fault.message t.literal) ↔ readNumber t.literal.toList = .error fault := by
  constructor
  · intro h
    obtain ⟨found, hleaf, hmessage⟩ := h Span.origin (Nested.tooDeep Span.origin) []
    cases hread : readNumber t.literal.toList with
    | ok value =>
      cases value with
      | int v =>
        rw [readsAs_int hread] at hleaf
        cases hleaf
      | float x =>
        rw [readsAs_float hread] at hleaf
        cases hleaf
    | error other =>
      rw [Reading.number, hread] at hleaf
      cases hleaf
      rw [NumberFault.message_injective t.literal hmessage]
  · intro h stop inner rest
    rw [Reading.number, h]
    exact ⟨_, rfl, rfl⟩

structure Token.ReadAsNumber (t : Token) : Prop where
  form : (∃ radix digits, IntegerText t.literal.toList radix digits) ∨
    FloatText t.literal.toList
  /-- An integer with a digit is the value of its digits, if that has 64 bits. -/
  integer : ∀ {radix digits}, IntegerText t.literal.toList radix digits →
    (∃ c ∈ digits, c ≠ '_') → ∃ v, (∀ w, Denotes radix digits w ↔ w = v) ∧
      (v < 2 ^ 64 → t.ReadsAs (.int t.span v)) ∧
      (2 ^ 64 ≤ v → t.RefusedWith ("integer literal '" ++ t.literal ++ "' is out of range"))
  /-- What has no digit is a radix letter with separators only. -/
  noDigits : t.RefusedWith ("invalid number literal '" ++ t.literal ++ "'") ↔
    ∃ letter ∈ ['x', 'X', 'o', 'O', 'b', 'B'], ∃ separators,
      t.literal.toList = '0' :: letter :: separators ∧ ∀ c ∈ separators, c = '_'
  float : FloatText t.literal.toList →
    (∃ x, x.isFinite = true ∧ t.ReadsAs (.float t.span x)) ∨
      t.RefusedWith ("float literal '" ++ t.literal ++ "' is out of range")
  wellFormed : ¬ t.RefusedWith ("invalid float literal '" ++ t.literal ++ "'")

theorem radix_isSome_iff {letter : Char} :
    (Literal.radix? letter).isSome = true ↔ letter ∈ ['x', 'X', 'o', 'O', 'b', 'B'] := by
  simp only [Literal.radix?]
  grind

theorem Literal.readInteger_eq_error {radix : Nat} {digits : List Char} {fault : NumberFault}
    (h : readInteger radix digits = .error fault) : fault = .integerRange := by
  unfold readInteger at h
  simp only at h
  split at h
  · cases h
  · exact (Except.error.inj h).symm

/-- The only literals without a digit are radix letters with separators only. -/
theorem Literal.readNumber_eq_noDigits_iff {text : List Char}
    (h : ∃ p ∈ Pattern.numbers, text ∈ p.language) : readNumber text = .error .noDigits ↔
      ∃ letter ∈ ['x', 'X', 'o', 'O', 'b', 'B'], ∃ separators,
        text = '0' :: letter :: separators ∧ ∀ c ∈ separators, c = '_' := by
  constructor
  · intro hread
    rcases integer_or_float h with ⟨radix, digits, hinteger⟩ | hfloat
    · rw [hinteger.readNumber_eq] at hread
      split at hread
      · next hnone =>
        rcases hinteger.view with ⟨-, rfl, hdigits⟩ | ⟨letter, rfl, hradix⟩
        · exact absurd hnone (digits_filter hdigits).1
        · refine ⟨letter, radix_isSome_iff.mp (by simp [hradix]), digits, rfl, ?_⟩
          simpa [List.filter_eq_nil_iff] using hnone
      · cases readInteger_eq_error hread
    · obtain ⟨x, hx⟩ := hfloat.readNumber_eq
      rw [hx] at hread
      split at hread <;> cases hread
  · rintro ⟨letter, hletter, separators, rfl, hall⟩
    have hne : letter ≠ '_' := by
      rintro rfl
      simp at hletter
    obtain ⟨radix, hradix⟩ := Option.isSome_iff_exists.mp (radix_isSome_iff.mpr hletter)
    have hclean : ('0' :: letter :: separators).filter (· ≠ '_') = ['0', letter] := by
      simpa [hne] using hall
    simp only [readNumber, hclean, hradix, if_true]

theorem Token.readAsNumber {t : Token}
    (h : ∃ p ∈ Pattern.numbers, t.literal.toList ∈ p.language) : t.ReadAsNumber := by
  refine ⟨Literal.integer_or_float h, ?_, ?_, ?_, ?_⟩
  · rintro radix digits hinteger ⟨c, hc, hne⟩
    have hsome : digits.filter (· ≠ '_') ≠ [] :=
      List.ne_nil_of_mem (List.mem_filter.mpr ⟨hc, decide_eq_true hne⟩)
    have hread := hinteger.readNumber_eq
    rw [if_neg hsome, Literal.readInteger] at hread
    refine ⟨_, Literal.denotes_iff hinteger.radix_le hinteger.isDigitOf, fun hlt => ?_,
      fun hge => ?_⟩
    · exact readsAs_int (hread.trans (if_pos hlt))
    · exact (refusedWith_iff .integerRange).mpr (hread.trans (if_neg (Nat.not_lt.mpr hge)))
  · rw [← Literal.readNumber_eq_noDigits_iff h]
    exact refusedWith_iff .noDigits
  · intro hfloat
    obtain ⟨x, hx⟩ := hfloat.readNumber_eq
    split at hx
    · next hfinite => exact .inl ⟨x, hfinite, readsAs_float hx⟩
    · exact .inr ((refusedWith_iff .floatRange).mpr hx)
  · intro hrefused
    have hread := (refusedWith_iff .malformedFloat).mp hrefused
    rcases Literal.integer_or_float h with ⟨radix, digits, hinteger⟩ | hfloat
    · rw [hinteger.readNumber_eq] at hread
      split at hread
      · cases hread
      · cases Literal.readInteger_eq_error hread
    · obtain ⟨x, hx⟩ := hfloat.readNumber_eq
      rw [hx] at hread
      split at hread <;> cases hread

theorem lexemes_number {text : List Char} (h : ∃ p ∈ Pattern.numbers, text ∈ p.language) :
    lexemes text = [⟨.number, String.ofList text⟩] := by
  obtain ⟨c, u, rfl, hc, hu⟩ := Scan.mem_numbers.mp h
  have hgreedy := Scan.greedy_number c
  have htail : (Scan.number c u).tail = u :=
    (hgreedy.isPrefix u).eq_of_length_le (hgreedy.longest hu (List.prefix_refl u))
  have hfirst : Scan.first c (u ++ []) = (.number, c :: u) := by
    rw [List.append_nil, Scan.first, if_pos hc, Scan.number_eq, htail]
  have hlexemes := lexemes_append (Literal.isDigit_class hc).2.2.2.2.2.2 hfirst
  rw [List.append_nil, lexemes_nil] at hlexemes
  exact hlexemes

/-- A number in 64 bits is read back from every way to write it. -/
theorem parse_integerText {text digits : List Char} {radix v : Nat}
    (h : IntegerText text radix digits) (hdigit : ∃ c ∈ digits, c ≠ '_')
    (hvalue : Denotes radix digits v) (hlt : v < 2 ^ 64) :
    ∃ span, parse (String.ofList text) = ⟨some (.int span v), []⟩ := by
  obtain ⟨c, hc, hne⟩ := hdigit
  have hsome : digits.filter (· ≠ '_') ≠ [] :=
    List.ne_nil_of_mem (List.mem_filter.mpr ⟨hc, decide_eq_true hne⟩)
  have hread : readNumber text = .ok (.int v) := by
    rw [h.readNumber_eq, if_neg hsome, Literal.readInteger, ← hvalue.eq_positional h.radix_le]
    exact if_pos hlt
  let t : Token := ⟨⟨.number, String.ofList text⟩, Span.origin⟩
  have hleaf : Grammar.leaf? t = some (.int Span.origin v) := by
    simp [t, Grammar.leaf?, hread]
  have hderives : Grammar.Derives 1 0 [t] (.int Span.origin v) :=
    (Grammar.Phrase.chain (.primary (.leaf hleaf))).of_le (Nat.zero_le _) (Nat.le_refl _)
  have hlexemes : [t].map (·.toLexeme) =
      (Lexer.ofText (String.ofList text).toList).tokens.map (·.toLexeme) := by
    rw [String.toList_ofList]
    exact (lexemes_number h.mem_numbers).symm
  have hheight : (Expr.int Span.origin v).height ≤ maxDepth := Nat.le_add_left 1 255
  obtain ⟨e, hparse, hbare⟩ := (parse_of_lexemes hderives hheight hlexemes).resolve_right
    fun hover => absurd hover.2 (by decide)
  cases e with
  | int span n =>
    obtain rfl : n = v := by simpa [Expr.bare, Expr.map] using hbare
    exact ⟨span, hparse⟩
  | _ => cases hbare

theorem mem_numbers_of_mem_tokenize {source : String} {t : Token} (ht : t ∈ tokenize source)
    (hkind : t.kind = .number) : ∃ p ∈ Pattern.numbers, t.literal.toList ∈ p.language := by
  obtain ⟨_, tail, hsource, -, hfills⟩ := tokenize_fills source
  have hmem : t ∈ (Lexer.ofText source.toList).tokens := by
    rcases mem_tokenize.mp ht with hmem | rfl
    · exact hmem
    · cases hkind
  obtain ⟨_, text, _, -, -, hliteral, htakes⟩ := hfills.exists_takes hsource t hmem
  rw [hkind] at hliteral htakes
  have hmatches : Matches .number text := by
    rcases htakes.longestMatch.matched with ⟨hmatches, -⟩ | ⟨hillegal, -⟩
    · exact hmatches
    · cases hillegal
  have hfixed : ∀ entry ∈ Pattern.fixed, entry.2 ≠ .number := by decide
  rw [hliteral, Lexer.literal, if_neg (by decide), String.toList_ofList]
  rcases Scan.matches_iff.mp hmatches with ⟨-, hnumber⟩ | ⟨hstring, -⟩ | ⟨hident, -⟩ | hentry
  · exact hnumber
  · cases hstring
  · cases hident
  · exact absurd rfl (hfixed _ hentry)

/-- An integer token is read as the value of its digits or refused. Of a token with a fraction or an
exponent only the way it is read is stated: it gives a finite number or is out of range, and it is
never ill-formed. A number of 64 bits is read back from all ways to write it in the four radixes. -/
theorem number_literals_have_their_value :
    (∀ source, ∀ t ∈ tokenize source, t.kind = .number → t.ReadAsNumber) ∧
    (∀ text radix digits v, IntegerText text radix digits → (∃ c ∈ digits, c ≠ '_') →
      Denotes radix digits v → v < 2 ^ 64 →
      ∃ span, parse (String.ofList text) = ⟨some (.int span v), []⟩) ∧
    ∀ n < 2 ^ 64, ∀ mark ∈ Literal.marks, ∃ span,
      parse (String.ofList (mark.1 ++ Nat.toDigits mark.2 n)) = ⟨some (.int span n), []⟩ := by
  refine ⟨?_, fun _ _ _ _ => parse_integerText, ?_⟩
  · intro source t ht hkind
    exact Token.readAsNumber (mem_numbers_of_mem_tokenize ht hkind)
  · intro n hn mark hmark
    have hradix : ∀ mark ∈ Literal.marks, 1 < mark.2 ∧ mark.2 ≤ 16 := by decide
    obtain ⟨hlow, hhigh⟩ := hradix mark hmark
    obtain ⟨c, cs, hcs⟩ := List.exists_cons_of_ne_nil (@Nat.toDigits_ne_nil n mark.2)
    have hc : c ∈ Nat.toDigits mark.2 n := by simp [hcs]
    exact parse_integerText (Literal.integerText_toDigits hmark n)
      ⟨c, hc, Literal.ne_separator_of_mem_toDigits hlow hhigh hc⟩
      (Literal.denotes_toDigits hlow hhigh n) hn

/-- Separators, capitals and a value just out of range among the tokens of one source. -/
theorem number_literals_have_their_value_separated :
    (∃ t ∈ tokenize "0Xf_F - 1_8446744073709551616", t.literal = "1_8446744073709551616" ∧
      t.kind = .number ∧ t.ReadAsNumber) ∧
    (∃ span, parse "0b__10_1_" = ⟨some (.int span 5), []⟩) ∧
    ∃ span, parse (String.ofList (['0', 'x'] ++ Nat.toDigits 16 (2 ^ 64 - 1))) =
      ⟨some (.int span (2 ^ 64 - 1)), []⟩ := by
  have htoken : (tokenize "0Xf_F - 1_8446744073709551616")[2]? =
      some ⟨⟨.number, "1_8446744073709551616"⟩, ⟨8, 29, ⟨1, 9⟩⟩⟩ := by decide +kernel
  have hmem := List.mem_of_getElem? htoken
  have htext : "0b__10_1_" = String.ofList ['0', 'b', '_', '_', '1', '0', '_', '1', '_'] := by
    decide +kernel
  refine ⟨⟨_, hmem, rfl, rfl, number_literals_have_their_value.1 _ _ hmem rfl⟩, ?_, ?_⟩
  · rw [htext]
    refine number_literals_have_their_value.2.1 _ 2 ['_', '_', '1', '0', '_', '1', '_'] 5
      (.binary (Scan.mem_radix.mpr ⟨_, _, rfl, ?_⟩)) ⟨'1', by decide, by decide⟩
      ⟨[1, 0, 1], ?_, rfl⟩ (by decide)
    · simp [Pattern.inRanges]
    · exact .cons (by decide) (.cons (by decide) (.cons (by decide) .nil))
  · exact number_literals_have_their_value.2.2 (2 ^ 64 - 1) (by decide) (['0', 'x'], 16) (by decide)

end SchemaExpr
