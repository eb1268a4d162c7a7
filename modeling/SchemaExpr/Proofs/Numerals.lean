import SchemaExpr.Literal.Number
import SchemaExpr.Proofs.Lexemes

/-!
# Decimal numbers as text

The decimal digits of an integer are read back as that integer. A decimal text is whole digits, a
point with digits or nothing, and an exponent or nothing; the scanner takes such a text as a whole
unless what follows could belong to it, and its value is the double nearest to it.
-/
namespace SchemaExpr

namespace Literal

theorem digitValue_of_isDigit {c : Char} (hc : c.isDigit = true) :
    digitValue c = c.toNat - '0'.toNat := by
  simp [digitValue, hc]

theorem positional_ten {ds : List Char} (hds : ∀ c ∈ ds, c.isDigit = true) :
    positional 10 ds = Nat.ofDigitChars 10 ds 0 := by
  unfold positional Nat.ofDigitChars
  generalize 0 = n
  induction ds generalizing n with
  | nil => rfl
  | cons c ds ih =>
    simp only [List.foldl_cons, digitValue_of_isDigit (hds c (by simp)), Nat.mul_comm n 10]
    exact ih (fun d hd => hds d (by simp [hd])) _

theorem isDigit_toDigits (n : Nat) : ∀ c ∈ Nat.toDigits 10 n, c.isDigit = true :=
  fun _ hc => Nat.isDigit_of_mem_toDigits (by decide) (by decide) hc

theorem positional_toDigits (n : Nat) : positional 10 (Nat.toDigits 10 n) = n := by
  rw [positional_ten (isDigit_toDigits n), Nat.ofDigitChars_ten_toDigits]

theorem isDigit_class {c : Char} (hc : c.isDigit = true) :
    radix? c = none ∧ Scan.radixDigit? c = none ∧ c ≠ '_' ∧ c ≠ '.' ∧ c ≠ 'e' ∧ c ≠ 'E' ∧
      isLayout c = false := by
  have hne {d : Char} (hd : d.isDigit = false) : c ≠ d := by
    rintro rfl
    simp [hc] at hd
  simp [radix?, Scan.radixDigit?, isLayout, hne]

/-- Text without separators and without a radix is read as a decimal number. -/
theorem readNumber_eq_readDecimal {text : List Char} (hclean : '_' ∉ text)
    (hradix : ∀ letter tail, text = '0' :: letter :: tail → radix? letter = none) :
    readNumber text = readDecimal text := by
  have hfilter : text.filter (· ≠ '_') = text := by
    rw [List.filter_eq_self]
    intro c hc
    simp only [ne_eq, decide_not, Bool.not_eq_eq_eq_not, Bool.not_true, decide_eq_false_iff_not]
    rintro rfl
    exact hclean hc
  unfold readNumber
  simp only [hfilter]
  split
  · next letter tail => simp [hradix letter tail rfl]
  · rfl

/-- An integer of 64 bits is read back from its decimal digits. -/
theorem readNumber_toDigits {n : Nat} (hn : n < UInt64.size) :
    readNumber (Nat.toDigits 10 n) = .ok (.int n) := by
  have hdigits := isDigit_toDigits n
  rw [readNumber_eq_readDecimal]
  · have hany : (Nat.toDigits 10 n).any (fun c => c == '.' || c == 'e' || c == 'E') = false := by
      rw [List.any_eq_false]
      intro c hc
      obtain ⟨-, -, -, hdot, he, hE, -⟩ := isDigit_class (hdigits c hc)
      simp [hdot, he, hE]
    simp [readDecimal, hany, readInteger, positional_toDigits, hn]
  · exact fun hc => (isDigit_class (hdigits _ hc)).2.2.1 rfl
  · intro letter tail h
    exact (isDigit_class (hdigits letter (by simp [h]))).1

end Literal

/-- The text of a decimal number. There is no point without digits after it. -/
structure DecimalText where
  whole : List Char
  part : List Char
  exponent : Option Int
  whole_ne_nil : whole ≠ []
  isDigit : ∀ c ∈ whole ++ part, c.isDigit = true

namespace DecimalText

variable (d : DecimalText)

def point : List Char := if d.part = [] then [] else '.' :: d.part

def sign (e : Int) : List Char := if e < 0 then ['-'] else []

def exponentText : List Char :=
  match d.exponent with
  | none => []
  | some e => 'e' :: (sign e ++ Nat.toDigits 10 e.natAbs)

def text : List Char := d.whole ++ d.point ++ d.exponentText

/-- The number is `digits * 10 ^ shift`. -/
def digits : Nat := Literal.positional 10 (d.whole ++ d.part)

def shift : Int := d.exponent.getD 0 - d.part.length

end DecimalText

namespace Scan

structure EndsNumber (rest : List Char) : Prop where
  head : ∀ c ∈ rest.head?, isDigitOrSeparator c = false ∧ radixDigit? c = none ∧ c ≠ 'e' ∧ c ≠ 'E'
  fraction : fraction rest = []

theorem dropWhile_append_stop {p : Char → Bool} {cs rest : List Char} (hcs : ∀ c ∈ cs, p c = true)
    (hrest : ∀ c ∈ rest.head?, p c = false) : (cs ++ rest).dropWhile p = rest := by
  rw [List.dropWhile_append_of_pos hcs]
  cases rest with
  | nil => rfl
  | cons c rest => simp [hrest c rfl]

theorem isDigitOrSeparator_of_isDigit {c : Char} (hc : c.isDigit = true) :
    isDigitOrSeparator c = true := by
  simp [isDigitOrSeparator, hc]

theorem head_append {p : Char → Prop} {cs rest : List Char} (hcs : ∀ c ∈ cs.head?, p c)
    (hrest : ∀ c ∈ rest.head?, p c) : ∀ c ∈ (cs ++ rest).head?, p c := by
  cases cs with
  | nil => exact hrest
  | cons c cs => simpa using hcs

theorem radixTail_eq_nil {cs : List Char} (h : ∀ c ∈ cs.head?, radixDigit? c = none) :
    radixTail cs = [] := by
  cases cs with
  | nil => rfl
  | cons c cs => simp [radixTail, h c rfl]

theorem exponent_eq_nil {cs : List Char} (h : ∀ c ∈ cs.head?, c ≠ 'e' ∧ c ≠ 'E') :
    exponent cs = [] := by
  cases cs with
  | nil => rfl
  | cons c cs => simp [exponent, h c rfl]

theorem sign_digit {ds : List Char} (hds : ∀ c ∈ ds.head?, c.isDigit = true) : sign ds = [] := by
  cases ds with
  | nil => rfl
  | cons d ds =>
    have hd := hds d rfl
    have hne : d ≠ '+' ∧ d ≠ '-' := by
      constructor <;> rintro rfl <;> contradiction
    simp [sign, hne]

end Scan

namespace DecimalText

open Scan

variable (d : DecimalText)

theorem head_point : ∀ c ∈ d.point.head?, c = '.' := by
  unfold DecimalText.point
  split <;> simp

theorem head_exponentText : ∀ c ∈ d.exponentText.head?, c = 'e' := by
  unfold DecimalText.exponentText
  split <;> simp

theorem exponent_exponentText {rest : List Char} (hrest : EndsNumber rest) :
    Scan.exponent (d.exponentText ++ rest) = d.exponentText := by
  unfold DecimalText.exponentText
  split
  · exact exponent_eq_nil fun c hc => (hrest.head c hc).2.2
  · next e _ =>
    have hdigits := Literal.isDigit_toDigits e.natAbs
    have htake : (Nat.toDigits 10 e.natAbs ++ rest).takeWhile Char.isDigit =
        Nat.toDigits 10 e.natAbs := by
      refine takeWhile_append_stop hdigits fun c hc => ?_
      have h := (hrest.head c hc).1
      simp only [isDigitOrSeparator, Bool.or_eq_false_iff] at h
      exact h.1
    have hsign : Scan.sign (DecimalText.sign e ++ (Nat.toDigits 10 e.natAbs ++ rest)) =
        DecimalText.sign e := by
      unfold DecimalText.sign
      split
      · rfl
      · refine sign_digit fun c hc => ?_
        obtain ⟨d, ds, hds⟩ :=
          List.exists_cons_of_ne_nil (Nat.toDigits_ne_nil (n := e.natAbs) (b := 10))
        simp only [List.nil_append, hds, List.cons_append, List.head?_cons,
          Option.mem_some_iff] at hc
        exact hdigits c (by simp [hds, hc])
    simp [Scan.exponent, hsign, htake]

theorem fraction_point {rest : List Char} (hrest : EndsNumber rest) :
    fraction (d.point ++ (d.exponentText ++ rest)) = d.point := by
  have hstop : ∀ c ∈ (d.exponentText ++ rest).head?, isDigitOrSeparator c = false :=
    head_append (fun c hc => by rw [d.head_exponentText c hc]; rfl) fun c hc => (hrest.head c hc).1
  unfold DecimalText.point
  split
  · unfold DecimalText.exponentText
    split
    · exact hrest.fraction
    · rfl
  · next hpart =>
    obtain ⟨c, cs, hcs⟩ := List.exists_cons_of_ne_nil hpart
    have hdigit (x : Char) (hx : x ∈ c :: cs) : x.isDigit = true :=
      d.isDigit x (List.mem_append_right _ (hcs ▸ hx))
    have htake : (cs ++ (d.exponentText ++ rest)).takeWhile isDigitOrSeparator = cs :=
      takeWhile_append_stop
        (fun x hx => isDigitOrSeparator_of_isDigit (hdigit x (by simp [hx]))) hstop
    simp [hcs, fraction, hdigit c (by simp), htake]

/-- A decimal text is one number, unless what follows could belong to it. -/
theorem first_text {rest : List Char} (hrest : EndsNumber rest) :
    ∃ c cs, d.text = c :: cs ∧ isLayout c = false ∧
      first c (cs ++ rest) = (.number, c :: cs) := by
  obtain ⟨c, cs, hwhole⟩ := List.exists_cons_of_ne_nil d.whole_ne_nil
  have hdigit (x : Char) (hx : x ∈ c :: cs) : x.isDigit = true :=
    d.isDigit x (List.mem_append_left _ (hwhole ▸ hx))
  have htail : ∀ x ∈ (d.point ++ (d.exponentText ++ rest)).head?,
      isDigitOrSeparator x = false ∧ radixDigit? x = none := by
    refine head_append (fun x hx => ?_) (head_append (fun x hx => ?_) fun x hx => ?_)
    · rw [d.head_point x hx]
      exact ⟨rfl, rfl⟩
    · rw [d.head_exponentText x hx]
      exact ⟨rfl, rfl⟩
    · exact ⟨(hrest.head x hx).1, (hrest.head x hx).2.1⟩
  have htake : (cs ++ (d.point ++ (d.exponentText ++ rest))).takeWhile isDigitOrSeparator = cs :=
    takeWhile_append_stop (fun x hx => isDigitOrSeparator_of_isDigit (hdigit x (by simp [hx])))
      fun x hx => (htail x hx).1
  have hradix : radixTail (cs ++ (d.point ++ (d.exponentText ++ rest))) = [] := by
    refine radixTail_eq_nil (head_append (fun x hx => ?_) fun x hx => (htail x hx).2)
    exact (Literal.isDigit_class (hdigit x (List.mem_cons_of_mem c (List.mem_of_mem_head? hx)))).2.1
  refine ⟨c, cs ++ d.point ++ d.exponentText, by simp [DecimalText.text, hwhole],
    (Literal.isDigit_class (hdigit c (by simp))).2.2.2.2.2.2, ?_⟩
  have hdecimal : decimalTail (cs ++ (d.point ++ (d.exponentText ++ rest))) =
      cs ++ d.point ++ d.exponentText := by
    unfold decimalTail
    simp only [htake, List.drop_left, d.fraction_point hrest]
    rw [← List.append_assoc cs, List.drop_left, d.exponent_exponentText hrest]
  simp [first, hdigit c (by simp), number, hradix, hdecimal]

theorem mem_text {c : Char} (hc : c ∈ d.text) : c.isDigit = true ∨ c ∈ ['.', 'e', '-'] := by
  have hsign (e : Int) : c ∈ DecimalText.sign e → c = '-' := by
    unfold DecimalText.sign
    split <;> simp
  have hpoint : c ∈ d.point → c = '.' ∨ c ∈ d.part := by
    unfold DecimalText.point
    split <;> simp
  have hexponent : c ∈ d.exponentText → c.isDigit = true ∨ c ∈ ['e', '-'] := by
    unfold DecimalText.exponentText
    split
    · simp
    · simp only [List.mem_cons, List.mem_append]
      rintro (rfl | h | h)
      · simp
      · simp [hsign _ h]
      · exact .inl (Literal.isDigit_toDigits _ c h)
  rw [DecimalText.text, List.mem_append, List.mem_append] at hc
  rcases hc with (h | h) | h
  · exact .inl (d.isDigit c (List.mem_append_left _ h))
  · rcases hpoint h with rfl | h
    · simp
    · exact .inl (d.isDigit c (List.mem_append_right _ h))
  · rcases hexponent h with h | h
    · exact .inl h
    · exact .inr (List.mem_cons_of_mem _ h)

theorem readExponent_exponentText :
    Literal.readExponent? d.exponentText = some (d.exponent.getD 0) := by
  unfold DecimalText.exponentText
  split
  · next h => simp [Literal.readExponent?, h]
  · next e h =>
    have hdigits := Literal.isDigit_toDigits e.natAbs
    have hall : (Nat.toDigits 10 e.natAbs).all Char.isDigit = true := List.all_eq_true.mpr hdigits
    obtain ⟨c, cs, hcs⟩ :=
      List.exists_cons_of_ne_nil (Nat.toDigits_ne_nil (n := e.natAbs) (b := 10))
    have hc : c ≠ '-' ∧ c ≠ '+' := by
      have := hdigits c (by simp [hcs])
      constructor <;> rintro rfl <;> contradiction
    have hvalue := Literal.positional_toDigits e.natAbs
    rw [hcs] at hall hvalue
    unfold DecimalText.sign
    split
    · next hneg =>
      simp only [Literal.readExponent?, hcs, List.cons_append, List.nil_append, hall, hvalue, h]
      have habs : -(e.natAbs : Int) = e := by omega
      rw [if_pos (.inl trivial), if_pos ⟨List.cons_ne_nil c cs, trivial⟩, if_pos trivial, habs]
      rfl
    · next hneg =>
      simp only [Literal.readExponent?, hcs, List.nil_append, h, true_or, if_true]
      split
      · next heq => exact absurd (List.cons.inj heq).1 hc.1
      · next heq => exact absurd (List.cons.inj heq).1 hc.2
      · rw [if_pos ⟨List.cons_ne_nil c cs, hall⟩, hvalue]
        have habs : (e.natAbs : Int) = e := by omega
        rw [if_neg Bool.false_ne_true, habs]
        rfl

theorem readFloat_text :
    Literal.readFloat? d.text = some (Decimal.Double.ofDecimal d.digits d.shift) := by
  have hwhole (c : Char) (hc : c ∈ d.whole) : c.isDigit = true :=
    d.isDigit c (List.mem_append_left _ hc)
  have hpart (c : Char) (hc : c ∈ d.part) : c.isDigit = true :=
    d.isDigit c (List.mem_append_right _ hc)
  have hexponent : ∀ c ∈ d.exponentText.head?, c.isDigit = false := fun c hc => by
    rw [d.head_exponentText c hc]
    rfl
  have hstop : ∀ c ∈ (d.point ++ d.exponentText).head?, c.isDigit = false :=
    head_append (fun c hc => by rw [d.head_point c hc]; rfl) hexponent
  have hread := d.readExponent_exponentText
  unfold Literal.readFloat?
  simp only [DecimalText.text, List.append_assoc, takeWhile_append_stop hwhole hstop,
    dropWhile_append_stop hwhole hstop]
  by_cases hempty : d.part = []
  · have hpoint : d.point = [] := by simp [DecimalText.point, hempty]
    rcases htext : d.exponentText with - | ⟨c, cs⟩
    · rw [htext] at hread
      simp [hpoint, hread, d.whole_ne_nil, DecimalText.digits, DecimalText.shift, hempty]
    · obtain rfl := d.head_exponentText c (by simp [htext])
      rw [htext] at hread
      simp [hpoint, hread, d.whole_ne_nil, DecimalText.digits, DecimalText.shift, hempty]
  · have hpoint : d.point = '.' :: d.part := by simp [DecimalText.point, hempty]
    simp [hpoint, takeWhile_append_stop hpart hexponent, dropWhile_append_stop hpart hexponent,
      hempty, hread, DecimalText.digits, DecimalText.shift]

/-- A decimal text with a point or an exponent is read as the double nearest to it. -/
theorem readNumber_text (hfloat : d.part ≠ [] ∨ d.exponent.isSome)
    (hfinite : (Decimal.Double.ofDecimal d.digits d.shift).isFinite = true) :
    Literal.readNumber d.text = .ok (.float (Decimal.Double.ofDecimal d.digits d.shift)) := by
  rw [Literal.readNumber_eq_readDecimal]
  · have hany : d.text.any (fun c => c == '.' || c == 'e' || c == 'E') = true := by
      rw [List.any_eq_true]
      rcases hfloat with h | h
      · exact ⟨'.', by simp [DecimalText.text, DecimalText.point, h], rfl⟩
      · obtain ⟨e, he⟩ := Option.isSome_iff_exists.mp h
        exact ⟨'e', by simp [DecimalText.text, DecimalText.exponentText, he], rfl⟩
    simp [Literal.readDecimal, hany, d.readFloat_text, hfinite]
  · intro h
    rcases d.mem_text h with h | h <;> contradiction
  · intro letter tail h
    rcases d.mem_text (c := letter) (by simp [h]) with h | h
    · exact (Literal.isDigit_class h).1
    · simp only [List.mem_cons, List.not_mem_nil, or_false] at h
      rcases h with rfl | rfl | rfl <;> rfl

end DecimalText

theorem lexemes_decimal (d : DecimalText) {rest : List Char} (hrest : Scan.EndsNumber rest) :
    lexemes (d.text ++ rest) = ⟨.number, String.ofList d.text⟩ :: lexemes rest := by
  obtain ⟨c, cs, htext, hlayout, hfirst⟩ := d.first_text hrest
  rw [htext, lexemes_append hlayout hfirst]
  rfl

end SchemaExpr
