import Mathlib.Tactic.Linarith
import Mathlib.Tactic.Ring
import SchemaExpr.Decimal.Shortest

/-!
# Rounding to the nearest double

The reals that round to a finite double form an interval around it, closed if its mantissa is even.
Its lower end is nearer where the exponent changes. Whatever lies in the interval of a double is
read as that double, whichever exponent the reader finds for it.
-/
namespace SchemaExpr.Decimal.Double

variable {x : Double} {num den : Nat}

theorem roundHalfEven_eq {m : Nat} (hden : 0 < den) (hlow : 2 * (m * den) ≤ 2 * num + den)
    (hhigh : 2 * num ≤ 2 * (m * den) + den)
    (hodd : m % 2 = 1 → 2 * (m * den) < 2 * num + den ∧ 2 * num < 2 * (m * den) + den) :
    roundHalfEven num den = m := by
  have hnum := Nat.div_add_mod num den
  have hr := Nat.mod_lt num hden
  rw [Nat.mul_comm] at hnum
  unfold roundHalfEven
  generalize num / den = q at *
  generalize num % den = r at *
  have hle : m ≤ q + 1 := by
    refine Nat.le_of_not_lt fun h => ?_
    have := Nat.mul_le_mul_right den (show q + 2 ≤ m from h)
    rw [Nat.add_mul] at this
    omega
  have hge : q ≤ m := by
    refine Nat.le_of_not_lt fun h => ?_
    have := Nat.mul_le_mul_right den (show m + 1 ≤ q from h)
    rw [Nat.add_mul] at this
    omega
  obtain rfl | rfl : m = q ∨ m = q + 1 := by omega
  · grind
  · rw [Nat.add_mul] at *
    grind

theorem floorLog2_spec (shift : Nat) (hnum : num ≠ 0) (hden : den ≠ 0) :
    num * 2 ^ shift < den * 2 ^ (floorLog2 num den shift + 1) ∧
      (floorLog2 num den shift = 0 ∨ den * 2 ^ floorLog2 num den shift ≤ num * 2 ^ shift) := by
  have hnumLow := Nat.log2_self_le hnum
  have hnumHigh : num < 2 ^ (num.log2 + 1) := Nat.lt_log2_self
  have hdenLow := Nat.log2_self_le hden
  have hdenHigh : den < 2 ^ (den.log2 + 1) := Nat.lt_log2_self
  have hlow : 2 ^ (num.log2 + shift) ≤ num * 2 ^ shift := by
    rw [Nat.pow_add]
    exact Nat.mul_le_mul_right _ hnumLow
  have hhigh : num * 2 ^ shift < 2 ^ (num.log2 + 1 + shift) := by
    rw [Nat.pow_add _ _ shift]
    exact Nat.mul_lt_mul_of_pos_right hnumHigh (Nat.two_pow_pos shift)
  have hdenPow (k : Nat) : 2 ^ (den.log2 + k) ≤ den * 2 ^ k := by
    rw [Nat.pow_add]
    exact Nat.mul_le_mul_right _ hdenLow
  have hdenLt (k : Nat) : den * 2 ^ k < 2 ^ (den.log2 + 1 + k) := by
    rw [Nat.pow_add _ _ k]
    exact Nat.mul_lt_mul_of_pos_right hdenHigh (Nat.two_pow_pos k)
  unfold floorLog2
  simp only [Nat.pow_eq]
  generalize num * 2 ^ shift = value at *
  generalize hk : num.log2 + shift - den.log2 = k
  have hbound : value < den * 2 ^ (k + 1) := by
    refine hhigh.trans_le ((Nat.pow_le_pow_right two_pos ?_).trans (hdenPow (k + 1)))
    omega
  split
  · next hlt =>
    cases k with
    | zero => exact ⟨hbound, .inl rfl⟩
    | succ k =>
      refine ⟨hlt, .inr ?_⟩
      refine (hdenLt k).le.trans ((Nat.pow_le_pow_right two_pos ?_).trans hlow)
      omega
  · next hge => exact ⟨hbound, .inr (Nat.le_of_not_lt hge)⟩

theorem isFinite_iff : x.isFinite = true ↔ x.magnitude < infinity := by
  unfold isFinite
  exact decide_eq_true_iff

theorem magnitude_eq (x : Double) : x.magnitude = x.exponent * 2 ^ 52 + x.mantissa := by
  unfold exponent mantissa
  simp only [Nat.pow_eq]
  split <;> omega

theorem mantissa_lt (x : Double) : x.mantissa < 2 ^ 53 := by
  unfold mantissa
  simp only [Nat.pow_eq]
  split <;> omega

theorem le_mantissa (h : 0 < x.exponent) : 2 ^ 52 ≤ x.mantissa := by
  unfold exponent at h
  unfold mantissa
  simp only [Nat.pow_eq] at *
  split <;> omega

theorem mantissa_pos (h : x.magnitude ≠ 0) : 0 < x.mantissa := by
  unfold mantissa
  simp only [Nat.pow_eq]
  split <;> omega

/-- Half the way to the number below, in quarters of the step to the number above. -/
def gap (x : Double) : Nat := if x.mantissa = 2 ^ 52 ∧ 0 < x.exponent then 1 else 2

theorem gap_le (x : Double) : x.gap ≤ 2 := by
  unfold gap
  split <;> decide

/-- Whether `num / den`, counted in quarters of `2 ^ -1074`, lies in the interval of `x`. -/
structure Attracts (x : Double) (num den : Nat) : Prop where
  low : (4 * x.mantissa - x.gap) * 2 ^ x.exponent * den ≤ num
  high : num ≤ (4 * x.mantissa + 2) * 2 ^ x.exponent * den
  inside : x.mantissa % 2 = 1 → (4 * x.mantissa - x.gap) * 2 ^ x.exponent * den < num ∧
    num < (4 * x.mantissa + 2) * 2 ^ x.exponent * den

theorem attracts_mul {k : Nat} (hk : 0 < k) :
    x.Attracts (num * k) (den * k) ↔ x.Attracts num den := by
  have hle (a b : Nat) : a * k ≤ b * k ↔ a ≤ b := Nat.mul_le_mul_right_iff hk
  have hlt (a b : Nat) : a * k < b * k ↔ a < b := Nat.mul_lt_mul_right hk
  constructor
  · rintro ⟨hlow, hhigh, hinside⟩
    simp only [← Nat.mul_assoc, hle, hlt] at hlow hhigh hinside
    exact ⟨hlow, hhigh, hinside⟩
  · rintro ⟨hlow, hhigh, hinside⟩
    constructor <;> simpa only [← Nat.mul_assoc, hle, hlt]

/-- Rounding with the exponent of `x` gives the mantissa of `x`. -/
theorem Attracts.roundHalfEven {value : Nat} (h : x.Attracts (4 * value) den) (hden : 0 < den) :
    roundHalfEven value (den * 2 ^ x.exponent) = x.mantissa := by
  obtain ⟨hlow, hhigh, hinside⟩ := h
  have hgap := x.gap_le
  have hpos : 0 < den * 2 ^ x.exponent := Nat.mul_pos hden (Nat.two_pow_pos _)
  simp only [Nat.mul_assoc, Nat.mul_comm (2 ^ x.exponent) den] at hlow hhigh hinside
  generalize den * 2 ^ x.exponent = step at *
  simp only [Nat.sub_mul, Nat.add_mul, Nat.mul_assoc] at hlow hhigh hinside
  have hgapStep := Nat.mul_le_mul_right step hgap
  exact roundHalfEven_eq hpos (by omega) (by omega) (by omega)

/-- A smaller exponent suits only the lowest mantissa, just below it. -/
theorem Attracts.lowest {value q k : Nat} (h : x.Attracts (4 * value) den)
    (hden : 0 < den) (hq : x.exponent = q + (k + 1)) (hvalue : value < den * 2 ^ (q + 53)) :
    k = 0 ∧ x.mantissa = 2 ^ 52 ∧ x.gap = 1 := by
  have hmantissa := le_mantissa (x := x) (by omega)
  have hgap := x.gap_le
  have hpos : 0 < den * 2 ^ q := Nat.mul_pos hden (Nat.two_pow_pos _)
  have hscaled : (4 * x.mantissa - x.gap) * 2 ^ (k + 1) * (den * 2 ^ q) < 2 ^ 55 * (den * 2 ^ q) :=
    calc (4 * x.mantissa - x.gap) * 2 ^ (k + 1) * (den * 2 ^ q)
        = (4 * x.mantissa - x.gap) * 2 ^ x.exponent * den := by rw [hq, Nat.pow_add 2 q]; ring
      _ ≤ 4 * value := h.low
      _ < 4 * (den * 2 ^ (q + 53)) := by omega
      _ = 2 ^ 55 * (den * 2 ^ q) := by ring
  have hlt : (4 * x.mantissa - x.gap) * 2 ^ (k + 1) < 2 ^ 55 := Nat.lt_of_mul_lt_mul_right hscaled
  obtain rfl : k = 0 := by
    refine Nat.eq_zero_of_not_pos fun hk => ?_
    have hpow : 2 ^ 2 ≤ 2 ^ (k + 1) := Nat.pow_le_pow_right two_pos (by omega)
    have := Nat.mul_le_mul (show 2 ^ 54 - 2 ≤ 4 * x.mantissa - x.gap by omega) hpow
    omega
  have heq : x.mantissa = 2 ^ 52 := by omega
  exact ⟨rfl, heq, by simp [gap, heq, hq]⟩

/-- Just below the lowest mantissa, rounding with the smaller exponent carries. -/
theorem Attracts.roundHalfEven_lowest {value q : Nat} (h : x.Attracts (4 * value) den)
    (hden : 0 < den) (hq : x.exponent = q + 1) (hmantissa : x.mantissa = 2 ^ 52) (hgap : x.gap = 1)
    (hvalue : value < den * 2 ^ (q + 53)) :
    Double.roundHalfEven value (den * 2 ^ q) = 2 ^ 53 := by
  have hlow : (2 ^ 55 - 2) * (den * 2 ^ q) ≤ 4 * value :=
    calc (2 ^ 55 - 2) * (den * 2 ^ q) = (4 * 2 ^ 52 - 1) * 2 ^ (q + 1) * den := by ring
      _ ≤ 4 * value := by simpa only [hq, hmantissa, hgap] using h.low
  have hhigh : value < 2 ^ 53 * (den * 2 ^ q) :=
    calc value < den * 2 ^ (q + 53) := hvalue
      _ = 2 ^ 53 * (den * 2 ^ q) := by ring
  have hpos : 0 < den * 2 ^ q := Nat.mul_pos hden (Nat.two_pow_pos _)
  generalize den * 2 ^ q = step at *
  exact roundHalfEven_eq hpos (by omega) (by omega) (by omega)

/-- A larger exponent than that of `x` would need a mantissa of 54 bits. -/
theorem Attracts.exponent_le {value q : Nat} (h : x.Attracts (4 * value) den) (hden : 0 < den)
    (hvalue : den * 2 ^ (q + 52) ≤ value) : q ≤ x.exponent := by
  refine Nat.le_of_not_lt fun hlt => ?_
  have hpow : 2 ^ 53 * (2 ^ x.exponent * den) ≤ value :=
    calc 2 ^ 53 * (2 ^ x.exponent * den) = den * 2 ^ (x.exponent + 53) := by ring
      _ ≤ den * 2 ^ (q + 52) := Nat.mul_le_mul_left _ (Nat.pow_le_pow_right two_pos (by omega))
      _ ≤ value := hvalue
  have hmantissa := x.mantissa_lt
  have hpos : 0 < 2 ^ x.exponent * den := Nat.mul_pos (Nat.two_pow_pos _) hden
  have hhigh := h.high
  rw [Nat.mul_assoc] at hhigh
  have hbound := Nat.mul_le_mul_right (2 ^ x.exponent * den)
    (show 4 * x.mantissa + 2 ≤ 2 ^ 55 - 2 by omega)
  omega

/-- The exponent that leaves 53 bits before the point need not be that of `x`, but the magnitude
it leads to is that of `x`. -/
theorem Attracts.magnitude_eq {value q : Nat} (h : x.Attracts (4 * value) den) (hden : 0 < den)
    (hhigh : value < den * 2 ^ (q + 53)) (hlow : q = 0 ∨ den * 2 ^ (q + 52) ≤ value) :
    q * 2 ^ 52 + Double.roundHalfEven value (den * 2 ^ q) = x.magnitude := by
  have hle : q ≤ x.exponent := by
    rcases hlow with rfl | hlow
    · exact Nat.zero_le _
    · exact h.exponent_le hden hlow
  rw [x.magnitude_eq]
  rcases Nat.eq_or_lt_of_le hle with rfl | hlt
  · rw [h.roundHalfEven hden]
  · obtain ⟨k, hk⟩ : ∃ k, x.exponent = q + (k + 1) := ⟨x.exponent - q - 1, by omega⟩
    obtain ⟨rfl, hmantissa, hgap⟩ := h.lowest hden hk hhigh
    rw [h.roundHalfEven_lowest hden hk hmantissa hgap hhigh, hk, hmantissa]
    omega

/-- What lies in the interval of a finite double rounds to it. -/
theorem nearestMagnitude_eq (hx : x.isFinite = true) (hden : 0 < den) (hnum : num ≠ 0)
    (h : x.Attracts (4 * (num * 2 ^ 1074)) den) : nearestMagnitude num den = x.magnitude := by
  obtain ⟨hhigh, hlow⟩ := floorLog2_spec 1074 hnum hden.ne'
  have heq := h.magnitude_eq (q := floorLog2 num den 1074 - 52) hden
    (hhigh.trans_le (Nat.mul_le_mul_left _ (Nat.pow_le_pow_right two_pos (by omega)))) ?_
  · unfold nearestMagnitude
    simp only [Nat.pow_eq, -Nat.reducePow, heq]
    exact Nat.min_eq_left (Nat.le_of_lt (isFinite_iff.mp hx))
  · by_cases hk : floorLog2 num den 1074 ≤ 52
    · exact .inl (by omega)
    · rw [Nat.sub_add_cancel (by omega)]
      exact .inr (hlow.resolve_left (by omega))

def Reads (x : Double) (d : Numeral) : Prop :=
  x.Attracts (4 * (d.digits * 10 ^ d.exponent.toNat * 2 ^ 1074)) (10 ^ (-d.exponent).toNat)

/-- Any denominator that is a large enough power of ten will do. -/
theorem reads_iff {d : Numeral} {k : Nat} (hk : 0 ≤ d.exponent + k) :
    x.Reads d ↔
      x.Attracts (d.digits * (4 * 2 ^ 1074 * 10 ^ (d.exponent + k).toNat)) (10 ^ k) := by
  have hden : 10 ^ (-d.exponent).toNat * 10 ^ (k - (-d.exponent).toNat) = 10 ^ k := by
    rw [← Nat.pow_add]
    congr 1
    omega
  have hnum : 4 * (d.digits * 10 ^ d.exponent.toNat * 2 ^ 1074) * 10 ^ (k - (-d.exponent).toNat) =
      d.digits * (4 * 2 ^ 1074 * 10 ^ (d.exponent + k).toNat) := by
    have hexponent : (d.exponent + k).toNat = d.exponent.toNat + (k - (-d.exponent).toNat) := by
      omega
    rw [hexponent, Nat.pow_add]
    generalize 2 ^ 1074 = unit
    ring
  rw [← hden, ← hnum, attracts_mul (Nat.pow_pos (by decide))]
  rfl

theorem reads_mul_pow {n k : Nat} {e : Int} : x.Reads ⟨n * 10 ^ k, e - k⟩ ↔ x.Reads ⟨n, e⟩ := by
  obtain ⟨j, hj⟩ : ∃ j : Nat, 0 ≤ e - k + j := ⟨(e - k).natAbs, by omega⟩
  have hexponent : (e + j).toNat = k + (e - k + j).toNat := by omega
  have hnum : n * 10 ^ k * (4 * 2 ^ 1074 * 10 ^ (e - k + j).toNat) =
      n * (4 * 2 ^ 1074 * 10 ^ (e + j).toNat) := by
    rw [hexponent, Nat.pow_add]
    generalize 2 ^ 1074 = unit
    ring
  rw [reads_iff (k := j) hj, reads_iff (k := j) (by simp only; omega), hnum]

theorem Reads.digits_ne_zero {d : Numeral} (h : x.Reads d) (hx : x.magnitude ≠ 0) :
    d.digits ≠ 0 := by
  intro hzero
  have hlow := h.low
  have hmantissa := mantissa_pos hx
  have hgap := x.gap_le
  rw [hzero, Nat.zero_mul, Nat.zero_mul, Nat.mul_zero] at hlow
  have hpos : 0 < (4 * x.mantissa - x.gap) * 2 ^ x.exponent * 10 ^ (-d.exponent).toNat :=
    Nat.mul_pos (Nat.mul_pos (by omega) (Nat.two_pow_pos _)) (Nat.pow_pos (by decide))
  omega

theorem exponent_lt (hx : x.isFinite = true) : x.exponent < 2047 := by
  have hlt := isFinite_iff.mp hx
  rw [x.magnitude_eq] at hlt
  unfold infinity at hlt
  simp only [Nat.pow_eq] at hlt
  omega

theorem eight_pow_le (n : Nat) : 2 ^ (3 * n) ≤ 10 ^ n := by
  rw [Nat.pow_mul]
  exact Nat.pow_le_pow_left (by decide) n

/-- The interval of a number ends below the power of two that bounds its mantissa. -/
theorem not_attracts_large {n e k : Nat} (hn : n ≠ 0) (he : 55 + x.exponent < 3 * e + k) :
    ¬ x.Attracts (4 * (n * 10 ^ e * 2 ^ k)) 1 := by
  intro h
  have hmantissa := x.mantissa_lt
  have hlarge : 2 ^ (3 * e + k) ≤ n * 10 ^ e * 2 ^ k := by
    rw [Nat.pow_add]
    exact Nat.mul_le_mul_right _
      ((eight_pow_le e).trans (Nat.le_mul_of_pos_left _ (Nat.pos_of_ne_zero hn)))
  have hsmall : (4 * x.mantissa + 2) * 2 ^ x.exponent * 1 ≤ 2 ^ (55 + x.exponent) := by
    rw [Nat.mul_one, Nat.pow_add]
    exact Nat.mul_le_mul_right _ (by omega)
  have hgrow : 2 ^ (55 + x.exponent) < 2 ^ (3 * e + k) := Nat.pow_lt_pow_right (by decide) he
  have hhigh := h.high
  omega

theorem mul_two_pow_lt {n k e : Nat} (h : n.log2 + 1 + k ≤ 3 * e) : n * 2 ^ k < 10 ^ e :=
  calc n * 2 ^ k < 2 ^ (n.log2 + 1) * 2 ^ k :=
        Nat.mul_lt_mul_of_pos_right Nat.lt_log2_self (Nat.two_pow_pos k)
    _ = 2 ^ (n.log2 + 1 + k) := (Nat.pow_add ..).symm
    _ ≤ 2 ^ (3 * e) := Nat.pow_le_pow_right two_pos h
    _ ≤ 10 ^ e := eight_pow_le e

/-- The interval of a number other than zero starts at half of the smallest or above. -/
theorem not_attracts_small {n e k : Nat} (hx : x.magnitude ≠ 0)
    (he : n.log2 + 1 + (k + 26) ≤ 3 * e) :
    ¬ x.Attracts (4 * (n * 2 ^ k)) (10 ^ e) := by
  intro h
  have hsmall := mul_two_pow_lt he
  have hmantissa := mantissa_pos hx
  have hgap := x.gap_le
  have hlow : 2 * 10 ^ e ≤ 4 * (n * 2 ^ k) := by
    refine le_trans (Nat.mul_le_mul_right _ ?_) h.low
    exact Nat.le_trans (show 2 ≤ 4 * x.mantissa - x.gap by omega)
      (Nat.le_mul_of_pos_right _ (Nat.two_pow_pos _))
  rw [Nat.pow_add, ← Nat.mul_assoc] at hsmall
  omega

/-- A decimal in the interval of a finite number reads as that number. -/
theorem ofDecimal_eq {d : Numeral} (hx : x.isFinite = true) (hzero : x.magnitude ≠ 0)
    (h : x.Reads d) : ofDecimal d.digits d.exponent = ⟨false, x.magnitude⟩ := by
  have hdigits := h.digits_ne_zero hzero
  obtain ⟨n, e⟩ := d
  unfold ofDecimal
  rw [if_neg hdigits]
  cases e with
  | ofNat e =>
    have hattracts : x.Attracts (4 * (n * 10 ^ e * 2 ^ 1074)) 1 := by
      unfold Reads at h
      simpa only [Int.ofNat_eq_natCast, Int.toNat_natCast, Int.toNat_neg_natCast, pow_zero] using h
    have hle : ¬ 400 < e := fun hlt => by
      have hexponent := exponent_lt hx
      exact not_attracts_large hdigits (by omega) hattracts
    have hnum : n * 10 ^ e ≠ 0 := Nat.mul_ne_zero hdigits (Nat.pow_pos (by decide)).ne'
    simp only [hle, if_false, Nat.pow_eq]
    rw [nearestMagnitude_eq hx Nat.one_pos hnum hattracts]
  | negSucc e =>
    have hattracts : x.Attracts (4 * (n * 2 ^ 1074)) (10 ^ (e + 1)) := by
      have h' : x.Attracts (4 * (n * 1 * 2 ^ 1074)) (10 ^ (e + 1)) := h
      rwa [Nat.mul_one] at h'
    have hle : ¬ n.log2 + 1101 ≤ 3 * (e + 1) := fun hle =>
      not_attracts_small hzero (by omega) hattracts
    simp only [hle, if_false, Nat.pow_eq]
    rw [nearestMagnitude_eq hx (Nat.pow_pos (by decide)) hdigits hattracts]

end SchemaExpr.Decimal.Double
