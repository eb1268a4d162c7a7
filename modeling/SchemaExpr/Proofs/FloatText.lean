import SchemaExpr.Decimal.Layout
import SchemaExpr.Proofs.Numerals
import SchemaExpr.Proofs.Rounding

/-!
# Floating-point numbers as text

The search for the shortest decimal of a double succeeds with seventeen digits at the latest, for
the grid is then finer than the interval of the double. What it finds lies in the interval, so the
text of a finite number is one decimal text, and reading it gives the number back.
-/
namespace SchemaExpr.Decimal

namespace Double

variable {x : Double} {tie : Tie} {place : Nat}

/-- The distance of neighbours on the grid of a place, in scaled numerators. -/
@[irreducible] def step (place : Nat) : Nat := 4 * Nat.pow 2 1074 * Nat.pow 10 place

theorem step_eq (place : Nat) : step place = 4 * 2 ^ 1074 * 10 ^ place := by
  have hpow (m n : Nat) : Nat.pow m n = m ^ n := rfl
  rw [step, hpow 2, hpow 10]

theorem step_pos (place : Nat) : 0 < step place := by
  rw [step_eq]
  exact Nat.mul_pos (Nat.mul_pos (by decide) (Nat.two_pow_pos 1074)) (Nat.pow_pos (by decide))

/-- A quarter of the distance to the number above, in scaled numerators. -/
def quarter (x : Double) : Nat := 2 ^ x.exponent * 10 ^ decimalShift

theorem scaled_eq (x : Double) : x.scaled = 4 * x.mantissa * x.quarter := by
  simp only [scaled, quarter, Nat.pow_eq, Nat.mul_assoc]

theorem scaledLow_eq (x : Double) : x.scaledLow = (4 * x.mantissa - x.gap) * x.quarter := by
  simp only [scaledLow, gap, quarter, Nat.pow_eq, Nat.mul_assoc]

theorem scaledHigh_eq (x : Double) : x.scaledHigh = (4 * x.mantissa + 2) * x.quarter := by
  simp only [scaledHigh, quarter, Nat.pow_eq, Nat.mul_assoc]

theorem readsBack_iff {n : Nat} : x.readsBack n = true ↔ x.Attracts n (10 ^ decimalShift) := by
  unfold readsBack
  rw [scaledLow_eq, scaledHigh_eq, quarter, ← Nat.mul_assoc, ← Nat.mul_assoc]
  split
  · next heven =>
    simp only [Bool.and_eq_true, decide_eq_true_iff]
    exact ⟨fun h => ⟨h.1, h.2, by omega⟩, fun h => ⟨h.low, h.high⟩⟩
  · next hodd =>
    simp only [Bool.and_eq_true, decide_eq_true_iff]
    exact ⟨fun h => ⟨h.1.le, h.2.le, fun _ => h⟩, fun h => h.inside (by omega)⟩

/-- The interval reaches `gap` quarters down and two quarters up. -/
theorem readsBack_of_near {n : Nat} (hx : x.magnitude ≠ 0)
    (hlow : x.scaled < n + x.gap * x.quarter) (hhigh : n < x.scaled + 2 * x.quarter) :
    x.readsBack n = true := by
  have hmantissa := mantissa_pos hx
  have hgap : x.gap * x.quarter ≤ 4 * x.mantissa * x.quarter :=
    Nat.mul_le_mul_right _ (x.gap_le.trans (by omega))
  have hinside : x.scaledLow < n ∧ n < x.scaledHigh := by
    rw [scaledLow_eq, scaledHigh_eq, Nat.sub_mul, Nat.add_mul]
    rw [scaled_eq] at hlow hhigh
    omega
  unfold readsBack
  split <;> simp [hinside, hinside.1.le, hinside.2.le]

/-- A grid has a point that reads back unless both neighbours of the number fail. -/
theorem onGrid_cases (tie : Tie) (x : Double) (place : Nat) :
    (∃ d, x.onGrid? tie place = some d ∧ x.readsBack (d * step place) = true) ∨
      x.onGrid? tie place = none ∧ x.readsBack (x.scaled / step place * step place) = false ∧
        x.readsBack ((x.scaled / step place + 1) * step place) = false := by
  unfold onGrid? step
  generalize 4 * Nat.pow 2 1074 * Nat.pow 10 place = s
  cases hlow : x.readsBack (x.scaled / s * s) <;>
    cases hhigh : x.readsBack ((x.scaled / s + 1) * s)
  · exact .inr ⟨by simp only [hlow, hhigh], rfl, rfl⟩
  · exact .inl ⟨_, by simp only [hlow, hhigh], hhigh⟩
  · exact .inl ⟨_, by simp only [hlow, hhigh], hlow⟩
  · refine .inl ?_
    simp only [hlow, hhigh]
    split
    · exact ⟨_, rfl, hlow⟩
    · split
      · exact ⟨_, rfl, hhigh⟩
      · cases tie with
        | up => exact ⟨_, rfl, hhigh⟩
        | even =>
          refine ⟨_, rfl, ?_⟩
          split <;> assumption

theorem quarter_pos (x : Double) : 0 < x.quarter := by
  unfold quarter
  exact Nat.mul_pos (Nat.two_pow_pos _) (Nat.pow_pos (by decide))

/-- Mantissas have fewer than seventeen digits, so a grid on which the number has seventeen is
finer than the interval. -/
theorem lt_width {s : Nat} (hfine : s * 10 ^ 16 ≤ x.scaled) : s < (x.gap + 2) * x.quarter := by
  have hmantissa := x.mantissa_lt
  have hquarter := x.quarter_pos
  rw [scaled_eq, Nat.mul_assoc] at hfine
  generalize x.quarter = q at *
  unfold gap
  split
  · next h =>
    rw [h.1] at hfine
    omega
  · have := Nat.mul_le_mul_right q (Nat.le_of_lt hmantissa)
    omega

theorem onGrid_ne_none (hx : x.magnitude ≠ 0) (hfine : step place * 10 ^ 16 ≤ x.scaled) :
    x.onGrid? tie place ≠ none := by
  intro hnone
  have hpos := step_pos place
  have hwidth := lt_width hfine
  have hquarter := x.quarter_pos
  rcases onGrid_cases tie x place with ⟨d, hd, -⟩ | ⟨-, hlow, hhigh⟩
  · simp [hd] at hnone
  · generalize step place = s at *
    have hdiv := Nat.div_add_mod' x.scaled s
    have hmod := Nat.mod_lt x.scaled hpos
    rw [Nat.add_mul] at hwidth
    rw [Nat.add_mul, Nat.one_mul] at hhigh
    by_cases hbelow : x.scaled % s < x.gap * x.quarter
    · exact Bool.eq_false_iff.mp hlow (readsBack_of_near hx (by omega) (by omega))
    · exact Bool.eq_false_iff.mp hhigh (readsBack_of_near hx (by omega) (by omega))

/-- The first grid with a point that reads back decides. -/
theorem search_spec {places : List Nat} (h : ∃ place ∈ places, x.onGrid? tie place ≠ none) :
    ∃ (place : Nat) (d : Nat), x.search tie places = ⟨d, place - decimalShift⟩ ∧
      x.readsBack (d * step place) = true := by
  induction places with
  | nil => simp at h
  | cons place finer ih =>
    rw [search]
    rcases onGrid_cases tie x place with ⟨d, hd, hreads⟩ | ⟨hnone, -⟩
    · exact ⟨place, d, by rw [hd], hreads⟩
    · rw [hnone]
      refine ih ?_
      obtain ⟨p, hp, hsome⟩ := h
      rcases List.mem_cons.mp hp with rfl | hp
      · exact absurd hnone hsome
      · exact ⟨p, hp, hsome⟩

theorem reads_of_readsBack {d : Nat} (h : x.readsBack (d * step place) = true) :
    x.Reads ⟨d, place - decimalShift⟩ := by
  rw [readsBack_iff] at h
  rw [reads_iff (k := decimalShift) (by simp only; omega)]
  rwa [Int.sub_add_cancel, Int.toNat_natCast, ← step_eq]

theorem reads_strip {d : Numeral} (fuel : Nat) (h : x.Reads d) : x.Reads (d.strip fuel) := by
  induction fuel generalizing d with
  | zero => exact h
  | succ fuel ih =>
    unfold Numeral.strip
    split
    · next hzero =>
      refine ih (reads_mul_pow (k := 1) |>.mp ?_)
      have hdigits : d.digits / 10 * 10 ^ 1 = d.digits := by omega
      rw [hdigits]
      simpa using h
    · exact h

/-- The smallest number still has seventeen digits before the point. -/
theorem le_scaled (hx : x.magnitude ≠ 0) : 10 ^ 16 ≤ x.scaled / (4 * Nat.pow 2 1074) := by
  have hpow : 10 ^ 16 * Nat.pow 2 1074 ≤ 10 ^ decimalShift := by decide +kernel
  rw [Nat.le_div_iff_mul_le (by decide +kernel), scaled_eq, quarter]
  have hle : 10 ^ decimalShift ≤ x.mantissa * (2 ^ x.exponent * 10 ^ decimalShift) :=
    (Nat.le_mul_of_pos_left _ (Nat.two_pow_pos _)).trans
      (Nat.le_mul_of_pos_left _ (mantissa_pos hx))
  generalize Nat.pow 2 1074 = unit at *
  generalize 10 ^ decimalShift = shift at *
  rw [Nat.mul_assoc]
  omega

/-- The shortest decimal of a number lies in the interval of the number. -/
theorem reads_shortest (tie : Tie) (hx : x.magnitude ≠ 0) : x.Reads (x.shortest tie) := by
  have hle := le_scaled hx
  unfold shortest
  refine reads_strip 17 ?_
  have hdiv := Nat.div_mul_le_self x.scaled (4 * Nat.pow 2 1074)
  generalize hn : x.scaled / (4 * Nat.pow 2 1074) = n at *
  have hlong : ¬ (Nat.toDigits 10 n).length ≤ 16 := by
    rw [Nat.length_toDigits_le_iff (by decide) (by decide)]
    omega
  have hpow : 10 ^ ((Nat.toDigits 10 n).length - 1) ≤ n := by
    refine Nat.le_of_not_lt fun hlt => ?_
    rw [← Nat.length_toDigits_le_iff (by decide) (by omega)] at hlt
    omega
  generalize (Nat.toDigits 10 n).length = length at *
  obtain ⟨place, d, hsearch, hreads⟩ : ∃ (place : Nat) (d : Nat),
      x.search tie ((List.range 17).map fun i => length - 1 - i) = ⟨d, place - decimalShift⟩ ∧
        x.readsBack (d * step place) = true := by
    refine search_spec ⟨length - 1 - 16, List.mem_map.mpr ⟨16, by decide, rfl⟩, ?_⟩
    refine onGrid_ne_none hx (le_trans ?_ hdiv)
    rw [step, Nat.mul_assoc, Nat.mul_comm n]
    refine Nat.mul_le_mul_left _ (le_trans (Nat.le_of_eq ?_) hpow)
    rw [Nat.pow_eq, ← Nat.pow_add]
    congr 1
    omega
  rw [hsearch]
  exact reads_of_readsBack hreads

end Double

namespace Layout

theorem isDigit_zeros {n : Nat} : ∀ c ∈ zeros n, c.isDigit = true := by
  intro c hc
  rw [List.eq_of_mem_replicate hc]
  rfl

theorem positional_zeros_append (n : Nat) (ds : List Char) :
    Literal.positional 10 (zeros n ++ ds) = Literal.positional 10 ds := by
  induction n with
  | zero => rfl
  | succ n ih => exact ih

theorem positional_append_zeros (n : Nat) (ds : List Char) :
    Literal.positional 10 (ds ++ zeros n) = Literal.positional 10 ds * 10 ^ n := by
  induction n with
  | zero => simp [zeros]
  | succ n ih =>
    have hsplit : ds ++ zeros (n + 1) = ds ++ zeros n ++ ['0'] := by
      rw [zeros, List.replicate_succ', ← List.append_assoc]
      rfl
    have hlast (cs : List Char) :
        Literal.positional 10 (cs ++ ['0']) = Literal.positional 10 cs * 10 := by
      simp [Literal.positional, Literal.digitValue]
    rw [hsplit, hlast, ih, Nat.pow_succ, Nat.mul_assoc]

/-- Positional notation is a decimal text of the number, with zeros added as far as needed. -/
theorem positional_decimal (n : Nat) (e : Int) :
    ∃ (d : DecimalText) (k : Nat), positional (Nat.toDigits 10 n) e = d.text ∧ d.part ≠ [] ∧
      d.digits = n * 10 ^ k ∧ d.shift = e + 1 - (Nat.toDigits 10 n).length - k := by
  have hdigits := Literal.isDigit_toDigits n
  have hvalue := Literal.positional_toDigits n
  have hne : Nat.toDigits 10 n ≠ [] := Nat.toDigits_ne_nil
  generalize Nat.toDigits 10 n = ds at *
  cases e with
  | negSucc j =>
    refine ⟨⟨['0'], zeros j ++ ds, none, by simp, ?_⟩, 0, ?_, by simp [hne], ?_, ?_⟩
    · intro c hc
      simp only [List.cons_append, List.nil_append, List.mem_cons, List.mem_append] at hc
      rcases hc with rfl | hc | hc
      · rfl
      · exact isDigit_zeros c hc
      · exact hdigits c hc
    · simp [positional, DecimalText.text, DecimalText.point, DecimalText.exponentText, hne]
    · have hzeros := positional_zeros_append (j + 1) ds
      rw [hvalue] at hzeros
      simpa [DecimalText.digits, zeros, List.replicate_succ] using hzeros
    · simp [DecimalText.shift, zeros]
      omega
  | ofNat j =>
    by_cases hlong : j + 1 < ds.length
    · have hdrop : ds.drop (j + 1) ≠ [] := by simpa using hlong
      refine ⟨⟨ds.take (j + 1), ds.drop (j + 1), none, by simp [hne], by simpa using hdigits⟩, 0,
        ?_, hdrop, ?_, ?_⟩
      · have hfull : j + 1 - (ds.take (j + 1)).length = 0 := by simp; omega
        simp only [positional, hfull, DecimalText.text, DecimalText.point,
          DecimalText.exponentText, if_neg hdrop, zeros]
        simp
      · simpa [DecimalText.digits] using hvalue
      · simp [DecimalText.shift]
        omega
    · have htake : ds.take (j + 1) = ds := List.take_of_length_le (by omega)
      have hdrop : ds.drop (j + 1) = [] := List.drop_of_length_le (by omega)
      refine ⟨⟨ds ++ zeros (j + 1 - ds.length), ['0'], none, by simp [hne], ?_⟩,
        j + 1 - ds.length + 1, ?_, by simp, ?_, ?_⟩
      · intro c hc
        simp only [List.append_assoc, List.mem_append, List.mem_singleton] at hc
        rcases hc with hc | hc | rfl
        · exact hdigits c hc
        · exact isDigit_zeros c hc
        · rfl
      · simp [positional, htake, hdrop, DecimalText.text, DecimalText.point,
          DecimalText.exponentText]
      · have hzeros := positional_append_zeros (j + 1 - ds.length + 1) ds
        rw [hvalue] at hzeros
        rw [← hzeros]
        simp [DecimalText.digits, zeros, List.replicate_succ']
      · simp [DecimalText.shift]
        omega

theorem scientific_decimal (layout : Layout) (hplus : layout.plus = false) (n : Nat) (e : Int) :
    ∃ d : DecimalText, layout.scientific (Nat.toDigits 10 n) e = d.text ∧ d.exponent.isSome ∧
      d.digits = n ∧ d.shift = e + 1 - (Nat.toDigits 10 n).length := by
  have hdigits := Literal.isDigit_toDigits n
  have hvalue := Literal.positional_toDigits n
  have hne : Nat.toDigits 10 n ≠ [] := Nat.toDigits_ne_nil
  generalize Nat.toDigits 10 n = ds at *
  obtain ⟨c, cs, rfl⟩ := List.exists_cons_of_ne_nil hne
  refine ⟨⟨[c], cs, some e, by simp, hdigits⟩, ?_, rfl, hvalue, ?_⟩
  · cases cs <;>
      simp [scientific, hplus, DecimalText.text, DecimalText.point, DecimalText.exponentText,
        DecimalText.sign]
  · simp [DecimalText.shift]

/-- The text of a finite number is a decimal text that reads back as the number. -/
theorem text_decimal {layout : Layout} {x : Double} (hplus : layout.plus = false)
    (hfinite : x.isFinite = true) (hsign : x.negative = false) :
    ∃ d : DecimalText, (layout.text x).toList = d.text ∧
      Literal.readNumber d.text = .ok (.float x) := by
  suffices h : ∃ d : DecimalText, (layout.text x).toList = d.text ∧
      (d.part ≠ [] ∨ d.exponent.isSome) ∧ Double.ofDecimal d.digits d.shift = x by
    obtain ⟨d, htext, hfloat, hvalue⟩ := h
    refine ⟨d, htext, ?_⟩
    rw [d.readNumber_text hfloat (by rw [hvalue, hfinite]), hvalue]
  have hx : (⟨false, x.magnitude⟩ : Double) = x := by rw [← hsign]
  simp only [text, hfinite, if_true, hsign, Bool.false_eq_true, if_false, List.nil_append,
    String.toList_ofList]
  by_cases hzero : x.magnitude = 0
  · refine ⟨⟨['0'], ['0'], none, by simp, by simp⟩, ?_, .inl (by simp), ?_⟩
    · simp [hzero, DecimalText.text, DecimalText.point, DecimalText.exponentText]
    · rw [← hx, hzero]
      rfl
  · rw [if_neg hzero]
    have hreads := Double.reads_shortest layout.tie hzero
    generalize x.shortest layout.tie = d at *
    split
    · obtain ⟨t, k, htext, hpart, hdigits, hshift⟩ :=
        positional_decimal d.digits (d.exponent + (Nat.toDigits 10 d.digits).length - 1)
      refine ⟨t, htext, .inl hpart, ?_⟩
      have hexponent : t.shift = d.exponent - k := by omega
      have hpadded : x.Reads ⟨t.digits, t.shift⟩ := by
        rw [hdigits, hexponent]
        exact Double.reads_mul_pow.mpr hreads
      rw [← hx]
      exact Double.ofDecimal_eq hfinite hzero hpadded
    · obtain ⟨t, htext, hexponent, hdigits, hshift⟩ := layout.scientific_decimal hplus d.digits
        (d.exponent + (Nat.toDigits 10 d.digits).length - 1)
      refine ⟨t, htext, .inr hexponent, ?_⟩
      have hshift' : t.shift = d.exponent := by omega
      rw [hdigits, hshift', ← hx]
      exact Double.ofDecimal_eq hfinite hzero hreads

end Layout

theorem display_decimal {x : Double} (hfinite : x.isFinite = true) (hsign : x.negative = false) :
    ∃ d : DecimalText, (display.text x).toList = d.text ∧
      Literal.readNumber d.text = .ok (.float x) :=
  Layout.text_decimal rfl hfinite hsign

end SchemaExpr.Decimal
