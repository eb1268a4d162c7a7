import SchemaExpr.Proofs.NumberLiterals
import SchemaExpr.Text.Display

/-!
# Displayed text is read back

The form in which a character is displayed can be told from whatever follows it, and does not begin
with a double quote. So a displayed text ends at the first double quote that is not in an escape,
and no two texts are displayed alike.
-/
namespace SchemaExpr.Text

def namedEscapes : List (Char × Char) :=
  [('n', '\n'), ('r', '\r'), ('t', '\t'), ('0', '\x00')]

/-- The character that some displayed text begins with, and the text after it. -/
def readShown : List Char → Option (Char × List Char)
  | '\\' :: 'u' :: cs =>
    let digits := (cs.drop 1).takeWhile (· ≠ '\x7d')
    some (Char.ofNat (Literal.positional 16 digits), cs.drop (digits.length + 2))
  | '\\' :: mark :: cs => some ((namedEscapes.lookup mark).getD mark, cs)
  | c :: cs => some (c, cs)
  | [] => none

theorem positional_toDigits_sixteen (n : Nat) :
    Literal.positional 16 (Nat.toDigits 16 n) = n := by
  have hfilter : (Nat.toDigits 16 n).filter (· ≠ '_') = Nat.toDigits 16 n :=
    List.filter_eq_self.mpr fun c hc =>
      decide_eq_true (Literal.ne_separator_of_mem_toDigits (by decide) le_rfl hc)
  have hvalue := (Literal.denotes_toDigits (by decide) le_rfl n).eq_positional le_rfl
  rw [hfilter] at hvalue
  exact hvalue.symm

theorem ne_brace_of_mem_toDigits {n : Nat} {c : Char} (hc : c ∈ Nat.toDigits 16 n) :
    c ≠ '\x7d' := by
  obtain ⟨ds, hds, hlt, -⟩ := Literal.exists_digits (by decide : 1 < 16) n
  have hplain : ∀ d < 16, Nat.digitChar d ≠ '\x7d' := by decide
  rw [hds] at hc
  obtain ⟨d, hd, rfl⟩ := List.mem_map.mp hc
  exact hplain d (hlt d hd)

theorem readShown_codePointEscape (c : Char) (cs : List Char) :
    readShown (codePointEscape c ++ cs) = some (c, cs) := by
  have htake : (Nat.toDigits 16 c.toNat ++ '\x7d' :: cs).takeWhile (· ≠ '\x7d') =
      Nat.toDigits 16 c.toNat :=
    Scan.takeWhile_append_stop (fun x hx => decide_eq_true (ne_brace_of_mem_toDigits hx)) (by simp)
  have hescape : codePointEscape c ++ cs =
      '\\' :: 'u' :: '\x7b' :: (Nat.toDigits 16 c.toNat ++ '\x7d' :: cs) := by
    simp [codePointEscape]
  rw [hescape]
  simp only [readShown, List.drop_succ_cons, List.drop_zero, htake, positional_toDigits_sixteen,
    Char.ofNat_toNat, List.drop_length_add_append]

/-- What is displayed for a character shows where it ends. -/
theorem readShown_displayChar (c : Char) (cs : List Char) :
    readShown (displayChar c ++ cs) = some (c, cs) := by
  unfold displayChar
  split_ifs with hquote hslash hline hreturn htab hzero hhidden
  · rw [hquote]
    rfl
  · rw [hslash]
    rfl
  · rw [hline]
    rfl
  · rw [hreturn]
    rfl
  · rw [htab]
    rfl
  · rw [hzero]
    rfl
  · exact readShown_codePointEscape c cs
  · simp [readShown, hslash]

theorem displayChar_eq_cons (c : Char) : ∃ x xs, displayChar c = x :: xs ∧ x ≠ '"' := by
  unfold displayChar codePointEscape
  split_ifs with hquote <;> simp [*]

/-- The characters of a text are displayed up to the first quote that displays none of them. -/
theorem flatMap_displayChar_append_inj {s s' rest rest' : List Char}
    (h : s.flatMap displayChar ++ '"' :: rest = s'.flatMap displayChar ++ '"' :: rest') :
    s = s' ∧ rest = rest' := by
  induction s generalizing s' with
  | nil =>
    cases s' with
    | nil => exact ⟨rfl, (List.cons.inj h).2⟩
    | cons c' s' =>
      obtain ⟨x, xs, hshown, hx⟩ := displayChar_eq_cons c'
      simp only [List.flatMap_nil, List.flatMap_cons, hshown] at h
      exact absurd (List.cons.inj h).1.symm hx
  | cons c s ih =>
    cases s' with
    | nil =>
      obtain ⟨x, xs, hshown, hx⟩ := displayChar_eq_cons c
      simp only [List.flatMap_nil, List.flatMap_cons, hshown] at h
      exact absurd (List.cons.inj h).1 hx
    | cons c' s' =>
      have hread := congrArg readShown h
      simp only [List.flatMap_cons, List.append_assoc, readShown_displayChar, Option.some.injEq,
        Prod.mk.injEq] at hread
      obtain ⟨rfl, htail⟩ := hread
      obtain ⟨rfl, rfl⟩ := ih htail
      exact ⟨rfl, rfl⟩

theorem toList_displayQuoted (s : String) (rest : List Char) :
    (displayQuoted s).toList ++ rest = '"' :: (s.toList.flatMap displayChar ++ '"' :: rest) := by
  simp [displayQuoted]

/-- A text in quotes can be cancelled from the front of a longer text. -/
theorem displayQuoted_append_inj {s s' : String} {rest rest' : List Char}
    (h : (displayQuoted s).toList ++ rest = (displayQuoted s').toList ++ rest') :
    s = s' ∧ rest = rest' := by
  rw [toList_displayQuoted, toList_displayQuoted] at h
  obtain ⟨htext, hrest⟩ := flatMap_displayChar_append_inj (List.cons.inj h).2
  exact ⟨String.toList_inj.mp htext, hrest⟩

end SchemaExpr.Text
