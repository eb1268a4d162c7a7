import SchemaExpr.Proofs.Lexemes

/-!
# Quoted text is read back

The literal that `quote` writes for a text is one string lexeme whatever follows it, and decodes to
that text. Both the scanner and the decoder go over the escape of one character at a time.
-/
namespace SchemaExpr

namespace Literal

theorem hexDigit?_digitChar : ∀ d < 16, hexDigit? (Nat.digitChar d) = some d := by decide

theorem digitChar_plain : ∀ d < 16, Nat.digitChar d ≠ '"' ∧ Nat.digitChar d ≠ '\\' := by decide

/-- Four hexadecimal digits name the character that they are written for. -/
theorem scalar?_hex4 {c : Char} (hc : c.toNat < 4096 * 16) :
    scalar? (Nat.digitChar (c.toNat / 4096 % 16)) (Nat.digitChar (c.toNat / 256 % 16))
      (Nat.digitChar (c.toNat / 16 % 16)) (Nat.digitChar (c.toNat % 16)) = some c := by
  have hvalue : (c.toNat / 4096 % 16 * 16 + c.toNat / 256 % 16) * 256 + c.toNat / 16 % 16 * 16 +
      c.toNat % 16 = c.toNat := by omega
  have hdigit (n : Nat) : hexDigit? (Nat.digitChar (n % 16)) = some (n % 16) :=
    hexDigit?_digitChar _ (Nat.mod_lt _ (by decide))
  simp only [scalar?, hdigit, Option.bind_eq_bind, Option.bind_some, hvalue, Char.ofNat_toNat]
  exact if_pos c.valid

theorem isControl_lt {c : Char} (hc : isControl c = true) : c.toNat < 4096 * 16 := by
  simp only [isControl, Bool.or_eq_true, Bool.and_eq_true, decide_eq_true_eq] at hc
  omega

/-- The characters that `quote` does not escape stand for themselves in the source. -/
theorem pieces_plain {quote c : Char} (hquote : c ≠ quote) (hslash : c ≠ '\\') (cs : List Char) :
    pieces quote (c :: cs) = .plain c :: pieces quote cs := by
  rw [pieces.eq_def]
  split <;> simp_all

theorem pieces_escape {quote c : Char} (hu : c ≠ 'u') (cs : List Char) :
    pieces quote ('\\' :: c :: cs) = .escape c :: pieces quote cs := by
  rw [pieces.eq_def]
  split <;> grind

theorem decoded_quoteChar (c : Char) (cs : List Char) :
    (pieces '"' (quoteChar c ++ cs)).flatMap Piece.decoded =
      c :: (pieces '"' cs).flatMap Piece.decoded := by
  unfold quoteChar
  split
  · next h => simp [h, pieces_escape, Piece.decoded]
  split
  · next h => simp [h, pieces_escape, Piece.decoded]
  split
  · next h => simp [h, pieces_escape, Piece.decoded]
  split
  · next h => simp [h, pieces_escape, Piece.decoded]
  split
  · next h => simp [h, pieces_escape, Piece.decoded]
  split
  · next h =>
    simp only [hex4, List.map_cons, List.map_nil, List.cons_append, List.nil_append]
    rw [pieces, scalar?_hex4 (isControl_lt h)]
    rfl
  · next hquote hslash _ _ _ _ => simp [pieces_plain hquote hslash, Piece.decoded]

theorem decode_quote (s : List Char) : decode (quote s) = s := by
  simp only [decode, quote]
  induction s with
  | nil => rfl
  | cons c s ih => rw [List.flatMap_cons, List.append_assoc, decoded_quoteChar, ih]

end Literal

namespace Scan

open Literal

theorem stringTail_plain {quote c : Char} (hquote : c ≠ quote) (hslash : c ≠ '\\')
    (cs : List Char) : stringTail quote (c :: cs) = c :: stringTail quote cs := by
  rw [stringTail.eq_def]
  split <;> simp_all

theorem stringTail_escape {quote : Char} (c : Char) (cs : List Char) :
    stringTail quote ('\\' :: c :: cs) = '\\' :: c :: stringTail quote cs := by
  rw [stringTail]

/-- The scanner goes over the escape of a character as a whole. -/
theorem stringTail_quoteChar (c : Char) (cs : List Char) :
    stringTail '"' (quoteChar c ++ cs) = quoteChar c ++ stringTail '"' cs := by
  unfold quoteChar
  split
  · exact stringTail_escape _ _
  split
  · exact stringTail_escape _ _
  split
  · exact stringTail_escape _ _
  split
  · exact stringTail_escape _ _
  split
  · exact stringTail_escape _ _
  split
  · have hplain (n : Nat) (ds : List Char) :
        stringTail '"' (Nat.digitChar (n % 16) :: ds) =
          Nat.digitChar (n % 16) :: stringTail '"' ds :=
      have h := digitChar_plain (n % 16) (Nat.mod_lt _ (by decide))
      stringTail_plain h.1 h.2 ds
    simp only [hex4, List.map_cons, List.map_nil, List.cons_append, List.nil_append,
      stringTail_escape, hplain]
  · next hquote hslash _ _ _ _ => exact stringTail_plain hquote hslash cs

theorem stringTail_quoted (s rest : List Char) :
    stringTail '"' (s.flatMap quoteChar ++ '"' :: rest) = s.flatMap quoteChar ++ ['"'] := by
  induction s with
  | nil => simp [stringTail]
  | cons c s ih =>
    rw [List.flatMap_cons, List.append_assoc, stringTail_quoteChar, ih, List.append_assoc]

end Scan

theorem lexemes_quote (s rest : List Char) :
    lexemes (Literal.quote s ++ rest) = ⟨.string, String.ofList s⟩ :: lexemes rest := by
  have hfirst : Scan.first '"' ((s.flatMap Literal.quoteChar ++ ['"']) ++ rest) =
      (.string, Literal.quote s) := by
    simp [Scan.first, Scan.stringTail_quoted, Literal.quote]
  have h := lexemes_append rfl hfirst
  simpa [Lexer.literal, ← Literal.quote.eq_1, Literal.decode_quote] using h

end SchemaExpr
