import SchemaExpr.Proofs.FloatText
import SchemaExpr.Proofs.QuotedText
import SchemaExpr.Proofs.TargetForm

/-!
# The lexemes of a target text

The text of a target tree has the lexemes that it was written with, whatever delimiter follows it:
the scanner takes every number, word and symbol as a whole, and no two of them run together.
-/
namespace SchemaExpr.Target

open Glyph

/-- What may follow a tree in a target text. -/
inductive Delimited : List Char → Prop
  | nil : Delimited []
  | mark {c cs} : c ∈ [' ', ',', ')', ']'] → Delimited (c :: cs)
  | dot {c cs} : Scan.isWordStart c = true → Delimited ('.' :: c :: cs)

theorem Delimited.endsNumber {rest : List Char} (h : Delimited rest) : Scan.EndsNumber rest := by
  cases h with
  | nil => exact ⟨by simp, rfl⟩
  | mark h =>
    simp only [List.mem_cons, List.not_mem_nil, or_false] at h
    rcases h with rfl | rfl | rfl | rfl <;> exact ⟨by simp; decide, rfl⟩
  | dot h =>
    refine ⟨by simp; decide, ?_⟩
    simp [Scan.fraction, (Scan.isWordStart_class h).1]

theorem Delimited.endsWord {rest : List Char} (h : Delimited rest) :
    ∀ d ∈ rest.head?, Scan.isWordChar d = false := by
  cases h with
  | nil => simp
  | mark h =>
    simp only [List.mem_cons, List.not_mem_nil, or_false] at h
    rcases h with rfl | rfl | rfl | rfl <;> simp <;> decide
  | dot h => simp; decide

/-- The lexemes that a target tree is written with. -/
def code (t : Expr Unit) : List Lexeme := (glyphs t).filterMap id

def codeItems (ts : List (Expr Unit)) : List Lexeme := (glyphs.items ts).filterMap id

def codeMore (ts : List (Expr Unit)) : List Lexeme := (glyphs.more ts).filterMap id

/-- The text of a tree reads as its lexemes before any delimiter. -/
def Lexed (t : Expr Unit) : Prop :=
  ∀ {rest}, Delimited rest → lexemes (print t ++ rest) = code t ++ lexemes rest

section Code

variable (name : String) (t lhs rhs : Expr Unit) (ts : List (Expr Unit))

theorem code_callOf : code (callOf name ts) =
    .word name :: .symbol .lparen :: (codeItems ts ++ [.symbol .rparen]) := by
  simp [code, callOf, glyphs, codeItems, word, symbol]

theorem code_binary (op : BinaryOp) : code (.binary () op lhs rhs) = .symbol .lparen ::
    (code lhs ++ .symbol (operatorKind op) :: (code rhs ++ [.symbol .rparen])) := by
  simp [code, glyphs, symbol, blank]

theorem code_unary {op : UnaryOp} (h : negated? op t = none) :
    code (.unary () op t) = .symbol (Grammar.signKind op) :: code t := by
  simp [code, glyphs_unary h, symbol]

theorem code_attr : code (.attr () t name ()) = code t ++ [.symbol .dot, .word name] := by
  simp [code, glyphs, symbol, word]

theorem code_array : code (.array () ts) =
    .symbol .lbracket :: (codeItems ts ++ [.symbol .rbracket]) := by
  simp [code, glyphs, codeItems, symbol]

/-- An integer below the limit needs no mark of the unsigned type. -/
theorem code_signed {n : Nat} (h : n < signedLimit) :
    code (.int () n) = [.number (toString n)] := by
  rw [code, glyphs, if_pos h]
  rfl

@[simp] theorem codeItems_nil : codeItems [] = [] := rfl

theorem codeItems_cons : codeItems (t :: ts) = code t ++ codeMore ts := by
  simp [codeItems, codeMore, code, glyphs.items]

@[simp] theorem codeMore_nil : codeMore [] = [] := rfl

theorem codeMore_cons : codeMore (t :: ts) = .symbol .comma :: (code t ++ codeMore ts) := by
  simp [codeMore, code, glyphs.more, symbol, blank]

end Code

def integerDecimal (n : Nat) : DecimalText :=
  ⟨Nat.toDigits 10 n, [], none, Nat.toDigits_ne_nil, by simpa using Literal.isDigit_toDigits n⟩

theorem text_integerDecimal (n : Nat) : (integerDecimal n).text = (toString n).toList := by
  simp [integerDecimal, DecimalText.text, DecimalText.point, DecimalText.exponentText]

theorem lexemes_toString (n : Nat) {rest : List Char} (hrest : Scan.EndsNumber rest) :
    lexemes ((toString n).toList ++ rest) = .number (toString n) :: lexemes rest := by
  rw [← text_integerDecimal, lexemes_decimal _ hrest, text_integerDecimal, String.ofList_toList]
  rfl

theorem readNumber_toString {n : Nat} (hn : n < UInt64.size) :
    Literal.readNumber (toString n).toList = .ok (.int n) := by
  simpa using Literal.readNumber_toDigits hn

theorem lexemes_mark {c : Char} (kind : Kind) (h : (c, kind) ∈ [('(', Kind.lparen), (')', .rparen),
      ('[', .lbracket), (']', .rbracket), ('.', .dot), (',', .comma), ('-', .minus)])
    (rest : List Char) : lexemes (c :: rest) = .symbol kind :: lexemes rest := by
  simp only [List.mem_cons, Prod.mk.injEq, List.not_mem_nil, or_false] at h
  rcases h with ⟨rfl, rfl⟩ | ⟨rfl, rfl⟩ | ⟨rfl, rfl⟩ | ⟨rfl, rfl⟩ | ⟨rfl, rfl⟩ | ⟨rfl, rfl⟩ |
      ⟨rfl, rfl⟩ <;>
    exact lexemes_single rfl fun d _ => by simp [Scan.pairs]

theorem lexemes_operator {op : BinaryOp} {symbol : String} (h : binaryForm op = .native symbol)
    (rest : List Char) : lexemes ((" " ++ symbol ++ " ").toList ++ rest) =
      .symbol (operatorKind op) :: lexemes rest := by
  have hsingle {c : Char} {kind : Kind} (hc : Scan.singles.lookup c = some kind)
      (hpair : Scan.pairs.lookup (c, ' ') = none) :
      lexemes (' ' :: c :: ' ' :: rest) = ⟨kind, String.ofList [c]⟩ :: lexemes rest := by
    rw [lexemes_layout rfl, lexemes_single hc (by simpa using hpair), lexemes_layout rfl]
  have hdouble {c d : Char} {kind : Kind} (hcd : Scan.pairs.lookup (c, d) = some kind) :
      lexemes (' ' :: c :: d :: ' ' :: rest) = ⟨kind, String.ofList [c, d]⟩ :: lexemes rest := by
    rw [lexemes_layout rfl, lexemes_pair hcd, lexemes_layout rfl]
  cases op <;> cases h <;> first | exact hsingle rfl rfl | exact hdouble rfl

theorem lexemes_bang {rest : List Char} (hrest : ∀ d ∈ rest.head?, d ≠ '=') :
    lexemes ('!' :: rest) = .symbol .bang :: lexemes rest := by
  refine lexemes_single rfl fun d hd => ?_
  have hne := hrest d hd
  simp [Scan.pairs, hne]

theorem lexemes_name {name : String} (hword : Scan.IsWord name.toList) {rest : List Char}
    (hrest : ∀ d ∈ rest.head?, Scan.isWordChar d = false) :
    lexemes (name.toList ++ rest) = .word name :: lexemes rest := by
  rw [lexemes_word hword hrest, String.ofList_toList]
  rfl

def StartsPlain (cs : List Char) : Prop := ∃ c, cs.head? = some c ∧ c ≠ '='

theorem StartsPlain.append {cs : List Char} (h : StartsPlain cs) (rest : List Char) :
    StartsPlain (cs ++ rest) := by
  obtain ⟨c, hc, hne⟩ := h
  exact ⟨c, by simp [hc], hne⟩

theorem startsPlain_word {cs : List Char} (h : Scan.IsWord cs) : StartsPlain cs := by
  cases cs with
  | nil => cases h
  | cons c cs =>
    refine ⟨c, rfl, ?_⟩
    rintro rfl
    exact absurd h.1 (by decide)

theorem startsPlain_decimal (d : DecimalText) : StartsPlain d.text := by
  obtain ⟨c, cs, hwhole⟩ := List.exists_cons_of_ne_nil d.whole_ne_nil
  refine ⟨c, by simp [DecimalText.text, hwhole], ?_⟩
  rintro rfl
  exact absurd (d.isDigit '=' (by simp [hwhole])) (by decide)

theorem Form.startsPlain {strict : Prop} {t : Expr Unit} (h : Form strict t) :
    StartsPlain (print t) := by
  induction h with
  | @bool value => cases value <;> exact ⟨_, rfl, by decide⟩
  | @int n =>
    have hdigits : StartsPlain (toString n).toList :=
      text_integerDecimal n ▸ startsPlain_decimal (integerDecimal n)
    rw [print_int, integerText]
    split
    · exact hdigits
    · rw [String.toList_append]
      exact hdigits.append _
  | float hfinite hsign =>
    obtain ⟨d, htext, -⟩ := Decimal.display_decimal hfinite hsign
    rw [print_float, htext]
    exact startsPlain_decimal d
  | text => exact ⟨'"', rfl, by decide⟩
  | null => exact ⟨_, rfl, by decide⟩
  | ident hname =>
    rw [print_ident]
    exact startsPlain_word hname.1
  | @special name => cases name <;> exact ⟨_, rfl, by decide⟩
  | negated => exact ⟨'-', rfl, by decide⟩
  | @unary op _ _ hform hnone =>
    rw [print_unary hnone hform]
    cases op <;> cases hform <;> exact ⟨_, rfl, by decide⟩
  | binary hform =>
    rw [print_binary hform]
    exact ⟨'(', rfl, by decide⟩
  | attr _ _ _ ih =>
    rw [print_attr]
    exact ih.append _
  | call hname =>
    rw [print_callOf]
    exact (startsPlain_word hname.1).append _
  | array =>
    rw [print_array]
    exact ⟨'[', rfl, by decide⟩

theorem lexemes_printMore {ts : List (Expr Unit)} (h : ∀ t ∈ ts, Lexed t) {rest : List Char}
    (hrest : Delimited rest) :
    Delimited (printMore ts ++ rest) ∧
      lexemes (printMore ts ++ rest) = codeMore ts ++ lexemes rest := by
  induction ts with
  | nil => exact ⟨hrest, rfl⟩
  | cons t ts ih =>
    obtain ⟨hdelimited, hmore⟩ := ih fun u hu => h u (by simp [hu])
    have hsplit :
        printMore (t :: ts) ++ rest = ',' :: ' ' :: (print t ++ (printMore ts ++ rest)) := by
      simp
    rw [hsplit]
    refine ⟨.mark (by simp), ?_⟩
    rw [lexemes_mark .comma (by simp), lexemes_layout rfl, h t (by simp) hdelimited, hmore,
      codeMore_cons]
    simp

theorem lexemes_printItems {ts : List (Expr Unit)} (h : ∀ t ∈ ts, Lexed t) {rest : List Char}
    (hrest : Delimited rest) :
    lexemes (printItems ts ++ rest) = codeItems ts ++ lexemes rest := by
  cases ts with
  | nil => rfl
  | cons t ts =>
    have hts : ∀ u ∈ ts, Lexed u := fun u hu => h u (by simp [hu])
    obtain ⟨hdelimited, hmore⟩ := lexemes_printMore hts hrest
    rw [printItems_cons, List.append_assoc, h t (by simp) hdelimited, hmore, codeItems_cons,
      List.append_assoc]

theorem lexed_word {t : Expr Unit} {name : String} (hword : Scan.IsWord name.toList)
    (hprint : print t = name.toList) (hcode : code t = [.word name]) : Lexed t := by
  intro rest hrest
  rw [hprint, hcode, lexemes_name hword hrest.endsWord]
  rfl

/-- The text of a tree reads as the lexemes that the tree was written with. -/
theorem Form.lexed {strict : Prop} {t : Expr Unit} (h : Form strict t) : Lexed t := by
  induction h with
  | @bool value => cases value <;> exact lexed_word (by decide) rfl rfl
  | @int n =>
    intro rest hrest
    rw [print_int, integerText, code, glyphs]
    split
    · exact lexemes_toString n hrest.endsNumber
    · rw [String.toList_append, List.append_assoc, lexemes_toString n ⟨by simp; decide, rfl⟩,
        lexemes_name (by decide) hrest.endsWord]
      rfl
  | @float value hfinite hsign =>
    intro rest hrest
    obtain ⟨d, htext, -⟩ := Decimal.display_decimal hfinite hsign
    have hcode : code (.float () value) = [⟨.number, String.ofList d.text⟩] := by
      simp [code, glyphs, number, Lexeme.number, ← htext]
    rw [print_float, htext, lexemes_decimal d hrest.endsNumber, hcode]
    rfl
  | @text value =>
    intro rest hrest
    rw [print_text, literalText, String.toList_ofList, lexemes_quote, String.ofList_toList]
    rfl
  | null => exact lexed_word (by decide) rfl rfl
  | ident hname => exact lexed_word hname.1 (print_ident _) rfl
  | @special name => cases name <;> exact lexed_word (by decide) rfl rfl
  | @negated n =>
    intro rest hrest
    have hprint : print (.unary () .neg (.int () n)) = '-' :: (toString n).toList := by
      simp [print, glyphs, Kind.text]
    rw [hprint, List.cons_append, lexemes_mark .minus (by simp),
      lexemes_toString n hrest.endsNumber]
    rfl
  | @unary op symbol operand hform hnone hoperand ih =>
    intro rest hrest
    rw [print_unary hnone hform, code_unary operand hnone, List.append_assoc, List.cons_append,
      ← ih hrest]
    cases op with
    | neg =>
      cases hform
      change lexemes ('-' :: (print operand ++ rest)) = _
      exact lexemes_mark .minus (by simp) _
    | not =>
      cases hform
      change lexemes ('!' :: (print operand ++ rest)) = _
      refine lexemes_bang fun d hd => ?_
      obtain ⟨c, hc, hne⟩ := hoperand.startsPlain.append rest
      rw [hc] at hd
      cases hd
      exact hne
    | bitNot => cases hform
  | @binary op symbol lhs rhs hform _ _ ihl ihr =>
    intro rest hrest
    have hclose : Delimited (')' :: rest) := .mark (by simp)
    have hblank (cs : List Char) : Delimited ((" " ++ symbol ++ " ").toList ++ cs) := by
      simpa using Delimited.mark (c := ' ') (by simp)
    rw [print_binary hform, code_binary]
    simp only [List.cons_append, List.append_assoc, List.nil_append]
    rw [lexemes_mark .lparen (by simp), ihl (hblank _), lexemes_operator hform, ihr hclose,
      lexemes_mark .rparen (by simp)]
  | @attr object name hname _ _ ih =>
    intro rest hrest
    have hdot : Delimited ('.' :: (name.toList ++ rest)) := by
      cases hlist : name.toList with
      | nil => exact (hlist ▸ hname.1 : Scan.IsWord []).elim
      | cons c cs => exact .dot (hlist ▸ hname.1 : Scan.IsWord (c :: cs)).1
    rw [print_attr, code_attr, List.append_assoc, List.cons_append, ih hdot,
      lexemes_mark .dot (by simp), lexemes_name hname.1 hrest.endsWord]
    simp
  | @call name args hname _ _ ih =>
    intro rest hrest
    have hclose : Delimited (')' :: rest) := .mark (by simp)
    rw [print_callOf, code_callOf]
    simp only [List.cons_append, List.append_assoc, List.nil_append]
    rw [lexemes_name hname.1 (by simp; decide), lexemes_mark .lparen (by simp),
      lexemes_printItems ih hclose, lexemes_mark .rparen (by simp)]
  | @array elements _ ih =>
    intro rest hrest
    have hclose : Delimited (']' :: rest) := .mark (by simp)
    rw [print_array, code_array]
    simp only [List.cons_append, List.append_assoc, List.nil_append]
    rw [lexemes_mark .lbracket (by simp),
      lexemes_printItems ih hclose, lexemes_mark .rbracket (by simp)]

end SchemaExpr.Target
