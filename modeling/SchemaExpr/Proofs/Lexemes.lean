import SchemaExpr.Token.Lexer

/-!
# The lexemes of a text

Which lexemes a text has does not depend on where it stands, so they can be read off from the front:
layout is skipped, and a text that the scanner takes as a whole is one lexeme. What is taken depends
on the character after it only as far as that character could still belong to it.
-/
namespace SchemaExpr

/-- The lexemes of a text, without their places. -/
def lexemes (cs : List Char) : List Lexeme := (Lexer.ofText cs).tokens.map (·.toLexeme)

namespace Lexer

theorem rest_skipLayout (l : Lexer) : l.skipLayout.rest = l.rest.dropWhile isLayout := by
  simp only [skipLayout, skip]
  induction l.rest with
  | nil => rfl
  | cons c cs ih =>
    cases h : isLayout c
    · simp [h]
    · simpa [h] using ih

/-- The lexeme that is read next and what is left of the text, by the text alone. -/
theorem next?_map_rest (l : Lexer) :
    l.next?.map (fun p => (p.1.toLexeme, p.2.rest)) =
      match l.rest.dropWhile isLayout with
      | [] => none
      | c :: cs => some (⟨(Scan.first c cs).1, literal (Scan.first c cs).1 (Scan.first c cs).2⟩,
          (c :: cs).drop (Scan.first c cs).2.length) := by
  unfold next?
  rw [rest_skipLayout]
  cases h : l.rest.dropWhile isLayout with
  | nil => rfl
  | cons c cs => simp [skip, rest_skipLayout, h]

theorem tokens_eq (l : Lexer) :
    l.tokens = match l.next? with
      | none => []
      | some (t, l') => t :: l'.tokens := by
  rw [tokens]
  split <;> simp_all

theorem map_toLexeme_tokens_congr {l l' : Lexer} (h : l.rest = l'.rest) :
    l.tokens.map (·.toLexeme) = l'.tokens.map (·.toLexeme) := by
  have hnext : l.next?.map (fun p => (p.1.toLexeme, p.2.rest)) =
      l'.next?.map (fun p => (p.1.toLexeme, p.2.rest)) := by
    rw [next?_map_rest, next?_map_rest, h]
  rw [tokens_eq l, tokens_eq l']
  cases hl : l.next? with
  | none =>
    simp only [hl, Option.map_none] at hnext
    rw [Option.map_eq_none_iff.mp hnext.symm]
  | some p =>
    obtain ⟨t, m⟩ := p
    simp only [hl, Option.map_some] at hnext
    obtain ⟨⟨t', m'⟩, hl', heq⟩ := Option.map_eq_some_iff.mp hnext.symm
    simp only [Prod.mk.injEq] at heq
    have hlt := next?_length_lt hl
    have ih := map_toLexeme_tokens_congr heq.2.symm
    simp [hl', heq.1, ih]
termination_by l.rest.length

theorem map_toLexeme_tokens (l : Lexer) : l.tokens.map (·.toLexeme) = lexemes l.rest :=
  map_toLexeme_tokens_congr rfl

end Lexer

theorem lexemes_eq (cs : List Char) :
    lexemes cs = match cs.dropWhile isLayout with
      | [] => []
      | c :: cs =>
        ⟨(Scan.first c cs).1, Lexer.literal (Scan.first c cs).1 (Scan.first c cs).2⟩ ::
          lexemes ((c :: cs).drop (Scan.first c cs).2.length) := by
  have hnext := Lexer.next?_map_rest (Lexer.ofText cs)
  rw [lexemes, Lexer.tokens_eq]
  simp only [Lexer.ofText] at hnext ⊢
  cases hrest : cs.dropWhile isLayout with
  | nil =>
    rw [hrest] at hnext
    rw [Option.map_eq_none_iff.mp hnext]
    rfl
  | cons c cs =>
    rw [hrest] at hnext
    obtain ⟨⟨t, l⟩, hl, heq⟩ := Option.map_eq_some_iff.mp hnext
    simp only [Prod.mk.injEq] at heq
    simp [hl, heq.1, Lexer.map_toLexeme_tokens, heq.2]

@[simp] theorem lexemes_nil : lexemes [] = [] := by simp [lexemes_eq]

theorem lexemes_layout {c : Char} (hc : isLayout c = true) (cs : List Char) :
    lexemes (c :: cs) = lexemes cs := by
  rw [lexemes_eq, lexemes_eq cs, List.dropWhile_cons_of_pos hc]

/-- A text that the scanner takes as a whole is the first lexeme. -/
theorem lexemes_append {c : Char} {cs rest : List Char} {kind : Kind} (hc : isLayout c = false)
    (hfirst : Scan.first c (cs ++ rest) = (kind, c :: cs)) :
    lexemes (c :: cs ++ rest) = ⟨kind, Lexer.literal kind (c :: cs)⟩ :: lexemes rest := by
  rw [lexemes_eq, List.cons_append, List.dropWhile_cons_of_neg (by simp [hc])]
  simp [hfirst]

theorem mem_of_lookup {α β : Type} [BEq α] [LawfulBEq α] {table : List (α × β)} {a : α} {b : β}
    (h : table.lookup a = some b) : (a, b) ∈ table := by
  obtain ⟨before, after, rfl, -⟩ := List.lookup_eq_some_iff.mp h
  simp

namespace Scan

def IsWord : List Char → Prop
  | [] => False
  | c :: cs => isWordStart c = true ∧ ∀ d ∈ cs, isWordChar d = true

instance : (cs : List Char) → Decidable (IsWord cs)
  | [] => instDecidableFalse
  | c :: cs => decidable_of_iff (isWordStart c = true ∧ cs.all isWordChar = true) (by simp [IsWord])

theorem wordKind_ne {kind : Kind} (hident : kind ≠ .ident) (hkeywords : ∀ p ∈ keywords, p.2 ≠ kind)
    (word : List Char) : wordKind word ≠ kind := by
  unfold wordKind
  cases h : keywords.lookup (String.ofList word) with
  | none => exact hident.symm
  | some k => exact hkeywords _ (mem_of_lookup h)

theorem wordKind_ne_string (word : List Char) : wordKind word ≠ .string :=
  wordKind_ne (by decide) (by decide) word

theorem isWordStart_class {c : Char} (h : isWordStart c = true) :
    c.isDigit = false ∧ c ≠ '"' ∧ c ≠ '\'' ∧ isLayout c = false := by
  refine ⟨?_, ?_, ?_, ?_⟩
  · have h : c.isAlpha = true ∨ c = '_' := by simpa [isWordStart] using h
    rcases h with h | rfl
    · have hletter : (decide ('A'.val ≤ c.val ∧ c.val ≤ 'Z'.val) ||
          (decide ('a'.val ≤ c.val) && decide (c.val ≤ 'z'.val))) = true := h
      change (decide ('0'.val ≤ c.val) && decide (c.val ≤ '9'.val)) = false
      grind
    · rfl
  · rintro rfl
    contradiction
  · rintro rfl
    contradiction
  · refine Bool.eq_false_iff.mpr fun hlayout => ?_
    simp only [isLayout, Bool.or_eq_true, beq_iff_eq] at hlayout
    rcases hlayout with ((rfl | rfl) | rfl) | rfl <;> contradiction

theorem takeWhile_append_stop {p : Char → Bool} {cs rest : List Char} (hcs : ∀ c ∈ cs, p c = true)
    (hrest : ∀ c ∈ rest.head?, p c = false) : (cs ++ rest).takeWhile p = cs := by
  rw [List.takeWhile_append_of_pos hcs]
  cases rest with
  | nil => simp
  | cons c rest => simp [hrest c rfl]

/-- A word is taken up to the first character that cannot belong to it. -/
theorem first_word {c : Char} {cs rest : List Char} (hword : IsWord (c :: cs))
    (hrest : ∀ d ∈ rest.head?, isWordChar d = false) :
    first c (cs ++ rest) = (wordKind (c :: cs), c :: cs) := by
  obtain ⟨hdigit, hdouble, hsingle, -⟩ := isWordStart_class hword.1
  have htake := takeWhile_append_stop hword.2 hrest
  simp [first, hdigit, hdouble, hsingle, hword.1, htake]

theorem singles_class : ∀ p ∈ singles, p.1.isDigit = false ∧ p.1 ≠ '"' ∧ p.1 ≠ '\'' ∧
    isWordStart p.1 = false ∧ isLayout p.1 = false ∧ p.2 ≠ .string := by decide

theorem pairs_class : ∀ p ∈ pairs, p.1.1.isDigit = false ∧ p.1.1 ≠ '"' ∧ p.1.1 ≠ '\'' ∧
    isWordStart p.1.1 = false ∧ isLayout p.1.1 = false ∧ p.2 ≠ .string := by decide

end Scan

theorem lexemes_word {name rest : List Char} (hword : Scan.IsWord name)
    (hrest : ∀ d ∈ rest.head?, Scan.isWordChar d = false) :
    lexemes (name ++ rest) = ⟨Scan.wordKind name, String.ofList name⟩ :: lexemes rest := by
  cases name with
  | nil => cases hword
  | cons c cs =>
    rw [lexemes_append (Scan.isWordStart_class hword.1).2.2.2 (Scan.first_word hword hrest)]
    simp [Lexer.literal, Scan.wordKind_ne_string]

/-- A symbol of one character, unless the next one makes it a symbol of two. -/
theorem lexemes_single {c : Char} {kind : Kind} {rest : List Char}
    (hsingle : Scan.singles.lookup c = some kind)
    (hrest : ∀ d ∈ rest.head?, Scan.pairs.lookup (c, d) = none) :
    lexemes (c :: rest) = ⟨kind, String.ofList [c]⟩ :: lexemes rest := by
  obtain ⟨hdigit, hdouble, hquote, hstart, hlayout, hstring⟩ :=
    Scan.singles_class _ (mem_of_lookup hsingle)
  have hfirst : Scan.first c ([] ++ rest) = (kind, [c]) := by
    cases rest with
    | nil => simp [Scan.first, Scan.symbol, hdigit, hdouble, hquote, hstart, hsingle]
    | cons d ds =>
      have hpair := hrest d rfl
      simp [Scan.first, Scan.symbol, hdigit, hdouble, hquote, hstart, hsingle, hpair,
        -List.lookup_eq_none_iff]
  have h := lexemes_append hlayout hfirst
  simpa [Lexer.literal, hstring] using h

theorem lexemes_pair {c d : Char} {kind : Kind} (hpair : Scan.pairs.lookup (c, d) = some kind)
    (rest : List Char) :
    lexemes (c :: d :: rest) = ⟨kind, String.ofList [c, d]⟩ :: lexemes rest := by
  obtain ⟨hdigit, hdouble, hquote, hstart, hlayout, hstring⟩ :=
    Scan.pairs_class _ (mem_of_lookup hpair)
  have hfirst : Scan.first c ([d] ++ rest) = (kind, [c, d]) := by
    simp_all [Scan.first, Scan.symbol]
  have h := lexemes_append hlayout hfirst
  simpa [Lexer.literal, hstring] using h

end SchemaExpr
