import SchemaExpr.Proofs.StringTokens
import SchemaExpr.Proofs.TargetMeaning

/-!
# The tokens of a target text

A target text is made of words, numbers, strings, native operators and brackets, and of nothing else
that the source language has. Its brackets nest, since whatever stands between two brackets is a
list of whole trees. Its strings are closed: a parenthesis put behind the text is a token of its
own, and an open string at the end would take it in.
-/
namespace SchemaExpr

namespace Kind

def bracketPairs : List (Kind × Kind) := [(lparen, rparen), (lbracket, rbracket)]

def isBracket (k : Kind) : Bool := bracketPairs.any fun pair => k == pair.1 || k == pair.2

/-- Every opening bracket is closed by one of its own shape after it, every closing one has been
opened, and what stands between the two is balanced itself. -/
inductive Balanced : List Kind → Prop
  | nil : Balanced []
  | other {k ks} : k.isBracket = false → Balanced ks → Balanced (k :: ks)
  | group {opening closing inner ks} : (opening, closing) ∈ bracketPairs → Balanced inner →
      Balanced ks → Balanced (opening :: (inner ++ closing :: ks))

theorem Balanced.append {ks ls : List Kind} (hks : Balanced ks) (hls : Balanced ls) :
    Balanced (ks ++ ls) := by
  induction hks with
  | nil => exact hls
  | other hk _ ih => exact .other hk ih
  | group hpair hinner _ _ ih =>
    rw [List.cons_append, List.append_assoc, List.cons_append]
    exact .group hpair hinner ih

end Kind

namespace Target

/-- Kinds of tokens that no target text has: what no pattern accepts, the operators that are
functions of the host engine, and the operators that are words. -/
def foreignKinds : List Kind :=
  [.illegal, .slash, .percent, .amp, .pipe, .caret, .tilde, .shl, .shr, .question, .colon,
    .sizeof, .alignof, .asCast]

/-- Lexemes that may stand in a target text, with balanced brackets. -/
structure Clean (ls : List Lexeme) : Prop where
  kinds : ∀ l ∈ ls, l.kind ∉ foreignKinds
  balanced : Kind.Balanced (ls.map (·.kind))

/-- A kind that may stand anywhere among the lexemes of a target text. -/
def isPlain (k : Kind) : Bool := !foreignKinds.contains k && !k.isBracket

namespace Clean

variable {ls ms : List Lexeme} {l : Lexeme}

theorem nil : Clean [] := ⟨by simp, .nil⟩

theorem cons (hplain : isPlain l.kind = true) (h : Clean ls) : Clean (l :: ls) := by
  obtain ⟨hforeign, hbracket⟩ : l.kind ∉ foreignKinds ∧ l.kind.isBracket = false := by
    simpa [isPlain] using hplain
  exact ⟨List.forall_mem_cons.mpr ⟨hforeign, h.kinds⟩, .other hbracket h.balanced⟩

theorem one (hplain : isPlain l.kind = true) : Clean [l] := nil.cons hplain

theorem append (hls : Clean ls) (hms : Clean ms) : Clean (ls ++ ms) where
  kinds := List.forall_mem_append.mpr ⟨hls.kinds, hms.kinds⟩
  balanced := by
    rw [List.map_append]
    exact hls.balanced.append hms.balanced

theorem enclose {opening closing : Kind} (hpair : (opening, closing) ∈ Kind.bracketPairs)
    (h : Clean ls) : Clean (.symbol opening :: (ls ++ [.symbol closing])) where
  kinds := by
    have hnative : ∀ pair ∈ Kind.bracketPairs,
        pair.1 ∉ foreignKinds ∧ pair.2 ∉ foreignKinds := by decide
    obtain ⟨hopening, hclosing⟩ := hnative _ hpair
    simp only [List.forall_mem_cons, List.forall_mem_append]
    exact ⟨hopening, h.kinds, hclosing, by simp⟩
  balanced := by
    rw [List.map_cons, List.map_append]
    exact .group hpair h.balanced .nil

end Clean

theorem isPlain_word {name : String} (h : IsMember name) :
    isPlain (Lexeme.word name).kind = true := by
  rcases h.2 with hkind | hkind
  · rw [Lexeme.word, hkind]
    rfl
  · obtain ⟨special, hspecial⟩ := Kind.exists_special hkind
    rw [Lexeme.word, hspecial]
    cases special <;> rfl

theorem clean_codeMore {ts : List (Expr Unit)} (h : ∀ t ∈ ts, Clean (code t)) :
    Clean (codeMore ts) := by
  induction ts with
  | nil => exact .nil
  | cons t ts ih =>
    obtain ⟨ht, hts⟩ := List.forall_mem_cons.mp h
    rw [codeMore_cons]
    exact .cons rfl (ht.append (ih hts))

theorem clean_codeItems {ts : List (Expr Unit)} (h : ∀ t ∈ ts, Clean (code t)) :
    Clean (codeItems ts) := by
  cases ts with
  | nil => exact .nil
  | cons t ts =>
    obtain ⟨ht, hts⟩ := List.forall_mem_cons.mp h
    rw [codeItems_cons]
    exact ht.append (clean_codeMore hts)

theorem Form.clean {strict : Prop} {t : Expr Unit} (h : Form strict t) : Clean (code t) := by
  induction h with
  | @bool value => cases value <;> exact .one (by decide)
  | int =>
    rw [code, glyphs]
    split
    · exact .one rfl
    · exact .cons rfl (.one (by decide))
  | float => exact .one rfl
  | text => exact .one rfl
  | null => exact .one (by decide)
  | ident hname => exact .one (isPlain_word hname.isMember)
  | @special name => cases name <;> exact .one (by decide)
  | negated => exact .cons rfl (.one rfl)
  | @unary op symbol operand hform hnone _ ih =>
    have hsign : isPlain (Grammar.signKind op) = true := by cases op <;> first | rfl | cases hform
    rw [code_unary operand hnone]
    exact .cons hsign ih
  | @binary op symbol lhs rhs hform _ _ ihl ihr =>
    have hoperator : isPlain (operatorKind op) = true := by cases op <;> first | rfl | cases hform
    have hinner := ihl.append (.cons (l := .symbol (operatorKind op)) hoperator ihr)
    rw [code_binary]
    have hwhole : Clean (.symbol .lparen :: (_ ++ [.symbol .rparen])) := hinner.enclose (by decide)
    simpa using hwhole
  | @attr object name hname _ _ ih =>
    rw [code_attr]
    exact ih.append (.cons rfl (.one (isPlain_word hname)))
  | @call name args hname _ _ ih =>
    rw [code_callOf]
    exact .cons (isPlain_word hname) (.enclose (by decide) (clean_codeItems ih))
  | @array elements _ ih =>
    rw [code_array]
    exact .enclose (by decide) (clean_codeItems ih)

/-- No string of a target text is open: only the last token could be an open string, and it would
go on with a parenthesis that is put behind the text. -/
theorem Form.isTerminated {strict : Prop} {t : Expr Unit} (h : Form strict t) {u : Token}
    (hu : u ∈ tokenize (String.ofList (print t))) (hkind : u.kind = .string) :
    Scan.isTerminated (u.span.text (String.ofList (print t))).toList = true := by
  obtain ⟨text, tail, hsource, -, hfills⟩ := tokenize_fills (String.ofList (print t))
  have hclosed : StringsClosed (String.ofList (print t))
      (Lexer.ofText (String.ofList (print t)).toList).tokens := by
    refine hfills.stringsClosed hsource fun _ last hlast hkind => ?_
    by_contra hopen
    obtain ⟨ts, hts⟩ := List.getLast?_eq_some_iff.mp hlast
    obtain ⟨l, hl, hlexemes⟩ := lexemes_of_open_string (c := ')') hts hkind (by simpa using hopen)
      (by decide)
    have hlexed : lexemes (print t ++ [')']) = _ := h.lexed (.mark (by simp))
    rw [String.toList_ofList, hlexed, lexemes_mark .rparen (by simp), lexemes_nil] at hlexemes
    obtain ⟨-, hsymbol⟩ := List.append_inj' hlexemes rfl
    cases hsymbol
    cases hl
  rcases mem_tokenize.mp hu with hmem | rfl
  · exact hclosed u hmem hkind
  · cases hkind

/-- The kinds, the strings and the brackets of the tokens of a target text. -/
structure CleanTokens (target : String) : Prop where
  kinds : ∀ t ∈ tokenize target, t.kind ∉ foreignKinds
  strings : ∀ t ∈ tokenize target, t.kind = .string → ∃ quote ∈ ['"', '\''],
    (t.span.text target).toList ∈ (Pattern.closedString quote).language
  brackets : Kind.Balanced ((tokenize target).map (·.kind))

/-- No target text has a token that is foreign to the host engine or a string without its closing
quote, and the brackets among its tokens are balanced. -/
theorem target_tokens_are_clean {source target : String}
    (h : compileToTarget source = .ok target) : CleanTokens target := by
  obtain ⟨e, hread⟩ := exists_readExpr_of_compileToTarget h
  obtain ⟨hlowerable, rfl⟩ := compileToTarget_eq_ok hread h
  have hform : Form False (lowered e) := hlowerable.form ⟨spellable_of_readExpr hread, False.elim⟩
  have hclean : Clean (code (lowered e) ++ [Lexeme.eof]) := hform.clean.append (.one rfl)
  rw [← map_toLexeme_tokenize_print hform] at hclean
  refine ⟨fun t ht => hclean.kinds _ (List.mem_map_of_mem ht), fun t ht hkind => ?_, ?_⟩
  · exact mem_closedString_of_isTerminated ht hkind (hform.isTerminated ht hkind)
  · have hbalanced := hclean.balanced
    rwa [List.map_map] at hbalanced

/-- The last string of the source is open, with a bracket of each shape in it. -/
theorem target_tokens_are_clean_open_string : ∃ target,
    compileToTarget "[a ? b[1] : 'it\\'s)', ~c % sizeof(d.e)] + \"([" = .ok target ∧
      CleanTokens target := by
  obtain ⟨-, -, htarget, -⟩ := exists_tree_of_compile
    "[a ? b[1] : 'it\\'s)', ~c % sizeof(d.e)] + \"(["
    "([ternary(a, at(b, 1), \"it's)\"), mod(bitNot(c), sizeof_type(\"d.e\"))] + \"([\")"
    (fun _ => true) (by decide +kernel) (by decide +kernel)
  exact ⟨_, htarget, target_tokens_are_clean htarget⟩

end Target

end SchemaExpr
