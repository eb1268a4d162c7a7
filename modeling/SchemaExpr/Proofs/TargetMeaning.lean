import SchemaExpr.Proofs.TargetText

/-!
# The meaning of a target text

The lexemes of a target tree in strict form are a phrase of the expression language, and its tree is
the target tree. A binary operator costs two levels of nesting, one for its parentheses and one for
its right operand, and every other node at most one. So the target text of a plain tree is read as
the target tree, unless it is too deep.
-/
namespace SchemaExpr.Target

open Grammar
open Expr (bare_withLoc bare_call bare_array height_bare height_le_heightList)

/-- Tokens that are written as `t` are read as `t` at `levels` levels below the outermost one. -/
def Reads (levels : Nat) (t : Expr Unit) : Prop :=
  ∀ ts : List Token, ts.map (·.toLexeme) = code t → ∃ e : Expr Span, e.bare = t ∧
    (Chain (Derives levels) ts e ∨ t.isSigned = true ∧ Phrase (Derives levels) operandFloor ts e)

theorem Reads.phrase {levels : Nat} {t : Expr Unit} (h : Reads levels t) {ts : List Token}
    (hts : ts.map (·.toLexeme) = code t) {k : Nat} (hk : k ≤ operandFloor) :
    ∃ e : Expr Span, e.bare = t ∧ Derives (levels + 1) k ts e := by
  obtain ⟨e, he, hchain | ⟨-, hphrase⟩⟩ := h ts hts
  · exact ⟨e, he, (Phrase.chain hchain).of_le hk (Nat.le_refl _)⟩
  · exact ⟨e, he, hphrase.of_le hk (Nat.le_refl _)⟩

theorem reads_leaf {levels : Nat} {t : Expr Unit} {l : Lexeme} (hcode : code t = [l])
    (hleaf : ∀ span, ∃ e, leaf? ⟨l, span⟩ = some e ∧ e.bare = t) : Reads levels t := by
  intro ts hts
  rw [hcode] at hts
  obtain ⟨token, rfl, rfl⟩ := List.map_eq_singleton_iff.mp hts
  obtain ⟨e, he, hbare⟩ := hleaf token.span
  exact ⟨e, hbare, .inl (.primary (.leaf he))⟩

theorem reads_word {levels : Nat} {t : Expr Unit} {name : String} {kind : Kind}
    (hcode : code t = [.word name]) (hkind : Scan.wordKind name.toList = kind)
    (hleaf : ∀ span, ∃ e, leaf? ⟨⟨kind, name⟩, span⟩ = some e ∧ e.bare = t) : Reads levels t := by
  refine reads_leaf hcode ?_
  rw [Lexeme.word, hkind]
  exact hleaf

theorem leaf_number {text : String} {value : Literal.Number} {t : Expr Unit}
    (hread : Literal.readNumber text.toList = .ok value)
    (hvalue : match value with
      | .int n => t = .int () n
      | .float x => t = .float () x) (span : Span) :
    ∃ e, leaf? ⟨.number text, span⟩ = some e ∧ e.bare = t := by
  cases value with
  | int n => exact ⟨.int span n, by simp [leaf?, Lexeme.number, hread], hvalue.symm⟩
  | float x => exact ⟨.float span x, by simp [leaf?, Lexeme.number, hread], hvalue.symm⟩

theorem items_of_codeMore {levels : Nat} {ts : List (Expr Unit)} (h : ∀ t ∈ ts, Reads levels t)
    {us : List Token} (hus : us.map (·.toLexeme) = codeMore ts) :
    us = [] ∧ ts = [] ∨ ∃ comma rest es, us = comma :: rest ∧ comma.kind = .comma ∧
      es.map Expr.bare = ts ∧ Items (Derives (levels + 1) 0) rest es := by
  induction ts generalizing us with
  | nil => exact .inl ⟨by simpa using hus, rfl⟩
  | cons t ts ih =>
    rw [codeMore_cons] at hus
    obtain ⟨comma, rest, rfl, hcomma, hrest⟩ := List.map_eq_cons_iff.mp hus
    obtain ⟨vs, ws, rfl, hvs, hws⟩ := List.map_eq_append_iff.mp hrest
    obtain ⟨e, he, hderives⟩ := (h t (by simp)).phrase hvs (Nat.zero_le _)
    refine .inr ⟨comma, vs ++ ws, ?_⟩
    rcases ih (fun u hu => h u (by simp [hu])) hws with
      ⟨rfl, rfl⟩ | ⟨comma', rest', es, rfl, hkind, hes, hitems⟩
    · exact ⟨[e], rfl, congrArg Lexeme.kind hcomma, by simp [he],
        by simpa using Items.last hderives⟩
    · exact ⟨e :: es, rfl, congrArg Lexeme.kind hcomma, by simp [he, hes],
        .cons hderives hkind hitems⟩

theorem items_of_codeItems {levels : Nat} {ts : List (Expr Unit)} (h : ∀ t ∈ ts, Reads levels t)
    {us : List Token} (hus : us.map (·.toLexeme) = codeItems ts) :
    ∃ es, es.map Expr.bare = ts ∧ Items (Derives (levels + 1) 0) us es := by
  cases ts with
  | nil =>
    obtain rfl : us = [] := by simpa using hus
    exact ⟨[], rfl, .nil⟩
  | cons t ts =>
    rw [codeItems_cons] at hus
    obtain ⟨vs, ws, rfl, hvs, hws⟩ := List.map_eq_append_iff.mp hus
    obtain ⟨e, he, hderives⟩ := (h t (by simp)).phrase hvs (Nat.zero_le _)
    rcases items_of_codeMore (fun u hu => h u (by simp [hu])) hws with
      ⟨rfl, rfl⟩ | ⟨comma, rest, es, rfl, hkind, hes, hitems⟩
    · exact ⟨[e], by simp [he], by simpa using Items.last hderives⟩
    · exact ⟨e :: es, by simp [he, hes], .cons hderives hkind hitems⟩

/-- The operators of the strata are written with the same tokens in the target text. -/
theorem mem_operators (op : BinaryOp) : (operatorKind op, op) ∈ operators op.tier := by
  cases op <;> decide

/-- A tree in strict form is read as itself, given two levels for each node on a path. -/
theorem Form.reads {t : Expr Unit} (h : Form True t) (levels : Nat)
    (hlevels : 2 * t.height ≤ levels) : Reads levels t := by
  induction h generalizing levels with
  | @bool value => cases value <;> exact reads_word rfl rfl fun span => ⟨_, rfl, rfl⟩
  | @int n hsize hrange =>
    exact reads_leaf (code_signed (hrange trivial)) (leaf_number (readNumber_toString hsize) rfl)
  | @float value hfinite hsign =>
    obtain ⟨d, htext, hread⟩ := Decimal.display_decimal hfinite hsign
    exact reads_leaf rfl (leaf_number (htext ▸ hread) rfl)
  | text => exact reads_leaf rfl fun span => ⟨_, rfl, rfl⟩
  | null => exact reads_word rfl rfl fun span => ⟨_, rfl, rfl⟩
  | ident hname => exact reads_word rfl hname.2 fun span => ⟨_, rfl, rfl⟩
  | @special name => cases name <;> exact reads_word rfl rfl fun span => ⟨_, rfl, rfl⟩
  | @negated n hn =>
    intro ts hts
    obtain ⟨l, rfl⟩ : ∃ l, levels = l + 1 := ⟨levels - 1, by simp [Expr.height] at hlevels; omega⟩
    obtain ⟨sign, number, rfl, hsign, hnumber⟩ : ∃ sign number, ts = [sign, number] ∧
        sign.toLexeme = .symbol .minus ∧ number.toLexeme = .number (toString n) := by
      obtain ⟨sign, rest, rfl, hsign, hrest⟩ := List.map_eq_cons_iff.mp hts
      obtain ⟨number, rfl, hnumber⟩ := List.map_eq_singleton_iff.mp hrest
      exact ⟨sign, number, rfl, hsign, hnumber⟩
    have hsize : n < UInt64.size := Nat.lt_of_le_of_lt hn (by decide)
    obtain ⟨e, he, hbare⟩ := leaf_number (readNumber_toString hsize) rfl number.span
    rw [← hnumber] at he
    refine ⟨.unary (sign.span.join e.loc) .neg e, ?_,
      .inr ⟨rfl, .unary (congrArg Lexeme.kind hsign) ?_⟩⟩
    · rw [Expr.bare, Expr.map, ← Expr.bare, hbare]
    · exact Phrase.chain (.primary (.leaf he))
  | @unary op symbol operand hform hnone _ ih =>
    intro ts hts
    rw [Expr.height] at hlevels
    obtain ⟨l, rfl⟩ : ∃ l, levels = l + 1 := ⟨levels - 1, by omega⟩
    rw [code_unary operand hnone] at hts
    obtain ⟨sign, rest, rfl, hsign, hrest⟩ := List.map_eq_cons_iff.mp hts
    obtain ⟨e, rfl, hderives⟩ := (ih l (by omega)).phrase hrest (Nat.le_refl operandFloor)
    have hsigned : (Expr.unary () op e.bare).isSigned = true := by cases op <;> cases hform <;> rfl
    exact ⟨.unary (sign.span.join e.loc) op e, rfl,
      .inr ⟨hsigned, .unary (congrArg Lexeme.kind hsign) hderives⟩⟩
  | @binary op symbol lhs rhs hform _ _ ihl ihr =>
    intro ts hts
    rw [Expr.height] at hlevels
    obtain ⟨l, rfl⟩ : ∃ l, levels = l + 2 := ⟨levels - 2, by omega⟩
    rw [code_binary] at hts
    obtain ⟨opening, rest, rfl, hopening, hrest⟩ := List.map_eq_cons_iff.mp hts
    obtain ⟨ls, rest, rfl, hls, hrest⟩ := List.map_eq_append_iff.mp hrest
    obtain ⟨operator, rest, rfl, hoperator, hrest⟩ := List.map_eq_cons_iff.mp hrest
    obtain ⟨rs, rest, rfl, hrs, hrest⟩ := List.map_eq_append_iff.mp hrest
    obtain ⟨closing, rfl, hclosing⟩ := List.map_eq_singleton_iff.mp hrest
    have htier : op.tier < operandFloor := by cases op <;> decide
    obtain ⟨el, rfl, hlhs⟩ := (ihl (l + 1) (by omega)).phrase hls (Nat.le_of_lt htier)
    obtain ⟨er, rfl, hrhs⟩ := (ihr l (by omega)).phrase hrs htier
    have hmem : (operator.kind, op) ∈ operators op.tier := by
      rw [show operator.kind = operatorKind op from congrArg Lexeme.kind hoperator]
      exact mem_operators op
    have hphrase : Derives (l + 2) 0 (ls ++ operator :: rs)
        (.binary (el.loc.join er.loc) op el er) :=
      (Phrase.binary hmem hlhs hrhs).of_le (Nat.zero_le _) (Nat.le_of_lt htier)
    have hgroup := Primary.group (congrArg Lexeme.kind hopening) hphrase
      (congrArg Lexeme.kind hclosing)
    refine ⟨_, ?_, .inl (.primary (by simpa using hgroup))⟩
    rw [bare_withLoc]
    rfl
  | @attr object name hname hsigned _ ih =>
    intro ts hts
    rw [Expr.height] at hlevels
    rw [code_attr] at hts
    obtain ⟨us, rest, rfl, hus, hrest⟩ := List.map_eq_append_iff.mp hts
    obtain ⟨dot, rest, rfl, hdot, hrest⟩ := List.map_eq_cons_iff.mp hrest
    obtain ⟨word, rfl, hword⟩ := List.map_eq_singleton_iff.mp hrest
    obtain ⟨e, rfl, hchain | ⟨hcontra, -⟩⟩ := ih levels (by omega) us hus
    · have hkind : word.kind = Scan.wordKind name.toList := congrArg Lexeme.kind hword
      have hliteral : word.literal = name := congrArg Lexeme.literal hword
      have hmember := Chain.member hchain (congrArg Lexeme.kind hdot) (hkind ▸ hname.2)
      rw [hliteral] at hmember
      exact ⟨_, rfl, .inl hmember⟩
    · rw [hsigned trivial] at hcontra
      cases hcontra
  | @call name args hmember hname _ ih =>
    intro ts hts
    rw [callOf, Expr.height] at hlevels
    obtain ⟨l, rfl⟩ : ∃ l, levels = l + 1 := ⟨levels - 1, by omega⟩
    rw [code_callOf] at hts
    obtain ⟨word, rest, rfl, hword, hrest⟩ := List.map_eq_cons_iff.mp hts
    obtain ⟨opening, rest, rfl, hopening, hrest⟩ := List.map_eq_cons_iff.mp hrest
    obtain ⟨us, rest, rfl, hus, hrest⟩ := List.map_eq_append_iff.mp hrest
    obtain ⟨closing, rfl, hclosing⟩ := List.map_eq_singleton_iff.mp hrest
    have hargs (x : Expr Unit) (hx : x ∈ args) : Reads l x := by
      have hheight := height_le_heightList hx
      exact ih x hx l (by omega)
    obtain ⟨es, rfl, hitems⟩ := items_of_codeItems hargs hus
    have hkind : word.kind = .ident := (congrArg Lexeme.kind hword).trans (hname trivial).2
    have hliteral : word.literal = name := congrArg Lexeme.literal hword
    have hleaf : leaf? word = some (.ident word.span name) := by
      rw [leaf?, hkind, hliteral]
    have hcall := Chain.call (.primary (.leaf hleaf)) rfl (congrArg Lexeme.kind hopening) hitems
      (congrArg Lexeme.kind hclosing)
    refine ⟨_, ?_, .inl (by simpa using hcall)⟩
    rw [bare_call]
    rfl
  | @array elements _ ih =>
    intro ts hts
    rw [Expr.height] at hlevels
    obtain ⟨l, rfl⟩ : ∃ l, levels = l + 1 := ⟨levels - 1, by omega⟩
    rw [code_array] at hts
    obtain ⟨opening, rest, rfl, hopening, hrest⟩ := List.map_eq_cons_iff.mp hts
    obtain ⟨us, rest, rfl, hus, hrest⟩ := List.map_eq_append_iff.mp hrest
    obtain ⟨closing, rfl, hclosing⟩ := List.map_eq_singleton_iff.mp hrest
    have helements (x : Expr Unit) (hx : x ∈ elements) : Reads l x := by
      have hheight := height_le_heightList hx
      exact ih x hx l (by omega)
    obtain ⟨es, rfl, hitems⟩ := items_of_codeItems helements hus
    exact ⟨_, bare_array _ es, .inl (.primary (.array (congrArg Lexeme.kind hopening) hitems
      (congrArg Lexeme.kind hclosing)))⟩

/-- The tokens of a target text are the lexemes of the target tree. -/
theorem map_toLexeme_tokens_print {strict : Prop} {t : Expr Unit} (h : Form strict t) :
    (Lexer.ofText (print t)).tokens.map (·.toLexeme) = code t := by
  have hlexed := h.lexed .nil
  rwa [List.append_nil, lexemes_nil, List.append_nil] at hlexed

theorem map_toLexeme_tokenize_print {strict : Prop} {t : Expr Unit} (h : Form strict t) :
    (tokenize (String.ofList (print t))).map (·.toLexeme) = code t ++ [Lexeme.eof] := by
  rw [tokenize, String.toList_ofList, List.map_append, map_toLexeme_tokens_print h]
  rfl

/-- The text of a target tree in strict form is read as the tree, unless it is too deep. -/
theorem Form.parse_print {t : Expr Unit} (h : Form True t) :
    (∃ e : Expr Span, parse (String.ofList (print t)) = ⟨some e, []⟩ ∧ e.bare = t) ∨
      Overflows (parse (String.ofList (print t))).errors ∧ maxDepth ≤ 2 * t.height := by
  obtain ⟨e, rfl, hderives⟩ := (h.reads (2 * t.height) (Nat.le_refl _)).phrase
    (map_toLexeme_tokens_print h) (Nat.zero_le _)
  rw [← String.toList_ofList (l := print e.bare)] at hderives
  rcases parse_of_derives hderives with hparse | ⟨hover, hexcess⟩
  · exact .inl ⟨e, hparse, rfl⟩
  · rw [height_bare] at *
    exact .inr ⟨hover, by omega⟩

/-- The target text of a plain tree is read as its target tree, or is reported to be nested too
deeply, which takes a tree that is half as tall as the limit. -/
theorem target_text_means_lowered_tree {source target : String} {e : Expr Span}
    (hread : readExpr source = .ok e) (htarget : compileToTarget source = .ok target)
    (hrange : e.InSignedRange) (hdots : ∀ x ∈ e.values, x.dotsSigned = false)
    (hcalls : ∀ x ∈ e.values, x.callsSpecial = false) :
    (∃ error ∈ (parse target).errors, error.message = "expression nested too deeply") ∧
        maxDepth ≤ 2 * (lowered e).height ∨
      (parse target).errors = [] ∧ (parse target).tree.map Expr.bare = some (lowered e) := by
  obtain ⟨hlowerable, rfl⟩ := compileToTarget_eq_ok hread htarget
  have hform : Form True (lowered e) :=
    hlowerable.form ⟨spellable_of_readExpr hread, fun _ => ⟨hrange, hdots, hcalls⟩⟩
  rcases hform.parse_print with ⟨e', hparse, hbare⟩ | ⟨⟨error, hmem, hfault⟩, hheight⟩
  · exact .inr ⟨by rw [hparse], by rw [hparse, ← hbare]; rfl⟩
  · exact .inl ⟨⟨error, hmem, by rw [SyntaxError.message, hfault]; rfl⟩, hheight⟩

theorem target_text_means_lowered_tree_nested : ∃ source target e, readExpr source = .ok e ∧
    compileToTarget source = .ok target ∧ e.InSignedRange ∧
    (∀ x ∈ e.values, x.dotsSigned = false) ∧ (∀ x ∈ e.values, x.callsSpecial = false) ∧
    ((∃ error ∈ (parse target).errors, error.message = "expression nested too deeply") ∧
        maxDepth ≤ 2 * (lowered e).height ∨
      (parse target).errors = [] ∧ (parse target).tree.map Expr.bare = some (lowered e)) := by
  obtain ⟨e, hread, htarget, he⟩ := exists_tree_of_compile
    "sizeof(a.b ? 1 : -x) + -9223372036854775808 * _io.read_u1(2.5e-7)[!y].size.self"
    "(sizeof_type(\"ternary(a.b, 1, -x)\") + (-9223372036854775808 * size(at(readU1(_io, 2.5e-7), !y)).self))"
    (fun e => decide e.InSignedRange && e.values.all fun x => !x.dotsSigned && !x.callsSpecial)
    (by decide +kernel) (by decide +kernel)
  simp only [Bool.and_eq_true, decide_eq_true_iff, List.all_eq_true, Bool.not_eq_true'] at he
  obtain ⟨hrange, hvalues⟩ := he
  have hdots := fun x hx => (hvalues x hx).1
  have hcalls := fun x hx => (hvalues x hx).2
  exact ⟨_, _, e, hread, htarget, hrange, hdots, hcalls,
    target_text_means_lowered_tree hread htarget hrange hdots hcalls⟩

end SchemaExpr.Target
