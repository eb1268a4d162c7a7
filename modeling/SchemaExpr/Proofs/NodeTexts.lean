import SchemaExpr.Proofs.Subphrases
import SchemaExpr.Proofs.WellFormedSpans

/-!
# The text of a node

The tokens of a node stand together in the source, so the span of the node covers a piece of the
source that has just these tokens. Read on its own, the piece is the node again; in parentheses, it
leaves the tree around it as it is.
-/
namespace SchemaExpr

open String (utf8Len)

/-- The span of the tokens that fill a text is the place of the text. -/
theorem Fills.extent_eq {before text rest : List Char} {ts : List Token}
    (h : Fills before text rest ts) (hts : ts ≠ [])
    (hhead : ∀ c ∈ text.head?, isLayout c = false) : extent ts = Span.placed before text := by
  have hstop : (extent ts).stop = utf8Len (before ++ text) := by
    obtain ⟨us, last, rfl⟩ := List.eq_nil_or_concat ts |>.resolve_left hts
    rw [List.concat_eq_append] at h ⊢
    rw [extent_concat, h.stop_eq]
  cases ts with
  | nil => contradiction
  | cons t ts =>
    obtain ⟨hstart, hpos⟩ := h.start_eq hhead
    rw [Span.placed, ← hstop, ← hstart, ← hpos]
    rfl

/-- The source is cut around the tokens `ts`: `left` and `right` have the tokens before and after
them, and `gap` and `tail` are layout. -/
structure Cut (source : String) (us ts vs : List Token) (left gap inner right tail : List Char) :
    Prop where
  source_eq : source.toList = left ++ (gap ++ (inner ++ (right ++ tail)))
  gap_layout : ∀ c ∈ gap, isLayout c = true
  tail_layout : ∀ c ∈ tail, isLayout c = true
  head_inner : ∀ c ∈ inner.head?, isLayout c = false
  before : Fills [] left (gap ++ (inner ++ (right ++ tail))) us
  here : Fills (left ++ gap) inner (right ++ tail) ts
  after : Fills (left ++ (gap ++ inner)) right tail vs

theorem exists_cut {source : String} {us ts vs : List Token}
    (htokens : (Lexer.ofText source.toList).tokens = us ++ (ts ++ vs)) (hts : ts ≠ []) :
    ∃ left gap inner right tail, Cut source us ts vs left gap inner right tail := by
  obtain ⟨text, tail, hsource, htail, hfills⟩ := tokenize_fills source
  rw [htokens] at hfills
  obtain ⟨left, text, rfl, hleft, hfills⟩ := hfills.split
  obtain ⟨middle, right, rfl, hmiddle, hright⟩ := hfills.split
  obtain ⟨gap, inner, rfl, hgap, hhead, hinner⟩ := hmiddle.trim hts
  refine ⟨left, gap, inner, right, tail, ?_, hgap, htail, hhead, ?_, ?_, ?_⟩
  · simpa using hsource
  · simpa using hleft
  · simpa using hinner
  · simpa using hright

def parenthesised (source : String) (s : Span) : String :=
  textBetween source 0 s.start ++ "(" ++ s.text source ++ ")" ++
    textBetween source s.stop source.utf8ByteSize

theorem toList_parenthesised {source : String} {before text rest : List Char}
    (h : source.toList = before ++ (text ++ rest)) :
    (parenthesised source (Span.placed before text)).toList =
      before ++ '(' :: (text ++ ')' :: rest) := by
  have hstart : textBetween source 0 (utf8Len before) = String.ofList before :=
    textBetween_zero_of_split h
  have hstop : textBetween source (utf8Len (before ++ text)) source.utf8ByteSize =
      String.ofList rest := textBetween_end_of_split (by simpa using h)
  rw [parenthesised, Span.text_placed h, Span.placed, hstart, hstop]
  simp

namespace Cut

variable {source : String} {us ts vs : List Token} {left gap inner right tail : List Char}
  {n : Expr Span} {depth : Nat}

theorem split_eq (h : Cut source us ts vs left gap inner right tail) :
    source.toList = (left ++ gap) ++ (inner ++ (right ++ tail)) := by
  rw [h.source_eq, List.append_assoc]

theorem loc_eq (h : Cut source us ts vs left gap inner right tail)
    (hderives : Grammar.Derives depth 0 ts n) : n.loc = Span.placed (left ++ gap) inner := by
  have hlaid := Grammar.Derives.laid depth hderives h.here.ordered
  rw [hlaid.loc_eq, h.here.extent_eq hlaid.ne_nil h.head_inner]

/-- The piece on its own is read as the node, from its start to its end. -/
theorem reads (h : Cut source us ts vs left gap inner right tail)
    (hderives : Grammar.Derives maxDepth 0 ts n) (hheight : n.height ≤ maxDepth) :
    ∃ m, parse (String.ofList inner) = ⟨some m, []⟩ ∧ m.bare = n.bare ∧
      m.loc = Span.placed [] inner := by
  obtain ⟨ts', hfills, hlexemes⟩ := h.here.move h.split_eq Scan.separated_nil (.inl rfl) []
  have htokens : (Lexer.ofText (String.ofList inner).toList).tokens = ts' := by
    rw [String.toList_ofList]
    exact Lexer.tokens_of_fills hfills (by simp) (Lexer.standsAfter_ofText inner)
      (by simp [Lexer.ofText])
  rcases parse_of_lexemes hderives hheight (htokens ▸ hlexemes.symm) with
    ⟨m, hparse, hbare⟩ | ⟨-, hdeep⟩
  · have herrors : (parse (String.ofList inner)).errors = [] := by rw [hparse]
    obtain ⟨m', hm', hsentence⟩ := Grammar.sentence_of_parse herrors
    obtain rfl : m = m' := by simpa [hparse] using hm'
    have hlaid := Grammar.Derives.laid maxDepth (htokens ▸ hsentence.1) hfills.ordered
    exact ⟨m, hparse, hbare, by rw [hlaid.loc_eq, hfills.extent_eq hlaid.ne_nil h.head_inner]⟩
  · exact absurd hdeep (Nat.lt_irrefl _)

/-- Parentheses around the piece leave all other lexemes as they are. -/
theorem lexemes_parenthesised (h : Cut source us ts vs left gap inner right tail)
    (hclosed : StringsClosed source (us ++ (ts ++ vs))) :
    ∃ opening closing : Token, opening.kind = .lparen ∧ closing.kind = .rparen ∧
      (us ++ opening :: (ts ++ closing :: vs)).map (·.toLexeme) =
        lexemes ((left ++ gap) ++ '(' :: (inner ++ ')' :: (right ++ tail))) := by
  have hopening : Scan.Separated (gap ++ '(' :: (inner ++ ')' :: (right ++ tail))) :=
    separated_layout h.gap_layout (Scan.separated_cons.mpr (by decide))
  have hclosing : Scan.Separated (')' :: (right ++ tail)) := Scan.separated_cons.mpr (by decide)
  obtain ⟨us', hus, hlus⟩ := h.before.move h.source_eq hopening
    (.inr fun t ht => hclosed t (by simp [ht])) []
  obtain ⟨ts', hts, hlts⟩ := h.here.move h.split_eq hclosing
    (.inr fun t ht => hclosed t (by simp [ht])) []
  have hlparen (rest : List Char) : lexemes ('(' :: rest) = ⟨.lparen, "("⟩ :: lexemes rest :=
    lexemes_single rfl fun d _ => by simp [Scan.pairs]
  have hrparen (rest : List Char) : lexemes (')' :: rest) = ⟨.rparen, ")"⟩ :: lexemes rest :=
    lexemes_single rfl fun d _ => by simp [Scan.pairs]
  have htail : lexemes tail = [] := by
    simpa using lexemes_gap h.tail_layout []
  refine ⟨⟨⟨.lparen, "("⟩, Span.origin⟩, ⟨⟨.rparen, ")"⟩, Span.origin⟩, rfl, rfl, ?_⟩
  rw [List.append_assoc, hus.lexemes_eq, hlus, lexemes_gap h.gap_layout, hlparen, hts.lexemes_eq,
    hlts, hrparen, h.after.lexemes_eq, htail, List.append_nil]
  simp

end Cut

namespace Grammar

open Expr

/-- Around any node of a phrase, parentheses are read as nothing, unless the phrase nests to the
limit already. -/
theorem parse_parenthesised {source : String} {e : Expr Span} {depth : Nat}
    (hclosed : StringsClosed source (Lexer.ofText source.toList).tokens)
    (hderives : Derives depth 0 (Lexer.ofText source.toList).tokens e)
    (hheight : e.height ≤ maxDepth) :
    e.Every fun n =>
      Overflows (parse (parenthesised source n.loc)).errors ∧ maxDepth ≤ depth ∨
        (parse (parenthesised source n.loc)).errors = [] ∧
          (parse (parenthesised source n.loc)).tree.map bare = some e.bare := by
  apply ((Derives.roomy depth).locate hderives).mono
  rintro n ⟨us, ts, vs, htokens, hmid, hwrap⟩
  obtain ⟨left, gap, inner, right, tail, hcut⟩ := exists_cut htokens hmid.ne_nil
  obtain ⟨opening, closing, hopen, hclose, hlexemes⟩ :=
    hcut.lexemes_parenthesised (htokens ▸ hclosed)
  obtain ⟨e', hderives', hbare⟩ := hwrap opening closing hopen hclose
  have hderives' : Derives (depth + 1) 0 (us ++ opening :: (ts ++ closing :: vs)) e' := hderives'
  have hheight' : e'.height ≤ maxDepth := by
    rwa [← height_bare, hbare, height_bare]
  rw [← toList_parenthesised hcut.split_eq, ← hcut.loc_eq hmid] at hlexemes
  rcases parse_of_lexemes hderives' hheight' hlexemes with ⟨e'', hparse, hbare'⟩ | ⟨hover, hdeep⟩
  · right
    rw [hparse]
    exact ⟨rfl, congrArg some (hbare'.trans hbare)⟩
  · exact .inl ⟨hover, Nat.le_of_lt_succ hdeep⟩

end Grammar

/-- The text that a node covers is read as that node, from its start to its end. -/
theorem node_text_reads_as_node {source : String} (h : (parse source).errors = []) :
    ∃ e, (parse source).tree = some e ∧ e.Every fun n =>
      ∃ m, parse (n.loc.text source) = ⟨some m, []⟩ ∧ m.bare = n.bare ∧
        m.loc = ⟨0, (n.loc.text source).utf8ByteSize, Position.start⟩ := by
  obtain ⟨e, htree, hderives, hheight⟩ := Grammar.sentence_of_parse h
  refine ⟨e, htree, ?_⟩
  apply (((Grammar.Derives.roomy maxDepth).locate hderives).and e.every_height_le).mono
  rintro n ⟨⟨us, ts, vs, htokens, hmid, -⟩, hnode⟩
  obtain ⟨left, gap, inner, right, tail, hcut⟩ := exists_cut htokens hmid.ne_nil
  obtain ⟨m, hparse, hbare, hloc⟩ := hcut.reads hmid (Nat.le_trans hnode hheight)
  have htext : n.loc.text source = String.ofList inner := by
    rw [hcut.loc_eq hmid]
    exact Span.text_placed hcut.split_eq
  have hsize : (n.loc.text source).utf8ByteSize = utf8Len inner := by
    rw [htext, ← String.utf8Len_toList, String.toList_ofList]
  rw [hsize, htext]
  exact ⟨m, hparse, hbare, hloc⟩

theorem node_text_reads_as_node_nested : ∃ source, (parse source).errors = [] ∧
    ∃ e, (parse source).tree = some e ∧ e.Every fun n =>
      ∃ m, parse (n.loc.text source) = ⟨some m, []⟩ ∧ m.bare = n.bare ∧
        m.loc = ⟨0, (n.loc.text source).utf8ByteSize, Position.start⟩ :=
  ⟨"(-f(x[1], \"é\"))\n.as<T>() ? sizeof( (u)) : [a.b + 2, ]", by decide +kernel,
    node_text_reads_as_node (by decide +kernel)⟩

/-- Parentheses around a node leave the shape of the tree as it is, or the expression is reported to
be nested too deeply, which takes a source that nests to the limit already. -/
theorem parentheses_are_transparent {source : String} (h : (parse source).errors = [])
    (hlast : ∀ t ∈ (tokenize source).dropLast.getLast?, t.kind = .string →
      Scan.isTerminated (t.span.text source).toList = true) :
    ∃ e, (parse source).tree = some e ∧ e.Every fun n =>
      ((∃ error ∈ (parse (parenthesised source n.loc)).errors,
          error.message = "expression nested too deeply") ∧
        ¬ Grammar.Derives (maxDepth - 1) 0 (tokenize source).dropLast e) ∨
      (parse (parenthesised source n.loc)).errors = [] ∧
        (parse (parenthesised source n.loc)).tree.map Expr.bare = some e.bare := by
  obtain ⟨e, htree, hderives, hheight⟩ := Grammar.sentence_of_parse h
  rw [dropLast_tokenize] at hlast ⊢
  obtain ⟨text, tail, hsource, -, hfills⟩ := tokenize_fills source
  have hclosed := hfills.stringsClosed hsource fun _ => hlast
  refine ⟨e, htree, ?_⟩
  by_cases hshallow : Grammar.Derives (maxDepth - 1) 0 (Lexer.ofText source.toList).tokens e
  · apply (Grammar.parse_parenthesised hclosed hshallow hheight).mono
    rintro n (⟨-, hdeep⟩ | hread)
    · exact absurd hdeep (by decide)
    · exact .inr hread
  · apply (Grammar.parse_parenthesised hclosed hderives hheight).mono
    rintro n (⟨⟨error, hmem, hfault⟩, -⟩ | hread)
    · exact .inl ⟨⟨error, hmem, by rw [SyntaxError.message, hfault]; rfl⟩, hshallow⟩
    · exact .inr hread

theorem parentheses_are_transparent_string : ∃ source, (parse source).errors = [] ∧
    (∀ t ∈ (tokenize source).dropLast.getLast?, t.kind = .string →
      Scan.isTerminated (t.span.text source).toList = true) ∧
    ∃ e, (parse source).tree = some e ∧ e.Every fun n =>
      ((∃ error ∈ (parse (parenthesised source n.loc)).errors,
          error.message = "expression nested too deeply") ∧
        ¬ Grammar.Derives (maxDepth - 1) 0 (tokenize source).dropLast e) ∨
      (parse (parenthesised source n.loc)).errors = [] ∧
        (parse (parenthesised source n.loc)).tree.map Expr.bare = some e.bare :=
  ⟨"a.b(-1 - x, [ ]) .as<T>()[y ? 2 : z] * 3 + 'é\\''", by decide +kernel, by decide +kernel,
    parentheses_are_transparent (by decide +kernel) (by decide +kernel)⟩

end SchemaExpr
