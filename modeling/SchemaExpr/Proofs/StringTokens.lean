import SchemaExpr.Proofs.GreedyScans
import SchemaExpr.Proofs.TokenPlaces
import SchemaExpr.Target.Emission

/-!
# String tokens and what they stand for

The scanner decides where a string ends before the decoder reads it, and they group its characters
differently: the scanner goes over a backslash with one character, the decoder over the escape of a
character by its number as a whole. `Content` says unit by unit what the characters between the
quotes stand for. The decoder reads a content up to the closing quote or to the end, and the scanner
stops at the same place, so a literal loses nothing. The literal that is written for a text is read
back as that text, whatever follows it.
-/
namespace SchemaExpr

namespace Literal

/-- The characters that mean something after a backslash. -/
def escapes : List (Char × Char) :=
  [('n', '\n'), ('t', '\t'), ('r', '\r'), ('\\', '\\'), ('"', '"'), ('\'', '\'')]

/-- Four hexadecimal digits that are the number of a character. -/
def NamesScalar (a b c d value : Char) : Prop :=
  ∃ i j k l, hexDigit? a = some i ∧ hexDigit? b = some j ∧ hexDigit? c = some k ∧
    hexDigit? d = some l ∧ value.toNat = 4096 * i + 256 * j + 16 * k + l

def StartsScalar (cs : List Char) : Prop :=
  ∃ a b c d value more, cs = a :: b :: c :: d :: more ∧ NamesScalar a b c d value

/-- The characters between the quotes of a string, unit by unit, with the text that they stand for.
The string goes on with `closing`: its closing quote, or nothing. -/
inductive Content (quote : Char) (closing : List Char) : (spelled text : List Char) → Prop
  | nil : Content quote closing [] []
  | plain {c cs text} : c ≠ quote → c ≠ '\\' → Content quote closing cs text →
      Content quote closing (c :: cs) (c :: text)
  | escape {c d cs text} : (c, d) ∈ escapes → Content quote closing cs text →
      Content quote closing ('\\' :: c :: cs) (d :: text)
  | scalar {a b c d value cs text} : NamesScalar a b c d value → Content quote closing cs text →
      Content quote closing ('\\' :: 'u' :: a :: b :: c :: d :: cs) (value :: text)
  /-- An escape without a meaning stands for itself. -/
  | kept {c cs text} : c ∉ escapes.map Prod.fst → (c = 'u' → ¬ StartsScalar cs) →
      Content quote closing cs text → Content quote closing ('\\' :: c :: cs) ('\\' :: c :: text)
  /-- A backslash that ends the source stands for itself. -/
  | trailing : closing = [] → Content quote closing ['\\'] ['\\']

theorem scalar?_eq_some_iff {a b c d value : Char} :
    scalar? a b c d = some value ↔ NamesScalar a b c d value := by
  simp only [scalar?, NamesScalar, Option.bind_eq_bind, Option.bind_eq_some_iff]
  constructor
  · rintro ⟨i, hi, j, hj, k, hk, l, hl, h⟩
    refine ⟨i, j, k, l, hi, hj, hk, hl, ?_⟩
    split at h
    · next hvalid =>
      have htoNat : ∀ n : Nat, n.isValidChar → (Char.ofNat n).toNat = n := by
        intro n hn
        rw [Char.ofNat, dif_pos hn]
        rfl
      cases h
      rw [htoNat _ hvalid]
      omega
    · cases h
  · rintro ⟨i, j, k, l, hi, hj, hk, hl, hvalue⟩
    refine ⟨i, hi, j, hj, k, hk, l, hl, ?_⟩
    have hnumber : (i * 16 + j) * 256 + k * 16 + l = value.toNat := by omega
    rw [hnumber, Char.ofNat_toNat]
    exact if_pos value.valid

def spelling (ps : List Piece) : List Char := ps.flatMap Piece.spelling

/-- An escape stands for what the table says, or for itself. -/
theorem Content.escaped {quote c : Char} {closing cs text : List Char}
    (h : Content quote closing cs text) (hscalar : c = 'u' → ¬ StartsScalar cs) :
    Content quote closing ('\\' :: c :: cs) ((Piece.escape c).decoded ++ text) := by
  by_cases hc : c ∈ escapes.map Prod.fst
  · obtain ⟨⟨c, d⟩, hmem, rfl⟩ := List.mem_map.mp hc
    have hdecoded : (Piece.escape c).decoded = [d] := by
      simp only [escapes, List.mem_cons, Prod.mk.injEq, List.not_mem_nil, or_false] at hmem
      rcases hmem with ⟨rfl, rfl⟩ | ⟨rfl, rfl⟩ | ⟨rfl, rfl⟩ | ⟨rfl, rfl⟩ | ⟨rfl, rfl⟩ |
          ⟨rfl, rfl⟩ <;>
        rfl
    rw [hdecoded]
    exact .escape hmem h
  · have hdecoded : (Piece.escape c).decoded = ['\\', c] := by
      simp only [escapes, List.map_cons, List.map_nil, List.mem_cons, List.not_mem_nil, or_false,
        not_or] at hc
      simp [Piece.decoded, hc]
    rw [hdecoded]
    exact .kept hc hscalar h

/-- The decoder reads a text as these pieces and stops before `closing`. -/
structure StopsAt (quote : Char) (cs : List Char) (ps : List Piece) (closing : List Char) :
    Prop where
  split : cs = spelling ps ++ closing
  stops : closing = [] ∨ closing.head? = some quote
  content : Content quote closing (spelling ps) (ps.flatMap Piece.decoded)

theorem StopsAt.escape {quote c : Char} {cs closing : List Char} {ps : List Piece}
    (h : StopsAt quote cs ps closing) (hscalar : c = 'u' → ¬ StartsScalar cs) :
    StopsAt quote ('\\' :: c :: cs) (.escape c :: ps) closing where
  split := congrArg ('\\' :: c :: ·) h.split
  stops := h.stops
  content := by
    refine h.content.escaped fun hu hstarts => hscalar hu ?_
    obtain ⟨a, b, c, d, value, more, hspelling, hnames⟩ := hstarts
    exact ⟨a, b, c, d, value, more ++ closing, by rw [h.split, hspelling]; rfl, hnames⟩

/-- The decoder reads units up to the closing quote or to the end of the text. -/
theorem exists_stopsAt (quote : Char) (cs : List Char) :
    ∃ closing, StopsAt quote cs (pieces quote cs) closing := by
  fun_induction pieces quote cs with
  | case1 => exact ⟨[], rfl, .inl rfl, .nil⟩
  | case2 => exact ⟨[], rfl, .inl rfl, .trailing rfl⟩
  | case3 a b c d cs value hvalue ih =>
    obtain ⟨closing, hsplit, hstops, hcontent⟩ := ih
    exact ⟨closing, congrArg ('\\' :: 'u' :: a :: b :: c :: d :: ·) hsplit, hstops,
      .scalar (scalar?_eq_some_iff.mp hvalue) hcontent⟩
  | case4 a b c d cs hvalue ih =>
    obtain ⟨closing, hstops⟩ := ih
    refine ⟨closing, hstops.escape ?_⟩
    rintro - ⟨a, b, c, d, value, more, hcs, hnames⟩
    cases hcs
    rw [scalar?_eq_some_iff.mpr hnames] at hvalue
    cases hvalue
  | case5 c cs hshort ih =>
    obtain ⟨closing, hstops⟩ := ih
    refine ⟨closing, hstops.escape ?_⟩
    rintro hu ⟨a, b, c, d, value, more, hcs, -⟩
    exact hshort a b c d more hu hcs
  | case6 cs => exact ⟨quote :: cs, rfl, .inr rfl, .nil⟩
  | case7 c cs hend _ hescape hquote ih =>
    obtain ⟨closing, hsplit, hstops, hcontent⟩ := ih
    exact ⟨closing, congrArg (c :: ·) hsplit, hstops,
      .plain hquote (Scan.ne_backslash hend hescape) hcontent⟩

theorem hexDigit_plain {c : Char} {n : Nat} (h : hexDigit? c = some n) :
    c ≠ '"' ∧ c ≠ '\'' ∧ c ≠ '\\' := by
  refine ⟨?_, ?_, ?_⟩ <;> rintro rfl <;> cases h

end Literal

namespace Pattern

def closedString (quote : Char) : Pattern := seq (char quote) (seq (units quote) (char quote))

section Units

variable {quote c : Char} {u v : List Char}

theorem plain_mem_units (hquote : c ≠ quote) (hslash : c ≠ '\\')
    (h : u ∈ (units quote).language) : c :: u ∈ (units quote).language :=
  Scan.mem_units.mpr (.inr (.inl ⟨c, u, rfl, hquote, hslash, h⟩))

theorem escape_mem_units (c : Char) (h : u ∈ (units quote).language) :
    '\\' :: c :: u ∈ (units quote).language :=
  Scan.mem_units.mpr (.inr (.inr ⟨c, u, rfl, h⟩))

@[elab_as_elim] theorem units_induction {motive : List Char → Prop} (nil : motive [])
    (plain : ∀ c u, c ≠ quote → c ≠ '\\' → motive u → motive (c :: u))
    (escape : ∀ c u, motive u → motive ('\\' :: c :: u)) {w : List Char}
    (h : w ∈ (units quote).language) : motive w := by
  rcases Scan.mem_units.mp h with rfl | ⟨c, u, rfl, hquote, hslash, hu⟩ | ⟨c, u, rfl, hu⟩
  · exact nil
  · exact plain c u hquote hslash (units_induction nil plain escape hu)
  · exact escape c u (units_induction nil plain escape hu)
termination_by w.length

theorem append_mem_units (hu : u ∈ (units quote).language) (hv : v ∈ (units quote).language) :
    u ++ v ∈ (units quote).language :=
  units_induction hv (fun _ _ hquote hslash ih => plain_mem_units hquote hslash ih)
    (fun c _ ih => escape_mem_units c ih) hu

end Units

theorem mem_closedString {quote : Char} {w : List Char} : w ∈ (closedString quote).language ↔
    ∃ u ∈ (units quote).language, w = quote :: (u ++ [quote]) := by
  simp only [closedString, mem_seq, mem_char]
  grind

end Pattern

namespace Scan

open Literal

variable {quote : Char} {u rest : List Char}

theorem stringTail_units (h : u ∈ (Pattern.units quote).language) :
    stringTail quote (u ++ rest) = u ++ stringTail quote rest := by
  refine Pattern.units_induction rfl (fun c u hquote hslash ih => ?_) (fun c u ih => ?_) h
  · rw [List.cons_append, stringTail_plain hquote hslash, ih]
    rfl
  · rw [List.cons_append, List.cons_append, stringTail_escape, ih]
    rfl

theorem closes_units (h : u ∈ (Pattern.units quote).language) :
    closes quote (u ++ rest) = closes quote rest := by
  refine Pattern.units_induction rfl (fun c u hquote hslash ih => ?_) (fun c u ih => ?_) h
  · simp [closes_plain hslash, hquote, ih]
  · simpa [closes] using ih

/-- Units of the pattern, with a backslash after them only where the source ends. -/
def UnitsBefore (quote : Char) (closing cs : List Char) : Prop :=
  cs ∈ (Pattern.units quote).language ∨
    closing = [] ∧ ∃ u ∈ (Pattern.units quote).language, cs = u ++ ['\\']

theorem UnitsBefore.append {closing cs : List Char} (h : UnitsBefore quote closing cs)
    (hu : u ∈ (Pattern.units quote).language) : UnitsBefore quote closing (u ++ cs) := by
  rcases h with h | ⟨hclosing, v, hv, rfl⟩
  · exact .inl (Pattern.append_mem_units hu h)
  · exact .inr ⟨hclosing, u ++ v, Pattern.append_mem_units hu hv, (List.append_assoc ..).symm⟩

/-- The content of a string is made of the units of its pattern. -/
theorem unitsBefore_of_content (hquote : quote = '"' ∨ quote = '\'') {closing cs text : List Char}
    (h : Content quote closing cs text) : UnitsBefore quote closing cs := by
  have hnil : [] ∈ (Pattern.units quote).language := Pattern.nil_mem_star
  induction h with
  | nil => exact .inl hnil
  | plain hc hslash _ ih => exact ih.append (Pattern.plain_mem_units hc hslash hnil)
  | escape _ _ ih => exact ih.append (Pattern.escape_mem_units _ hnil)
  | kept _ _ _ ih => exact ih.append (Pattern.escape_mem_units _ hnil)
  | scalar hnames _ ih =>
    obtain ⟨i, j, k, l, ha, hb, hc, hd, -⟩ := hnames
    have hplain {c : Char} {n : Nat} {u : List Char} (hc : hexDigit? c = some n)
        (hu : u ∈ (Pattern.units quote).language) : c :: u ∈ (Pattern.units quote).language := by
      obtain ⟨hdouble, hsingle, hslash⟩ := hexDigit_plain hc
      rcases hquote with rfl | rfl
      · exact Pattern.plain_mem_units hdouble hslash hu
      · exact Pattern.plain_mem_units hsingle hslash hu
    have hdigits := hplain ha (hplain hb (hplain hc (hplain hd hnil)))
    exact ih.append (Pattern.escape_mem_units 'u' hdigits)
  | trailing hclosing => exact .inr ⟨hclosing, [], hnil, rfl⟩

theorem closes_closed (hslash : quote ≠ '\\') (h : u ∈ (Pattern.units quote).language) :
    closes quote (u ++ [quote]) = true := by
  rw [closes_units h, closes_plain hslash]
  simp

theorem closes_open {cs : List Char} (h : UnitsBefore quote [] cs) : closes quote cs = false := by
  rcases h with h | ⟨-, u, hu, rfl⟩
  · simpa [closes] using @closes_units quote cs [] h
  · rw [closes_units hu]
    rfl

/-- An open string takes one more character, unless that is a quote or a backslash. -/
theorem stringTail_open {cs : List Char} {c : Char} (h : UnitsBefore quote [] cs) (hc : c ≠ quote)
    (hslash : c ≠ '\\') : stringTail quote (cs ++ [c]) = cs ++ [c] := by
  rcases h with h | ⟨-, u, hu, rfl⟩
  · rw [stringTail_units h, stringTail_plain hc hslash]
    rfl
  · rw [List.append_assoc, stringTail_units hu]
    rfl

/-- The text of a scanned string after its opening quote. The decoder reads it to the end, or up to
a closing quote that is its last character. -/
structure StringText (quote : Char) (cs closing : List Char) : Prop where
  style : quote = '"' ∨ quote = '\''
  stops : StopsAt quote cs (pieces quote cs) closing
  last : closing = [quote] ∨ closing = []

theorem ne_backslash_of_style (h : quote = '"' ∨ quote = '\'') : quote ≠ '\\' := by
  rcases h with rfl | rfl <;> decide

theorem stringText_of_stringTail (hquote : quote = '"' ∨ quote = '\'') {cs : List Char}
    (h : stringTail quote cs = cs) : ∃ closing, StringText quote cs closing := by
  obtain ⟨closing, hstops⟩ := exists_stopsAt quote cs
  refine ⟨closing, hquote, hstops, ?_⟩
  cases hclosing : closing with
  | nil => exact .inr rfl
  | cons c more =>
    obtain rfl : c = quote := by simpa [hclosing] using hstops.stops
    have hunits : spelling (pieces c cs) ∈ (Pattern.units c).language := by
      rcases unitsBefore_of_content hquote hstops.content with hunits | ⟨hnil, -⟩
      · exact hunits
      · simp [hclosing] at hnil
    rw [hstops.split, hclosing, stringTail_units hunits,
      stringTail_quote (ne_backslash_of_style hquote)] at h
    exact .inl (by simpa using h.symm)

theorem Takes.stringText {text rest : List Char} (h : Takes .string text rest) :
    ∃ quote cs closing, text = quote :: cs ∧ StringText quote cs closing := by
  obtain ⟨quote, cs, hquote, rfl, htail⟩ := h.string_eq
  have hcut := @stringTail_local quote (ne_backslash_of_style hquote) cs rest [] (by rw [htail])
    (.inl rfl)
  rw [List.append_nil, htail] at hcut
  obtain ⟨closing, hstring⟩ := stringText_of_stringTail hquote hcut
  exact ⟨quote, cs, closing, rfl, hstring⟩

namespace StringText

variable {cs closing : List Char}

theorem unitsBefore (h : StringText quote cs closing) :
    UnitsBefore quote closing (spelling (pieces quote cs)) :=
  unitsBefore_of_content h.style h.stops.content

/-- All of an open string is content. -/
theorem unitsBefore_nil (h : StringText quote cs []) : UnitsBefore quote [] cs := by
  have hcs := h.stops.split
  have hunits := h.unitsBefore
  rw [List.append_nil] at hcs
  rwa [← hcs] at hunits

theorem closing_iff_terminated (h : StringText quote cs closing) :
    closing = [quote] ↔ isTerminated (quote :: cs) = true := by
  constructor
  · rintro rfl
    have hunits := h.unitsBefore.resolve_right (by simp)
    rw [isTerminated, h.stops.split]
    exact closes_closed (ne_backslash_of_style h.style) hunits
  · intro hterminated
    refine h.last.resolve_right ?_
    rintro rfl
    rw [isTerminated, closes_open h.unitsBefore_nil] at hterminated
    cases hterminated

/-- The decoder meets the closing quote just if the pattern has one. -/
theorem closing_iff_mem (h : StringText quote cs closing) :
    closing = [quote] ↔ quote :: cs ∈ (Pattern.closedString quote).language := by
  rw [Pattern.mem_closedString]
  constructor
  · rintro rfl
    exact ⟨_, h.unitsBefore.resolve_right (by simp), by rw [← h.stops.split]⟩
  · rintro ⟨u, hu, heq⟩
    rw [h.closing_iff_terminated, heq]
    exact closes_closed (ne_backslash_of_style h.style) hu

/-- An open string takes one more character, unless that is a quote or a backslash. -/
theorem first_more (h : StringText quote cs closing) (hopen : ¬ isTerminated (quote :: cs) = true)
    {c : Char} (hc : c ∉ ['"', '\'', '\\']) :
    first quote (cs ++ [c]) = (.string, quote :: (cs ++ [c])) := by
  obtain rfl : closing = [] := h.last.resolve_left (mt h.closing_iff_terminated.mp hopen)
  have hunits := h.unitsBefore_nil
  simp only [List.mem_cons, List.not_mem_nil, or_false, not_or] at hc
  obtain ⟨hdouble, hsingle, hslash⟩ := hc
  rcases h.style with rfl | rfl
  · simp [first, stringTail_open hunits hdouble hslash]
  · simp [first, stringTail_open hunits hsingle hslash]

end StringText

end Scan

theorem exists_takes_string {source : String} {t : Token} (ht : t ∈ tokenize source)
    (hkind : t.kind = .string) : ∃ before text rest, source.toList = before ++ (text ++ rest) ∧
      t.span = Span.placed before text ∧ t.literal = Lexer.literal .string text ∧
      Scan.Takes .string text rest := by
  obtain ⟨text, tail, hsource, -, hfills⟩ := tokenize_fills source
  rcases mem_tokenize.mp ht with hmem | rfl
  · have htakes := hfills.exists_takes hsource t hmem
    rwa [hkind] at htakes
  · cases hkind

theorem mem_closedString_of_isTerminated {source : String} {t : Token} (ht : t ∈ tokenize source)
    (hkind : t.kind = .string) (h : Scan.isTerminated (t.span.text source).toList = true) :
    ∃ quote ∈ ['"', '\''],
      (t.span.text source).toList ∈ (Pattern.closedString quote).language := by
  obtain ⟨before, text, rest, hsource, hspan, -, htakes⟩ := exists_takes_string ht hkind
  obtain ⟨quote, cs, closing, rfl, hstring⟩ := htakes.stringText
  rw [hspan, Span.text_placed hsource, String.toList_ofList] at h ⊢
  refine ⟨quote, by simpa using hstring.style, ?_⟩
  exact hstring.closing_iff_mem.mp (hstring.closing_iff_terminated.mpr h)

/-- An open string at the end of a source goes on with a character that is put behind it. -/
theorem lexemes_of_open_string {source : String} {ts : List Token} {t : Token}
    (htokens : (Lexer.ofText source.toList).tokens = ts ++ [t]) (hkind : t.kind = .string)
    (hopen : Scan.isTerminated (t.span.text source).toList = false) {c : Char}
    (hc : c ∉ ['"', '\'', '\\']) : ∃ l : Lexeme, l.kind = .string ∧
      lexemes (source.toList ++ [c]) = ts.map (·.toLexeme) ++ [l] := by
  obtain ⟨text, tail, hsource, -, hfills⟩ := tokenize_fills source
  rw [htokens] at hfills
  obtain ⟨first, second, rfl, hfirst, hsecond⟩ := hfills.split
  rw [List.append_assoc] at hsource
  cases hsecond with
  | @cons _ gap text _ _ _ _ hgap htakes _ hspan hmore =>
    cases hmore
    have hsplit : source.toList = ([] ++ first ++ gap) ++ (text ++ tail) := by simpa using hsource
    rw [hspan, Span.text_placed hsplit, String.toList_ofList] at hopen
    rw [hkind] at htakes
    obtain rfl : tail = [] := by
      cases tail with
      | nil => rfl
      | cons d tail => simp [htakes.isTerminated] at hopen
    obtain ⟨quote, cs, closing, rfl, hstring⟩ := htakes.stringText
    have hmore := hstring.first_more (by simp [hopen]) hc
    -- The tokens before the string do not see the difference, since a quote separates them from it.
    have hquote : Scan.Separated (gap ++ (quote :: (cs ++ [c]))) := by
      refine separated_layout hgap (Scan.separated_cons.mpr ?_)
      rcases hstring.style with rfl | rfl <;> decide
    have hclosed : StringsClosed source ts := hfirst.stringsClosed hsource (by simp)
    obtain ⟨ts', hts', hlexemes⟩ := hfirst.move hsource hquote (.inr hclosed) []
    have hlayout : isLayout quote = false := by rcases hstring.style with rfl | rfl <;> rfl
    have hlast := @lexemes_append quote (cs ++ [c]) [] .string hlayout (by simpa using hmore)
    rw [List.append_nil, lexemes_nil] at hlast
    refine ⟨⟨.string, Lexer.literal .string (quote :: (cs ++ [c]))⟩, rfl, ?_⟩
    have hwhole : source.toList ++ [c] = first ++ (gap ++ (quote :: (cs ++ [c]))) := by
      simp [hsource]
    rw [hwhole, hts'.lexemes_eq, hlexemes, lexemes_gap hgap, hlast]

theorem Scan.takes_quote (s rest : List Char) : Takes .string (Literal.quote s) rest := by
  refine ⟨'"', s.flatMap Literal.quoteChar ++ ['"'], rfl, rfl, ?_⟩
  simp [first, stringTail_quoted, Literal.quote]

/-- The literal that is written for a text is read back as one token, whatever follows it. -/
theorem quoted_text_is_read_back (s r : String) :
    ∃ t ts, tokenize (Target.literalText s ++ r) = t :: ts ∧ t.kind = .string ∧ t.literal = s ∧
      t.span = ⟨0, (Target.literalText s).utf8ByteSize, Position.start⟩ ∧
      t.span.text (Target.literalText s ++ r) = Target.literalText s ∧
      ts.map (·.toLexeme) = (tokenize r).map (·.toLexeme) ∧
      Literal.decode (Target.literalText s).toList = s.toList := by
  have hquote : (Target.literalText s).toList = Literal.quote s.toList := String.toList_ofList
  have hsource : (Target.literalText s ++ r).toList =
      [] ++ (Literal.quote s.toList ++ r.toList) := by
    rw [String.toList_append, hquote, List.nil_append]
  have hliteral : Lexer.literal .string (Literal.quote s.toList) = s := by
    simp [Lexer.literal, Literal.decode_quote]
  have hstands := Lexer.standsAfter_ofText (Target.literalText s ++ r).toList
  generalize hlexer : Lexer.ofText (Target.literalText s ++ r).toList = l at hstands
  have hrest : l.rest = [] ++ (Literal.quote s.toList ++ r.toList) := by
    rw [← hlexer, Lexer.ofText, hsource]
  have hnext := Lexer.next?_of_takes hrest (by simp) (Scan.takes_quote s.toList r.toList)
  rw [hliteral, (hstands.skip []).spanOf] at hnext
  refine ⟨⟨⟨.string, s⟩, Span.placed [] (Literal.quote s.toList)⟩,
    ((l.skip []).skip (Literal.quote s.toList)).tokens ++ [l.eof], ?_, rfl, rfl, ?_, ?_, ?_, ?_⟩
  · rw [tokenize, hlexer, Lexer.tokens_eq, hnext]
    rfl
  · rw [← String.utf8Len_toList, hquote]
    rfl
  · exact Span.text_placed hsource
  · rw [List.map_append, Lexer.map_toLexeme_tokens, Lexer.rest_skip (Lexer.rest_skip hrest),
      tokenize, List.map_append]
    rfl
  · rw [hquote, Literal.decode_quote]

end SchemaExpr
