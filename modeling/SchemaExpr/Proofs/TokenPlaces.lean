import SchemaExpr.Proofs.LexemeBoundaries
import SchemaExpr.Proofs.SourcePlaces

/-!
# Tokens in their source

The lexer carries a byte offset and a position along with the text that is left. `Fills` says what
its tokens are without a lexer: pieces of the text with layout before them, each of which the
scanner takes in view of all that follows it, and each placed by the text before it. The tokens of a
source are the one list that fills it up to layout, and what a source and its tokens have to do with
each other follows from that.
-/
namespace SchemaExpr

open String (utf8Len)

/-- The tokens fill the text that stands between `before` and `rest`. -/
inductive Fills : (before text rest : List Char) → List Token → Prop
  | nil {before rest} : Fills before [] rest []
  | cons {before gap text more rest t ts} : (∀ c ∈ gap, isLayout c = true) →
      Scan.Takes t.kind text (more ++ rest) → t.literal = Lexer.literal t.kind text →
      t.span = Span.placed (before ++ gap) text → Fills (before ++ (gap ++ text)) more rest ts →
      Fills before (gap ++ (text ++ more)) rest (t :: ts)

namespace Lexer

/-- The lexer is where `before` ends, by its offset and by its position. -/
structure StandsAfter (l : Lexer) (before : List Char) : Prop where
  offset : l.offset = utf8Len before
  pos : l.pos = Position.after before

theorem standsAfter_ofText (text : List Char) : (ofText text).StandsAfter [] := ⟨rfl, rfl⟩

theorem foldl_utf8Size (text : List Char) (n : Nat) :
    text.foldl (fun n c => n + c.utf8Size) n = n + utf8Len text := by
  induction text generalizing n with
  | nil => rfl
  | cons c text ih =>
    rw [List.foldl_cons, ih, String.utf8Len_cons]
    omega

section Standing

variable {l : Lexer} {before : List Char}

theorem StandsAfter.skip (h : l.StandsAfter before) (text : List Char) :
    (l.skip text).StandsAfter (before ++ text) := by
  constructor
  · rw [Lexer.skip, foldl_utf8Size, h.offset, String.utf8Len_append]
  · rw [Lexer.skip, h.pos, Position.foldl_next_after]

theorem StandsAfter.spanOf (h : l.StandsAfter before) (text : List Char) :
    l.spanOf text = Span.placed before text := by
  rw [Lexer.spanOf, h.offset, h.pos, (h.skip text).offset, Span.placed]

end Standing

theorem rest_skip {l : Lexer} {text rest : List Char} (h : l.rest = text ++ rest) :
    (l.skip text).rest = rest := by
  rw [skip, h, List.drop_left]

/-- Reading a token: layout is skipped and the lexeme is taken. -/
theorem next?_of_takes {l : Lexer} {gap text rest : List Char} {kind : Kind}
    (hrest : l.rest = gap ++ (text ++ rest)) (hgap : ∀ c ∈ gap, isLayout c = true)
    (htakes : Scan.Takes kind text rest) :
    l.next? = some (⟨⟨kind, literal kind text⟩, (l.skip gap).spanOf text⟩,
      (l.skip gap).skip text) := by
  obtain ⟨c, cs, rfl, hlayout, hfirst⟩ := htakes
  have hskip : l.skipLayout = l.skip gap := by
    rw [skipLayout, hrest, Scan.takeWhile_append_stop hgap (by simpa using hlayout)]
  have htext : (l.skip gap).rest = c :: (cs ++ rest) := rest_skip hrest
  rw [next?, hskip]
  simp only [htext, hfirst]

/-- What is left is layout, or layout before a text that the scanner takes. -/
theorem rest_cases (l : Lexer) : (∀ c ∈ l.rest, isLayout c = true) ∨ ∃ gap kind text rest,
    l.rest = gap ++ (text ++ rest) ∧ (∀ c ∈ gap, isLayout c = true) ∧
      Scan.Takes kind text rest := by
  have hgap : ∀ c ∈ l.rest.takeWhile isLayout, isLayout c = true :=
    fun c hc => List.all_eq_true.mp List.all_takeWhile c hc
  cases hdrop : l.rest.dropWhile isLayout with
  | nil =>
    left
    intro c hc
    rw [← List.takeWhile_append_dropWhile (p := isLayout) (l := l.rest), hdrop,
      List.append_nil] at hc
    exact hgap c hc
  | cons c cs =>
    right
    have hlayout : isLayout c = false := by
      have hhead := List.head?_dropWhile_not isLayout l.rest
      simpa [hdrop] using hhead
    obtain ⟨text, rest, htext, htakes⟩ := Scan.Takes.of_first hlayout cs
    refine ⟨_, _, text, rest, ?_, hgap, htakes⟩
    rw [← htext, ← hdrop, List.takeWhile_append_dropWhile]

theorem next?_of_layout {l : Lexer} (h : ∀ c ∈ l.rest, isLayout c = true) : l.next? = none := by
  have hnil : l.rest.dropWhile isLayout = [] := by
    rw [← List.append_nil l.rest, List.dropWhile_append_of_pos h, List.dropWhile_nil]
  rw [next?, rest_skipLayout, hnil]

/-- The tokens of a lexer fill the text that is left, up to layout. -/
theorem tokens_fill (l : Lexer) {before : List Char} (h : l.StandsAfter before) :
    ∃ text tail, l.rest = text ++ tail ∧ (∀ c ∈ tail, isLayout c = true) ∧
      Fills before text tail l.tokens := by
  rcases l.rest_cases with hlayout | ⟨gap, kind, text, rest, hrest, hgap, htakes⟩
  · refine ⟨[], l.rest, rfl, hlayout, ?_⟩
    rw [tokens_eq, next?_of_layout hlayout]
    exact .nil
  · have hnext := next?_of_takes hrest hgap htakes
    have hleft : ((l.skip gap).skip text).rest = rest := rest_skip (rest_skip hrest)
    have hshort := next?_length_lt hnext
    obtain ⟨more, tail, hmore, htail, hfills⟩ := tokens_fill _ ((h.skip gap).skip text)
    rw [hleft] at hmore
    subst hmore
    refine ⟨gap ++ (text ++ more), tail, by simp [hrest], htail, ?_⟩
    rw [tokens_eq, hnext]
    rw [List.append_assoc] at hfills
    exact .cons hgap htakes rfl ((h.skip gap).spanOf text) hfills
termination_by l.rest.length

/-- Only the tokens of a lexer fill the text that is left. -/
theorem tokens_of_fills {l : Lexer} {before text tail : List Char} {ts : List Token}
    (h : Fills before text tail ts) (htail : ∀ c ∈ tail, isLayout c = true)
    (hstands : l.StandsAfter before) (hrest : l.rest = text ++ tail) : l.tokens = ts := by
  induction h generalizing l with
  | nil => rw [tokens_eq, next?_of_layout (hrest ▸ htail)]
  | @cons before gap text more rest t ts hgap htakes hliteral hspan _ ih =>
    rw [List.append_assoc, List.append_assoc] at hrest
    have hleft : ((l.skip gap).skip text).rest = more ++ rest := rest_skip (rest_skip hrest)
    have hafter := (hstands.skip gap).skip text
    rw [List.append_assoc] at hafter
    rw [tokens_eq, next?_of_takes hrest hgap htakes]
    simp only
    rw [ih htail hafter hleft, (hstands.skip gap).spanOf, ← hspan, ← hliteral]

end Lexer

theorem tokenize_fills (source : String) : ∃ text tail, source.toList = text ++ tail ∧
    (∀ c ∈ tail, isLayout c = true) ∧
    Fills [] text tail (Lexer.ofText source.toList).tokens :=
  (Lexer.ofText source.toList).tokens_fill (Lexer.standsAfter_ofText _)

namespace Token

/-- The token covers a text of the source and has the literal of that text. -/
def StandsIn (t : Token) (source : String) : Prop :=
  ∃ before text rest, source.toList = before ++ (text ++ rest) ∧ t.span = Span.placed before text ∧
    t.literal = Lexer.literal t.kind text

namespace StandsIn

variable {t : Token} {source : String}

theorem boundaries (h : t.StandsIn source) :
    IsBoundary source t.span.start ∧ IsBoundary source t.span.stop := by
  obtain ⟨before, text, rest, hsource, hspan, -⟩ := h
  rw [hspan]
  constructor
  · exact isBoundary_of_split hsource
  · refine @isBoundary_of_split source (before ++ text) rest ?_
    rw [hsource, List.append_assoc]

theorem forward (h : t.StandsIn source) : t.span.start ≤ t.span.stop := by
  obtain ⟨before, text, rest, -, hspan, -⟩ := h
  rw [hspan, Span.placed, String.utf8Len_append]
  exact Nat.le_add_right _ _

theorem inside (h : t.StandsIn source) : t.span.stop ≤ source.utf8ByteSize := by
  obtain ⟨before, text, rest, hsource, hspan, -⟩ := h
  rw [hspan]
  exact @utf8Len_le_of_split source (before ++ text) rest (by simpa using hsource)

theorem literal_eq (h : t.StandsIn source) (hkind : t.kind ≠ .string) :
    t.literal = t.span.text source := by
  obtain ⟨before, text, rest, hsource, hspan, hliteral⟩ := h
  rw [hspan, Span.text_placed hsource, hliteral, Lexer.literal, if_neg hkind]

theorem pos_eq (h : t.StandsIn source) : t.span.pos = Position.ofOffset source t.span.start := by
  obtain ⟨before, text, rest, hsource, hspan, -⟩ := h
  rw [hspan]
  exact (Position.ofOffset_of_split hsource).symm

end StandsIn

end Token

/-- The texts between `offset` and the first token, and between each token and the next. -/
def gapTexts (source : String) : (offset : Nat) → List Token → List String
  | _, [] => []
  | offset, t :: ts => textBetween source offset t.span.start :: gapTexts source t.span.stop ts

theorem lexemes_gap {gap : List Char} (hgap : ∀ c ∈ gap, isLayout c = true) (rest : List Char) :
    lexemes (gap ++ rest) = lexemes rest := by
  induction gap with
  | nil => rfl
  | cons c gap ih =>
    rw [List.cons_append, lexemes_layout (hgap c List.mem_cons_self),
      ih fun d hd => hgap d (List.mem_cons_of_mem c hd)]

theorem utf8Len_pos {text : List Char} (h : text ≠ []) : 0 < utf8Len text := by
  cases text with
  | nil => contradiction
  | cons c text =>
    rw [String.utf8Len_cons]
    have hsize := c.utf8Size_pos
    omega

namespace Fills

variable {before text rest : List Char} {ts us vs : List Token}

theorem split (h : Fills before text rest (us ++ vs)) : ∃ first second, text = first ++ second ∧
    Fills before first (second ++ rest) us ∧ Fills (before ++ first) second rest vs := by
  induction us generalizing before text with
  | nil => exact ⟨[], text, rfl, .nil, by simpa using h⟩
  | cons t us ih =>
    cases h with
    | @cons _ gap text more _ _ _ hgap htakes hliteral hspan hmore =>
      obtain ⟨first, second, rfl, hfirst, hsecond⟩ := ih hmore
      refine ⟨gap ++ (text ++ first), second, by simp, ?_, by simpa using hsecond⟩
      exact .cons hgap (by simpa using htakes) hliteral hspan hfirst

theorem lexemes_eq (h : Fills before text rest ts) :
    lexemes (text ++ rest) = ts.map (·.toLexeme) ++ lexemes rest := by
  induction h with
  | nil => rfl
  | @cons before gap text more rest t ts hgap htakes hliteral _ _ ih =>
    obtain ⟨c, cs, rfl, hlayout, hfirst⟩ := htakes
    rw [List.append_assoc, List.append_assoc, lexemes_gap hgap, lexemes_append hlayout hfirst, ih,
      ← hliteral]
    rfl

/-- Tokens start after what stands before them, are not empty, and end before what follows. -/
theorem within (h : Fills before text rest ts) : ∀ t ∈ ts, utf8Len before ≤ t.span.start ∧
    t.span.start < t.span.stop ∧ t.span.stop ≤ utf8Len (before ++ text) := by
  induction h with
  | nil => simp
  | @cons before gap text more rest t ts _ htakes _ hspan _ ih =>
    have htext := utf8Len_pos htakes.ne_nil
    intro u hu
    rcases List.mem_cons.mp hu with rfl | hu
    · simp only [hspan, Span.placed, String.utf8Len_append]
      omega
    · have hwithin := ih u hu
      simp only [String.utf8Len_append] at hwithin ⊢
      omega

theorem kind_ne_eof (h : Fills before text rest ts) : ∀ t ∈ ts, t.kind ≠ .eof := by
  induction h with
  | nil => simp
  | cons _ htakes _ _ _ ih => exact List.forall_mem_cons.mpr ⟨htakes.kind_ne_eof, ih⟩

theorem pairwise (h : Fills before text rest ts) :
    ts.Pairwise fun t u => t.span.stop ≤ u.span.start := by
  induction h with
  | nil => exact .nil
  | @cons before gap text more rest t ts _ _ _ hspan hmore ih =>
    refine .cons (fun u hu => ?_) ih
    have hstart := (hmore.within u hu).1
    rwa [hspan, Span.placed, List.append_assoc]

/-- The scanner takes each token from the source, in view of all that follows. -/
theorem exists_takes {source : String} (h : Fills before text rest ts)
    (hsource : source.toList = before ++ (text ++ rest)) : ∀ t ∈ ts, ∃ before text rest,
      source.toList = before ++ (text ++ rest) ∧ t.span = Span.placed before text ∧
      t.literal = Lexer.literal t.kind text ∧ Scan.Takes t.kind text rest := by
  induction h with
  | nil => simp
  | @cons before gap text more rest t ts _ htakes hliteral hspan _ ih =>
    refine List.forall_mem_cons.mpr ⟨?_, ih (by simpa using hsource)⟩
    exact ⟨before ++ gap, text, more ++ rest, by simpa using hsource, hspan, hliteral, htakes⟩

theorem standsIn {source : String} (h : Fills before text rest ts)
    (hsource : source.toList = before ++ (text ++ rest)) : ∀ t ∈ ts, t.StandsIn source := by
  intro t ht
  obtain ⟨before, text, rest, hsplit, hspan, hliteral, -⟩ := h.exists_takes hsource t ht
  exact ⟨before, text, rest, hsplit, hspan, hliteral⟩

/-- Between tokens, before the first and after the last there is only layout. -/
theorem isLayout_of_mem_gapTexts {source : String} {last : Token} (h : Fills before text rest ts)
    (hsource : source.toList = before ++ (text ++ rest)) (hrest : ∀ c ∈ rest, isLayout c = true)
    (hlast : last.span.start = source.utf8ByteSize) :
    ∀ gap ∈ gapTexts source (utf8Len before) (ts ++ [last]), ∀ c ∈ gap.toList,
      isLayout c = true := by
  induction h with
  | @nil before rest =>
    have hcut : textBetween source (utf8Len before) source.utf8ByteSize = String.ofList rest :=
      textBetween_end_of_split hsource
    simpa [gapTexts, hlast, hcut] using hrest
  | @cons before gap text more rest t ts hgap _ _ hspan _ ih =>
    have hcut : textBetween source (utf8Len before) (utf8Len (before ++ gap)) = String.ofList gap :=
      textBetween_of_split (by simpa using hsource)
    have hmore := ih (by simpa using hsource) hrest
    simp only [List.cons_append, gapTexts, hspan, Span.placed, hcut]
    refine List.forall_mem_cons.mpr ⟨by simpa using hgap, ?_⟩
    rwa [List.append_assoc]

end Fills

theorem mem_tokenize {source : String} {t : Token} : t ∈ tokenize source ↔
    t ∈ (Lexer.ofText source.toList).tokens ∨ t = (Lexer.ofText source.toList).eof := by
  simp [tokenize]

theorem dropLast_tokenize (source : String) :
    (tokenize source).dropLast = (Lexer.ofText source.toList).tokens := by
  simp [tokenize]

theorem eof_ofText (source : String) : (Lexer.ofText source.toList).eof =
    ⟨Lexeme.eof, Span.placed source.toList []⟩ := by
  rw [Lexer.eof, Lexer.atEnd, ((Lexer.standsAfter_ofText source.toList).skip _).spanOf]
  rfl

theorem standsIn_of_mem_tokenize {source : String} {t : Token} (h : t ∈ tokenize source) :
    t.StandsIn source := by
  rcases mem_tokenize.mp h with h | rfl
  · obtain ⟨text, tail, hsource, -, hfills⟩ := tokenize_fills source
    exact hfills.standsIn hsource t h
  · refine ⟨source.toList, [], [], by simp, ?_, ?_⟩
    · rw [eof_ofText]
    · rw [eof_ofText]
      rfl

/-- How tokens divide a source among them. -/
structure Divides (source : String) (ts : List Token) : Prop where
  /-- The end of the input stands at the end of the source and nowhere else. -/
  ends : ∃ body last, ts = body ++ [last] ∧ last.kind = .eof ∧
    last.span.start = source.utf8ByteSize ∧ last.span.stop = source.utf8ByteSize ∧
    ∀ t ∈ body, t.kind ≠ .eof ∧ t.span.start < t.span.stop
  increasing : ts.Pairwise fun t u => t.span.stop ≤ u.span.start
  boundaries : ∀ t ∈ ts, IsBoundary source t.span.start ∧ IsBoundary source t.span.stop
  /-- Nothing but layout is left out. -/
  gaps : ∀ gap ∈ gapTexts source 0 ts, ∀ c ∈ gap.toList, c ∈ [' ', '\t', '\r', '\n']
  literals : ∀ t ∈ ts, t.kind ≠ .string → t.literal = t.span.text source
  positions : ∀ t ∈ ts, t.span.pos = Position.ofOffset source t.span.start

/-- Tokenising a source loses nothing but layout, and every token knows its place. -/
theorem tokenize_divides (source : String) : Divides source (tokenize source) := by
  obtain ⟨text, tail, hsource, htail, hfills⟩ := tokenize_fills source
  have heof : (Lexer.ofText source.toList).eof.span.start = source.utf8ByteSize := by
    rw [eof_ofText, ← String.utf8Len_toList]
    rfl
  constructor
  · refine ⟨_, _, rfl, rfl, heof, ?_, fun t ht => ⟨hfills.kind_ne_eof t ht, ?_⟩⟩
    · rw [eof_ofText, ← String.utf8Len_toList]
      simp [Span.placed]
    · exact (hfills.within t ht).2.1
  · refine List.pairwise_append.mpr ⟨hfills.pairwise, List.pairwise_singleton _ _, ?_⟩
    intro t ht u hu
    have hbound := (hfills.within t ht).2.2
    rw [List.mem_singleton.mp hu, heof]
    exact hbound.trans (utf8Len_le_of_split hsource)
  · exact fun t ht => (standsIn_of_mem_tokenize ht).boundaries
  · intro gap hgap c hc
    have hlayout := hfills.isLayout_of_mem_gapTexts hsource htail heof gap hgap c hc
    simpa [isLayout, or_assoc] using hlayout
  · exact fun t ht => (standsIn_of_mem_tokenize ht).literal_eq
  · exact fun t ht => (standsIn_of_mem_tokenize ht).pos_eq

theorem separated_layout {gap rest : List Char} (hgap : ∀ c ∈ gap, isLayout c = true)
    (hrest : Scan.Separated rest) : Scan.Separated (gap ++ rest) := by
  cases gap with
  | nil => exact hrest
  | cons c gap =>
    exact Scan.separated_cons.mpr (Scan.separates_of_isLayout (hgap c List.mem_cons_self))

def StringsClosed (source : String) (ts : List Token) : Prop :=
  ∀ t ∈ ts, t.kind = .string → Scan.isTerminated (t.span.text source).toList = true

namespace Fills

variable {source : String} {before text rest : List Char} {t : Token} {ts : List Token}

theorem eq_nil (h : Fills before [] rest ts) : ts = [] := by
  generalize htext : ([] : List Char) = text at h
  cases h with
  | nil => rfl
  | @cons _ _ _ _ _ _ _ _ htakes _ _ _ =>
    have hempty := htakes.ne_nil
    simp_all

/-- A string that something follows is closed, so only the last token can be an open one. -/
theorem stringsClosed (h : Fills before text rest ts)
    (hsource : source.toList = before ++ (text ++ rest))
    (hlast : rest = [] → ∀ t ∈ ts.getLast?, t.kind = .string →
      Scan.isTerminated (t.span.text source).toList = true) : StringsClosed source ts := by
  induction h with
  | nil => simp [StringsClosed]
  | @cons before gap text more rest t ts _ htakes _ hspan hmore ih =>
    have hsplit : source.toList = (before ++ gap) ++ (text ++ (more ++ rest)) := by
      simpa using hsource
    refine List.forall_mem_cons.mpr ⟨fun hkind => ?_, ih (by simpa using hsource) ?_⟩
    · cases hfollow : more ++ rest with
      | nil =>
        obtain ⟨rfl, hrest⟩ := List.append_eq_nil_iff.mp hfollow
        obtain rfl := hmore.eq_nil
        exact hlast hrest t rfl hkind
      | cons d ds =>
        rw [hkind, hfollow] at htakes
        rw [hspan, Span.text_placed hsplit, String.toList_ofList]
        exact htakes.isTerminated
    · intro hrest u hu
      apply hlast hrest
      cases ts with
      | nil => cases hu
      | cons v ts => simpa using hu

/-- The same text elsewhere, before other text, has the same lexemes: what follows must not extend
the last token, and if anything follows, no string may be open. -/
theorem move {rest' : List Char} (h : Fills before text rest ts)
    (hsource : source.toList = before ++ (text ++ rest)) (hseparated : Scan.Separated rest')
    (hclosed : rest' = [] ∨ StringsClosed source ts) (before' : List Char) :
    ∃ ts', Fills before' text rest' ts' ∧ ts'.map (·.toLexeme) = ts.map (·.toLexeme) := by
  induction h generalizing before' with
  | nil => exact ⟨[], .nil, rfl⟩
  | @cons before gap text more rest t ts hgap htakes hliteral hspan _ ih =>
    have hsplit : source.toList = (before ++ gap) ++ (text ++ (more ++ rest)) := by
      simpa using hsource
    obtain ⟨ts', hts', hlexemes⟩ := ih (by simpa using hsource)
      (hclosed.imp_right fun h u hu => h u (List.mem_cons_of_mem t hu)) (before' ++ (gap ++ text))
    refine ⟨⟨t.toLexeme, Span.placed (before' ++ gap) text⟩ :: ts', ?_, by simp [hlexemes]⟩
    refine .cons hgap (htakes.replace hseparated fun hkind => ?_) hliteral rfl hts'
    refine hclosed.imp_right fun h => ?_
    have hterminated := h t List.mem_cons_self hkind
    rwa [hspan, Span.text_placed hsplit, String.toList_ofList] at hterminated

theorem trim (h : Fills before text rest ts) (hts : ts ≠ []) : ∃ gap inner, text = gap ++ inner ∧
    (∀ c ∈ gap, isLayout c = true) ∧ (∀ c ∈ inner.head?, isLayout c = false) ∧
    Fills (before ++ gap) inner rest ts := by
  cases h with
  | nil => contradiction
  | @cons _ gap text more _ _ _ hgap htakes hliteral hspan hmore =>
    refine ⟨gap, text ++ more, rfl, hgap, ?_, ?_⟩
    · obtain ⟨c, cs, rfl, hlayout, -⟩ := htakes
      simpa using hlayout
    · have hnone : ∀ c ∈ ([] : List Char), isLayout c = true := by simp
      refine @Fills.cons _ [] _ _ _ _ _ hnone htakes hliteral (by simpa using hspan) ?_
      simpa using hmore

/-- Without layout before it, the first token starts the text. -/
theorem start_eq (h : Fills before text rest (t :: ts))
    (hhead : ∀ c ∈ text.head?, isLayout c = false) :
    t.span.start = utf8Len before ∧ t.span.pos = Position.after before := by
  cases h with
  | @cons _ gap _ _ _ _ _ hgap _ _ hspan _ =>
    cases gap with
    | nil =>
      rw [hspan, List.append_nil]
      exact ⟨rfl, rfl⟩
    | cons c gap =>
      have hlayout := hgap c List.mem_cons_self
      simp [hhead c rfl] at hlayout

theorem stop_eq (h : Fills before text rest (ts ++ [t])) :
    t.span.stop = utf8Len (before ++ text) := by
  obtain ⟨first, second, rfl, -, hlast⟩ := h.split
  cases hlast with
  | @cons _ gap text more _ _ _ _ _ _ hspan hmore =>
    cases hmore
    rw [hspan, Span.placed]
    simp

end Fills

end SchemaExpr
