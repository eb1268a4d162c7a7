import SchemaExpr.Proofs.PhraseSpans
import SchemaExpr.Proofs.SpanIndependence
import SchemaExpr.Proofs.TokenPlaces

/-!
# Well-formed spans

Every span that parsing hands out starts and stops with tokens of the source and knows its position,
also where the source is malformed. Tokens have such spans, joining two of them gives such a span
again, and the parser does nothing else with spans.
-/
namespace SchemaExpr

namespace Span

/-- The span lies in the source, between characters, from the start of some token to the end of
some token, and its position is that of its first byte. -/
structure WellFormed (source : String) (s : Span) : Prop where
  forward : s.start ≤ s.stop
  inside : s.stop ≤ source.utf8ByteSize
  startBoundary : IsBoundary source s.start
  stopBoundary : IsBoundary source s.stop
  startToken : ∃ t ∈ tokenize source, t.span.start = s.start
  stopToken : ∃ t ∈ tokenize source, t.span.stop = s.stop
  pos_eq : s.pos = Position.ofOffset source s.start

theorem WellFormed.join {source : String} {s t : Span} (hs : s.WellFormed source)
    (ht : t.WellFormed source) : (s.join t).WellFormed source := by
  have hforward : (s.join t).start ≤ (s.join t).stop :=
    Nat.le_trans hs.forward (Nat.le_max_right ..)
  by_cases hle : s.stop ≤ t.stop
  · have hstop : (s.join t).stop = t.stop := Nat.max_eq_left hle
    exact ⟨hforward, hstop ▸ ht.inside, hs.startBoundary, hstop ▸ ht.stopBoundary,
      hs.startToken, hstop ▸ ht.stopToken, hs.pos_eq⟩
  · have hstop : (s.join t).stop = s.stop := Nat.max_eq_right (Nat.le_of_not_le hle)
    exact ⟨hforward, hstop ▸ hs.inside, hs.startBoundary, hstop ▸ hs.stopBoundary,
      hs.startToken, hstop ▸ hs.stopToken, hs.pos_eq⟩

end Span

theorem wellFormed_of_mem_tokenize {source : String} {t : Token} (h : t ∈ tokenize source) :
    t.span.WellFormed source := by
  have hstands := standsIn_of_mem_tokenize h
  exact ⟨hstands.forward, hstands.inside, hstands.boundaries.1, hstands.boundaries.2, ⟨t, h, rfl⟩,
    ⟨t, h, rfl⟩, hstands.pos_eq⟩

theorem Fills.ordered {before text rest : List Char} {ts : List Token}
    (h : Fills before text rest ts) : Ordered ts :=
  ⟨fun t ht => Nat.le_of_lt (h.within t ht).2.1, h.pairwise⟩

theorem ordered_tokens (source : String) : Ordered (Lexer.ofText source.toList).tokens := by
  obtain ⟨text, tail, -, -, hfills⟩ := tokenize_fills source
  exact hfills.ordered

/-- What parsing finds holds only well-formed spans. -/
theorem parse_wellFormed (source : String) :
    (parse source).Alike (fun s _ => s.WellFormed source) (parse source) := by
  apply parse_alike
  · intro s s' t t' hs ht
    exact hs.join ht
  · exact wellFormed_of_mem_tokenize (mem_tokenize.mpr (.inr rfl))
  · apply List.forall₂_same.mpr
    intro t ht
    exact ⟨rfl, wellFormed_of_mem_tokenize (mem_tokenize.mpr (.inl ht))⟩

/-- All spans of the tree and of the errors are well formed, and in a tree without errors the parts
of every node lie inside it, one after the other. -/
theorem parsed_spans_are_well_formed (source : String) :
    (∀ error ∈ (parse source).errors, error.span.WellFormed source) ∧
      (∀ e, (parse source).tree = some e → ∀ s ∈ e.locs, s.WellFormed source) ∧
      ((parse source).errors = [] → ∃ e, (parse source).tree = some e ∧ e.Every Expr.Nests) := by
  obtain ⟨htree, herrors⟩ := parse_wellFormed source
  refine ⟨?_, ?_, ?_⟩
  · intro error herror
    exact (List.forall₂_same.mp herrors error herror).span
  · intro e he s hs
    rw [he] at htree
    obtain ⟨e', he', halike⟩ := exists_of_rel htree rfl
    cases he'
    exact List.forall₂_same.mp halike.marks s hs
  · intro hnone
    obtain ⟨e, he, hderives, -⟩ := Grammar.sentence_of_parse hnone
    have hordered := ordered_tokens source
    exact ⟨e, he, (Grammar.Derives.laid maxDepth hderives hordered).every hordered⟩

theorem parsed_spans_are_well_formed_recovery :
    ((parse "f(é, [1 2)\n.").errors ≠ [] ∧
      ∀ error ∈ (parse "f(é, [1 2)\n.").errors, error.span.WellFormed "f(é, [1 2)\n.") ∧
    (parse "x[1]\n.as<T>()").errors = [] ∧
      ∃ e, (parse "x[1]\n.as<T>()").tree = some e ∧ e.Every Expr.Nests :=
  ⟨⟨by decide +kernel, (parsed_spans_are_well_formed _).1⟩, by decide +kernel,
    (parsed_spans_are_well_formed _).2.2 (by decide +kernel)⟩

end SchemaExpr
