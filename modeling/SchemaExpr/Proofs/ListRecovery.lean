import SchemaExpr.Proofs.SpanIndependence
import SchemaExpr.Proofs.Subphrases

/-!
# Recovery in lists

A list is cut at its commas. Where the pieces hold no brackets, a parser that runs on one of them
cannot get past the mark at its end: nothing that it reads ends with a comma or with a bracket that
was not opened. So a piece that is not an expression costs one error, at one of its tokens or at the
mark, and skipping to the mark leaves the next piece as it was.
-/
namespace SchemaExpr

def Flat (ts : List Token) : Prop :=
  ∀ t ∈ ts, t.kind ∉ [.lparen, .rparen, .lbracket, .rbracket, Kind.comma]

def Kind.isMark : Kind → Bool
  | .comma | .rparen | .rbracket => true
  | _ => false

instance (ts : List Token) : Decidable (Flat ts) := inferInstanceAs (Decidable (∀ _ ∈ _, _))

theorem Flat.of_suffix {ts vs : List Token} (h : Flat ts) (hsuffix : vs <:+ ts) : Flat vs :=
  fun t ht => h t (hsuffix.subset ht)

theorem Flat.tail {t : Token} {ts : List Token} (h : Flat (t :: ts)) : Flat ts :=
  h.of_suffix (List.suffix_cons t ts)

theorem Flat.isMark_eq_false {ts : List Token} (h : Flat ts) {t : Token} (ht : t ∈ ts) :
    t.kind.isMark = false := by
  have hkind := h t ht
  cases hk : t.kind <;> first | rfl | simp [hk] at hkind

theorem Flat.ne_lparen {ts : List Token} (h : Flat ts) {t : Token} (ht : t ∈ ts) :
    t.kind ≠ .lparen := by
  have hkind := h t ht
  simp only [List.mem_cons, not_or] at hkind
  exact hkind.1

theorem Flat.ne_lbracket {ts : List Token} (h : Flat ts) {t : Token} (ht : t ∈ ts) :
    t.kind ≠ .lbracket := by
  have hkind := h t ht
  simp only [List.mem_cons, not_or] at hkind
  exact hkind.2.2.1

namespace Parser

variable {α β : Type}

/-- The error is at one of the tokens, or about nesting. -/
def PointsInto (ts : List Token) (error : SyntaxError) : Prop :=
  error.fault = .tooDeep ∨ ∃ t ∈ ts, error.span = t.span

/-- What becomes of the tokens `ts` with a mark behind them: the mark and what follows it are left,
and there is either a value without errors or one error without a value. -/
structure Confined (ts : List Token) (mark : Token) (rest : List Token) (out : Outcome α) :
    Prop where
  left : ∃ vs, vs <:+ ts ∧ out.rest = vs ++ mark :: rest
  result : ((∃ a, out.value = some a) ∧ out.errors = []) ∨
    out.value = none ∧ ∃ error, out.errors = [error] ∧ PointsInto (ts ++ [mark]) error

def Confines (p : Parser α) : Prop :=
  ∀ ts mark rest, Flat ts → mark.kind.isMark = true →
    Confined ts mark rest (p (ts ++ mark :: rest))

section Confined

variable {ts vs rest : List Token} {mark : Token}

theorem PointsInto.mono {ts us : List Token} {error : SyntaxError} (h : PointsInto ts error)
    (hsub : ts ⊆ us) : PointsInto us error := by
  rcases h with h | ⟨t, ht, hspan⟩
  · exact .inl h
  · exact .inr ⟨t, hsub ht, hspan⟩

theorem Confined.of_suffix {out : Outcome α} (h : Confined vs mark rest out) (hvs : vs <:+ ts) :
    Confined ts mark rest out := by
  obtain ⟨⟨us, hus, hrest⟩, hresult⟩ := h
  refine ⟨⟨us, hus.trans hvs, hrest⟩, ?_⟩
  rcases hresult with hvalue | ⟨hvalue, error, herror, hpoints⟩
  · exact .inl hvalue
  · have hsub : vs ++ [mark] ⊆ ts ++ [mark] := List.append_subset.mpr
      ⟨List.Subset.trans hvs.subset (List.subset_append_left ts [mark]),
        List.subset_append_right ts [mark]⟩
    exact .inr ⟨hvalue, error, herror, hpoints.mono hsub⟩

theorem Confined.bind {p : Parser α} {f : α → Parser β} {input : List Token}
    (hp : Confined ts mark rest (p input))
    (hf : ∀ a vs, vs <:+ ts → Confined vs mark rest (f a (vs ++ mark :: rest))) :
    Confined ts mark rest ((p >>= f) input) := by
  change Confined ts mark rest (andThen p f input)
  obtain ⟨⟨vs, hvs, hrest⟩, ⟨⟨a, ha⟩, herrors⟩ | ⟨hvalue, hone⟩⟩ := hp
  · have heq : andThen p f input = f a (vs ++ mark :: rest) := by
      simp [andThen, ha, hrest, herrors]
    rw [heq]
    exact (hf a vs hvs).of_suffix hvs
  · refine ⟨⟨vs, hvs, ?_⟩, .inr ?_⟩
    · simp [andThen, hvalue, hrest]
    · simpa [andThen, hvalue] using hone

theorem Confines.bind {p : Parser α} {f : α → Parser β} (hp : p.Confines)
    (hf : ∀ a, (f a).Confines) : (p >>= f).Confines := by
  intro ts mark rest hflat hmark
  exact (hp ts mark rest hflat hmark).bind fun a vs hvs =>
    hf a vs mark rest (hflat.of_suffix hvs) hmark

theorem confined_value (a : α) (hvs : vs <:+ ts) :
    Confined ts mark rest ⟨some a, vs ++ mark :: rest, []⟩ :=
  ⟨⟨vs, hvs, rfl⟩, .inl ⟨⟨a, rfl⟩, rfl⟩⟩

theorem confines_pure (a : α) : (pure a : Parser α).Confines :=
  fun ts _ _ _ _ => confined_value a (List.suffix_refl ts)

theorem confined_fail (ts : List Token) {fault : Fault} {t : Token} (ht : t ∈ ts ++ [mark]) :
    Confined ts mark rest (fail fault t.span (ts ++ mark :: rest) : Outcome α) :=
  ⟨⟨ts, List.suffix_refl ts, rfl⟩, .inr ⟨rfl, _, rfl, .inr ⟨t, ht, rfl⟩⟩⟩

theorem current_mem (stop : Span) (ts rest : List Token) (mark : Token) :
    current stop (ts ++ mark :: rest) ∈ ts ++ [mark] := by
  cases ts <;> simp [current]

theorem confines_failHere (stop : Span) (fault : Lexeme → Fault) :
    (failHere stop fault : Parser α).Confines :=
  fun _ _ _ _ _ => confined_fail _ (current_mem ..)

theorem confines_expect (stop : Span) (kind : Kind) (hkind : kind.isMark = false) :
    (expect stop kind).Confines := by
  intro ts mark rest hflat hmark
  cases ts with
  | nil =>
    have hne : mark.kind ≠ kind := by
      rintro rfl
      simp [hmark] at hkind
    simp only [List.nil_append, expect, hne, ↓reduceIte]
    exact confines_failHere stop _ [] mark rest hflat hmark
  | cons t ts =>
    simp only [List.cons_append, expect]
    split
    · exact confined_value t (List.suffix_cons t ts)
    · exact confines_failHere stop _ (t :: ts) mark rest hflat hmark

/-- What needs an opening bracket gives up. -/
theorem confines_expect_lparen_bind (stop : Span) (f : Token → Parser β) :
    (expect stop .lparen >>= f).Confines := by
  intro ts mark rest hflat hmark
  have hexpect : expect stop .lparen (ts ++ mark :: rest) =
      failHere stop (.expected .lparen) (ts ++ mark :: rest) := by
    cases ts with
    | nil =>
      have hne : mark.kind ≠ .lparen := by
        intro h
        simp [h, Kind.isMark] at hmark
      simp [expect, hne]
    | cons t ts => simp [expect, hflat.ne_lparen List.mem_cons_self]
  have heq : (expect stop .lparen >>= f) (ts ++ mark :: rest) =
      failHere stop (.expected .lparen) (ts ++ mark :: rest) := by
    change andThen _ _ _ = _
    unfold andThen
    rw [hexpect]
    rfl
  rw [heq]
  exact confines_failHere stop _ ts mark rest hflat hmark

end Confined

section Level

variable (stop : Span) {inner : Nested} (hinner : ∀ floor, (inner.run floor).Confines)

theorem confines_castTail (lhs : Subtree) : (castTail stop lhs).Confines := by
  intro ts mark rest hflat hmark
  cases ts with
  | nil =>
    have hgt : mark.kind ≠ .gt := fun h => by simp [h, Kind.isMark] at hmark
    have hident : mark.kind ≠ .ident := fun h => by simp [h, Kind.isMark] at hmark
    simp only [List.nil_append, castTail, hgt, hident, ↓reduceIte]
    exact confines_failHere stop _ [] mark rest hflat hmark
  | cons t ts =>
    simp only [List.cons_append, castTail]
    split
    · exact confined_fail (t :: ts) (by simp)
    · split
      · have htail := (confines_expect stop .gt rfl).bind fun _ : Token =>
          confines_expect_lparen_bind stop fun _ => expect stop .rparen >>= fun closing =>
            pure (⟨.cast (lhs.tree.loc.join closing.span) lhs.tree t.literal t.span,
              lhs.height + 1⟩ : Subtree)
        exact (htail ts mark rest hflat.tail hmark).of_suffix (List.suffix_cons t ts)
      · exact confines_failHere stop _ (t :: ts) mark rest hflat hmark

theorem confines_member (lhs : Subtree) : (member stop lhs).Confines := by
  intro ts mark rest hflat hmark
  cases ts with
  | nil =>
    simp only [List.nil_append, member]
    split
    · next h => simp [h, Kind.isMark] at hmark
    · next h => simp [h, Kind.isMark] at hmark
    · next h => simp [h, Kind.isMark] at hmark
    · exact confines_failHere stop _ [] mark rest hflat hmark
  | cons t ts =>
    simp only [List.cons_append, member]
    split
    · cases ts with
      | nil =>
        have hlt : mark.kind ≠ .lt := fun h => by simp [h, Kind.isMark] at hmark
        simp only [List.nil_append, hlt, ↓reduceIte]
        exact confined_fail [t] (by simp)
      | cons u us =>
        simp only [List.cons_append]
        split
        · have hsuffix : us <:+ t :: u :: us := (List.suffix_cons u us).trans (List.suffix_cons t _)
          exact (confines_castTail stop lhs us mark rest hflat.tail.tail hmark).of_suffix hsuffix
        · exact confined_fail (t :: u :: us) (by simp)
    · exact confined_value _ (List.suffix_cons t ts)
    · exact confined_value _ (List.suffix_cons t ts)
    · exact confines_failHere stop _ (t :: ts) mark rest hflat hmark

include hinner

theorem confines_unary (op : UnaryOp) (sign : Token) :
    ((inner.reading stop).unary op sign).Confines :=
  (hinner _).bind fun _ => confines_pure _

theorem confines_ternary (lhs : Subtree) : ((inner.reading stop).ternary lhs).Confines :=
  (hinner 0).bind fun _ => (confines_expect stop .colon rfl).bind fun _ =>
    (hinner 0).bind fun _ => confines_pure _

theorem confines_binary (op : BinaryOp) (lhs : Subtree) :
    ((inner.reading stop).binary op lhs).Confines :=
  (hinner _).bind fun _ => confines_pure _

omit hinner in
theorem confined_number {t : Token} (ts : List Token) (mark : Token) (rest : List Token) :
    Confined (t :: ts) mark rest ((inner.reading stop).number t (ts ++ mark :: rest)) := by
  have hsuffix : ts <:+ t :: ts := List.suffix_cons t ts
  unfold Reading.number
  cases Literal.readNumber t.literal.toList with
  | ok value =>
    cases value <;> exact confined_value _ hsuffix
  | error fault =>
    exact ⟨⟨ts, hsuffix, rfl⟩, .inr ⟨rfl, _, rfl, .inr ⟨t, by simp, rfl⟩⟩⟩

theorem confined_of_beginning {t : Token} {ts : List Token} {mark : Token} {rest : List Token}
    {p : Parser Subtree} (hp : (inner.reading stop).beginning t = some p) (hflat : Flat (t :: ts))
    (hmark : mark.kind.isMark = true) : Confined (t :: ts) mark rest (p (ts ++ mark :: rest)) := by
  have hof (h : p.Confines) : Confined (t :: ts) mark rest (p (ts ++ mark :: rest)) :=
    (h ts mark rest hflat.tail hmark).of_suffix (List.suffix_cons t ts)
  unfold Reading.beginning at hp
  split at hp <;> cases hp
  case h_1 => exact confined_number stop ts mark rest
  case h_7 => exact hof (confines_unary stop hinner .neg t)
  case h_8 => exact hof (confines_unary stop hinner .not t)
  case h_9 => exact hof (confines_unary stop hinner .bitNot t)
  case h_10 h => exact absurd h (hflat.ne_lparen List.mem_cons_self)
  case h_11 h => exact absurd h (hflat.ne_lbracket List.mem_cons_self)
  case h_12 => exact hof (confines_expect_lparen_bind stop _)
  case h_13 => exact hof (confines_expect_lparen_bind stop _)
  all_goals exact hof (confines_pure _)

theorem confines_operand : (inner.reading stop).operand.Confines := by
  intro ts mark rest hflat hmark
  cases ts with
  | nil =>
    have hnone : (inner.reading stop).beginning mark = none := by
      unfold Reading.beginning
      split <;> first | rfl | next h => simp [h, Kind.isMark] at hmark
    simp only [List.nil_append, operand_cons, hnone]
    exact confines_failHere stop _ [] mark rest hflat hmark
  | cons t ts =>
    simp only [List.cons_append, operand_cons]
    split
    · next p hp => exact confined_of_beginning stop hinner hp hflat hmark
    · exact confines_failHere stop _ (t :: ts) mark rest hflat hmark

theorem confines_of_continuation {floor : Nat} {lhs : Subtree} {t : Token} {p : Parser Subtree}
    (hp : (inner.reading stop).continuation floor lhs t = some p) (hparen : t.kind ≠ .lparen)
    (hbracket : t.kind ≠ .lbracket) : p.Confines := by
  unfold Reading.continuation at hp
  split at hp
  · cases hp
    exact confines_member stop lhs
  · contradiction
  · contradiction
  · split at hp <;> cases hp
    exact confines_ternary stop hinner lhs
  · split at hp
    · split at hp <;> cases hp
      exact confines_binary stop hinner _ lhs
    · cases hp

theorem confines_climb (floor : Nat) (lhs : Subtree) : Confines (climb stop inner floor lhs) := by
  intro ts mark rest hflat hmark
  induction hlength : ts.length using Nat.strongRecOn generalizing ts lhs with
  | ind length ih =>
  subst hlength
  by_cases hheight : maxDepth < lhs.height
  · rw [climb_of_tall hheight]
    exact ⟨⟨ts, List.suffix_refl ts, rfl⟩, .inr ⟨rfl, _, rfl, .inl rfl⟩⟩
  · cases ts with
    | nil =>
      have hnone : (inner.reading stop).continuation floor lhs mark = none := by
        rw [Grammar.continuation_eq_none_iff]
        cases hk : mark.kind <;> simp [hk, Kind.isMark] at hmark <;> rfl
      rw [List.nil_append, climb_of_none hheight (by simpa using hnone)]
      exact confined_value lhs (List.suffix_refl [])
    | cons t ts =>
      rw [List.cons_append]
      cases hp : (inner.reading stop).continuation floor lhs t with
      | none =>
        rw [climb_of_none hheight (by simpa using hp)]
        exact confined_value lhs (List.suffix_refl (t :: ts))
      | some p =>
        have hstep := confines_of_continuation stop hinner hp (hflat.ne_lparen List.mem_cons_self)
          (hflat.ne_lbracket List.mem_cons_self) ts mark rest hflat.tail hmark
        have hbind := hstep.bind (f := climb stop inner floor) fun longer vs hvs =>
          ih vs.length (Nat.lt_succ_of_le hvs.length_le) longer vs (hflat.tail.of_suffix hvs) rfl
        rw [climb_of_some hheight hp]
        exact hbind.of_suffix (List.suffix_cons t ts)

end Level

end Parser

theorem Nested.confines_ofLevels (stop : Span) (levels floor : Nat) :
    ((ofLevels stop levels).run floor).Confines := by
  induction levels generalizing floor with
  | zero => exact Parser.confines_failHere stop fun _ => .tooDeep
  | succ levels ih =>
    exact (Parser.confines_operand stop ih).bind (Parser.confines_climb stop ih floor)

theorem Grammar.Derives.of_le {levels levels' k : Nat} {ts : List Token} {e : Expr Span}
    (h : Derives levels k ts e) (hle : levels ≤ levels') : Derives levels' k ts e := by
  induction hle with
  | refl => exact h
  | step _ ih => exact (Derives.roomy _).grow ih

/-- Tokens that are read without errors, and after which the others are left, are an expression. -/
theorem Grammar.exists_sentence_of_run (stop : Span) {levels : Nat} (hlevels : levels ≤ maxDepth)
    {ts rest : List Token}
    (herrors : ((Nested.ofLevels stop levels).run 0 (ts ++ rest)).errors = [])
    (hrest : ((Nested.ofLevels stop levels).run 0 (ts ++ rest)).rest = rest) :
    ∃ e, Sentence ts e := by
  obtain ⟨tree, used, -, hsplit, hderives, hmeasured, hheight, -⟩ :=
    ofLevels_sound stop levels 0 (Nat.zero_le _) _ herrors
  have hused : ts = used := by simpa [hrest] using hsplit
  exact ⟨tree.tree, (hused ▸ hderives).of_le hlevels, hmeasured ▸ hheight⟩

/-- A piece of a list, with the comma or the bracket that ends it. -/
structure Segment where
  tokens : List Token
  flat : Flat tokens
  mark : Token

namespace Segment

def written (s : Segment) : List Token := s.tokens ++ [s.mark]

/-- The piece is an expression on its own. -/
def Complete (s : Segment) : Prop := ∃ e, Grammar.Sentence s.tokens e

/-- Reading the piece alone decides whether it is complete. -/
theorem complete_iff (s : Segment) : s.Complete ↔
    let out := (Nested.ofLevels s.mark.span maxDepth).run 0 s.tokens
    out.errors = [] ∧ out.rest = [] := by
  constructor
  · rintro ⟨e, hderives, hheight⟩
    have hread := (Grammar.ofLevels_complete s.mark.span maxDepth maxDepth).reads hderives
      (Grammar.stops_nil 0)
    rw [List.append_nil] at hread
    rcases hread with hread | ⟨-, hexcess⟩
    · simp [hread]
    · omega
  · rintro ⟨herrors, hrest⟩
    rw [← List.append_nil s.tokens] at herrors hrest
    exact Grammar.exists_sentence_of_run s.mark.span (Nat.le_refl _) herrors hrest

instance : DecidablePred Complete := fun s => decidable_of_iff _ s.complete_iff.symm

end Segment

namespace Parser

open Grammar

/-- What a list keeps of a piece and what it reports: the tree of an expression, and one error for
anything else. -/
inductive Found (s : Segment) : Option (Expr Span) → List SyntaxError → Prop
  | whole {e} : Sentence s.tokens e → Found s (some e) []
  | broken {kept error} : ¬ s.Complete → (∃ t ∈ s.written, error.span = t.span) →
      Found s kept [error]

section Turn

variable {closer : Kind} {mark : Token} (rest : List Token)

theorem skipTo_flat {vs : List Token} (hflat : Flat vs)
    (hmark : mark.kind = .comma ∨ mark.kind = closer) (hcloser : closer.isMark = true) :
    skipTo closer 0 (vs ++ mark :: rest) = mark :: rest := by
  induction vs with
  | nil => simp [skipTo, skipOver?, hmark]
  | cons t vs ih =>
    have hkind := hflat t List.mem_cons_self
    simp only [List.mem_cons, List.not_mem_nil, or_false, not_or] at hkind
    have hne : t.kind ≠ closer := by
      rintro rfl
      simp [hflat.isMark_eq_false List.mem_cons_self] at hcloser
    have hover : skipOver? closer 0 t = some 0 := by
      simp only [skipOver?, hkind, hne, or_self, and_false, ↓reduceIte]
      split <;> simp_all
    rw [List.cons_append, skipTo, hover]
    exact ih hflat.tail

def afterMark (mark : Token) (rest : List Token) : List Token :=
  if mark.kind = .comma then rest else mark :: rest

theorem separator_mark (stop : Span) (hmark : mark.kind = .comma ∨ mark.kind = closer) :
    separator stop closer (mark :: rest) = ⟨some (), afterMark mark rest, []⟩ := by
  by_cases hcomma : mark.kind = .comma
  · simp [separator, current, hcomma, afterMark]
  · have hclose := hmark.resolve_left hcomma
    subst hclose
    simp [separator, current, hcomma, afterMark]

theorem separator_flat (stop : Span) {t : Token} {vs : List Token} (hflat : Flat (t :: vs))
    (hmark : mark.kind = .comma ∨ mark.kind = closer) (hcloser : closer.isMark = true) :
    separator stop closer (t :: vs ++ mark :: rest) =
      ⟨some (), afterMark mark rest, [⟨.expectedSeparator closer t.toLexeme, t.span⟩]⟩ := by
  have hcomma : t.kind ≠ .comma := fun h => by
    simpa [h, Kind.isMark] using hflat.isMark_eq_false List.mem_cons_self
  have hne : t.kind ≠ closer := by
    rintro rfl
    simp [hflat.isMark_eq_false List.mem_cons_self] at hcloser
  have hskip := skipTo_flat rest hflat hmark hcloser
  rw [List.cons_append] at hskip ⊢
  unfold separator
  simp only [current, List.headD_cons, hcomma, hne, ↓reduceIte, hskip, List.drop_succ_cons,
    List.drop_zero, afterMark]

end Turn

section Piece

variable (stop : Span) {levels : Nat} {s : Segment} {rest : List Token}

/-- A piece that is an expression is read as one, unless something nests too deeply. -/
theorem run_of_sentence (hmark : s.mark.kind.isMark = true) {e : Expr Span}
    (he : Sentence s.tokens e)
    (hover : ¬ Overflows
      ((Nested.ofLevels stop levels).run 0 (s.tokens ++ s.mark :: rest)).errors) :
    (Nested.ofLevels stop levels).run 0 (s.tokens ++ s.mark :: rest) =
      ⟨some (sized e), s.mark :: rest, []⟩ := by
  have hstops : Stops 0 (s.mark :: rest) := by
    rw [stops_cons]
    cases hk : s.mark.kind <;> simp [hk, Kind.isMark] at hmark <;> rfl
  exact ((ofLevels_complete stop levels maxDepth).reads he.1 hstops).resolve_right
    fun h => hover h.1

/-- One turn of the loop over the elements of a list takes one piece. -/
theorem found_segment (hlevels : levels ≤ maxDepth) {closer : Kind}
    (hcloser : closer.isMark = true) (hmark : s.mark.kind = .comma ∨ s.mark.kind = closer) :
    let item := (Nested.ofLevels stop levels).run 0 (s.tokens ++ s.mark :: rest)
    let sep := separator stop closer (afterElement closer item)
    ¬ Overflows item.errors →
      sep.rest = afterMark s.mark rest ∧
        Found s (item.value.map (·.tree)) (item.errors ++ sep.errors) := by
  intro item sep hover
  have hisMark : s.mark.kind.isMark = true := by
    rcases hmark with h | h
    · rw [h, Kind.isMark]
    · rw [h, hcloser]
  by_cases hcomplete : s.Complete
  · obtain ⟨e, he⟩ := hcomplete
    have hitem : item = ⟨some (sized e), s.mark :: rest, []⟩ :=
      run_of_sentence stop hisMark he hover
    have hsep : sep = ⟨some (), afterMark s.mark rest, []⟩ := by
      simp [sep, hitem, afterElement, separator_mark rest stop hmark]
    simpa [hitem, hsep, sized] using Found.whole he
  · obtain ⟨⟨vs, hvs, hrest⟩, ⟨⟨tree, htree⟩, herrors⟩ | ⟨hvalue, error, herror, hpoints⟩⟩ :=
      Nested.confines_ofLevels stop levels 0 s.tokens s.mark rest s.flat hisMark
    · have hafter : afterElement closer item = vs ++ s.mark :: rest := by
        simp [afterElement, item, htree, hrest]
      cases vs with
      | nil => exact absurd (exists_sentence_of_run stop hlevels herrors hrest) hcomplete
      | cons t vs =>
        have hsep : sep = ⟨some (), afterMark s.mark rest,
            [⟨.expectedSeparator closer t.toLexeme, t.span⟩]⟩ := by
          simp only [sep, hafter, separator_flat rest stop (s.flat.of_suffix hvs) hmark hcloser]
        have ht : t ∈ s.written := List.mem_append_left _ (hvs.subset List.mem_cons_self)
        simpa [item, herrors, hsep] using Found.broken hcomplete ⟨t, ht, rfl⟩
    · have hafter : afterElement closer item = s.mark :: rest := by
        simp [afterElement, item, hvalue, hrest,
          skipTo_flat rest (s.flat.of_suffix hvs) hmark hcloser]
      have hsep : sep = ⟨some (), afterMark s.mark rest, []⟩ := by
        simp only [sep, hafter, separator_mark rest stop hmark]
      have hplace : ∃ t ∈ s.written, error.span = t.span := by
        refine hpoints.resolve_left fun hdeep => hover ⟨error, ?_, hdeep⟩
        simp [item, herror]
      simpa [item, herror, hsep] using Found.broken hcomplete hplace

end Piece

inductive Recovers : List Segment → List (Expr Span) → List SyntaxError → Prop
  | nil : Recovers [] [] []
  | cons {s segments kept errors es more} : Found s kept errors → Recovers segments es more →
      Recovers (s :: segments) (kept.toList ++ es) (errors ++ more)

/-- The pieces of a list: all but the last end with a comma, and the last with the closing
bracket. -/
inductive Listed (closing : Token) : List Segment → Prop
  | last {s} : s.mark = closing → Listed closing [s]
  | cons {s segments} : s.mark.kind = .comma → Listed closing segments →
      Listed closing (s :: segments)

/-- The pieces that have to be elements: nothing needs to stand before the closing bracket. -/
def counted : List Segment → List Segment
  | [] => []
  | [s] => if s.tokens = [] then [] else [s]
  | s :: segments => s :: counted segments

theorem counted_cons {closing : Token} {s : Segment} {segments : List Segment}
    (h : Listed closing segments) : counted (s :: segments) = s :: counted segments := by
  cases h <;> rfl

section Elements

variable (stop : Span) {levels : Nat} (hlevels : levels ≤ maxDepth) {closing : Token}
  (hclosing : closing.kind = .rparen ∨ closing.kind = .rbracket)
include hlevels hclosing

omit hlevels in
/-- A list does not end at the first token of a piece that has to be an element. -/
theorem exists_head_ne (s : Segment) (hopen : s.tokens ≠ [] ∨ s.mark.kind = .comma)
    (rest : List Token) :
    ∃ t ts, s.tokens ++ s.mark :: rest = t :: ts ∧ t.kind ≠ closing.kind := by
  cases htokens : s.tokens with
  | nil =>
    refine ⟨s.mark, rest, rfl, ?_⟩
    rw [hopen.resolve_left (by simp [htokens])]
    rcases hclosing with h | h <;> rw [h] <;> decide
  | cons t ts =>
    refine ⟨t, ts ++ s.mark :: rest, rfl, fun h => ?_⟩
    have hflat := s.flat.isMark_eq_false (t := t) (by simp [htokens])
    rcases hclosing with hk | hk <;> simp [h, hk, Kind.isMark] at hflat

/-- A piece that has to be an element is one turn of the loop over the elements. -/
theorem elements_segment (s : Segment) (hmark : s.mark.kind = .comma ∨ s.mark.kind = closing.kind)
    (hopen : s.tokens ≠ [] ∨ s.mark.kind = .comma) (rest : List Token)
    (hover : ¬ Overflows (elements stop (Nested.ofLevels stop levels) closing.kind
      (s.tokens ++ s.mark :: rest)).errors) :
    let more := elements stop (Nested.ofLevels stop levels) closing.kind (afterMark s.mark rest)
    ∃ (kept : Option Subtree) (errors : List SyntaxError),
      Found s (kept.map (·.tree)) errors ∧
      elements stop (Nested.ofLevels stop levels) closing.kind (s.tokens ++ s.mark :: rest) =
        ⟨kept.toList ++ more.items, more.rest, errors ++ more.errors⟩ := by
  have hcloser : closing.kind.isMark = true := by
    rcases hclosing with h | h <;> rw [h, Kind.isMark]
  obtain ⟨t, ts, htokens, hne⟩ := exists_head_ne hclosing s hopen rest
  have hturn (inner : Nested) : elements stop inner closing.kind (s.tokens ++ s.mark :: rest) = _ :=
    htokens ▸ elements_cons_of_ne stop inner ts hne
  rw [hturn] at hover ⊢
  obtain ⟨hrest, hfound⟩ := found_segment stop hlevels hcloser hmark
    fun h => hover (h.append_left _)
  exact ⟨_, _, hfound, by simp only [hrest, List.append_assoc]⟩

/-- The loop over the elements takes the pieces one by one and stops at the closing bracket. -/
theorem elements_segments {segments : List Segment} (h : Listed closing segments)
    (hover : ¬ Overflows (elements stop (Nested.ofLevels stop levels) closing.kind
      (segments.flatMap Segment.written)).errors) :
    let found := elements stop (Nested.ofLevels stop levels) closing.kind
      (segments.flatMap Segment.written)
    found.rest = [closing] ∧
      Recovers (counted segments) (found.items.map (·.tree)) found.errors := by
  have hend : elements stop (Nested.ofLevels stop levels) closing.kind [closing] =
      ⟨[], [closing], []⟩ :=
    elements_cons_of_eq stop _ [] rfl
  induction h with
  | @last s hmark =>
    subst hmark
    simp only [List.flatMap_cons, List.flatMap_nil, List.append_nil, Segment.written] at hover ⊢
    by_cases hempty : s.tokens = []
    · simpa [hempty, hend, counted] using Recovers.nil
    · obtain ⟨kept, errors, hfound, heq⟩ :=
        elements_segment stop hlevels hclosing s (.inr rfl) (.inl hempty) [] hover
      have hafter : afterMark s.mark [] = [s.mark] := by
        rcases hclosing with h | h <;> simp [afterMark, h]
      rw [heq, hafter, hend]
      simpa [counted, hempty, Option.toList_map] using Recovers.cons hfound .nil
  | @cons s segments hmark h ih =>
    simp only [List.flatMap_cons, Segment.written, List.append_assoc, List.cons_append,
      List.nil_append] at hover ⊢
    obtain ⟨kept, errors, hfound, heq⟩ :=
      elements_segment stop hlevels hclosing s (.inl hmark) (.inr hmark) _ hover
    have hafter (rest : List Token) : afterMark s.mark rest = rest := by simp [afterMark, hmark]
    rw [hafter] at heq
    rw [heq] at hover ⊢
    obtain ⟨hrest, hrecovers⟩ := ih fun hdeep => hover (hdeep.append_right _)
    refine ⟨hrest, ?_⟩
    rw [counted_cons h]
    simpa [Option.toList_map] using Recovers.cons hfound hrecovers

end Elements

/-- The tokens that open a list, the bracket that closes it, and the node of its elements. -/
inductive ListForm : List Token → Token → (List (Expr Span) → Expr Span) → Prop
  | array {bracket closing} : bracket.kind = .lbracket → closing.kind = .rbracket →
      ListForm [bracket] closing (.array (bracket.span.join closing.span))
  | call {name paren closing} : name.kind = .ident → paren.kind = .lparen →
      closing.kind = .rparen → ListForm [name, paren] closing
        (.call (name.span.join closing.span) (.ident name.span name.literal))

section Lists

variable {opening : List Token} {closing : Token} {node : List (Expr Span) → Expr Span}

theorem ListForm.closing_kind (h : ListForm opening closing node) :
    closing.kind = .rparen ∨ closing.kind = .rbracket := by
  cases h with
  | array _ hclose => exact .inr hclose
  | call _ _ hclose => exact .inl hclose

/-- An opening is followed by a list, and then by what may extend the node of the list. -/
theorem ListForm.run_eq (h : ListForm opening closing node) (stop : Span) (inner : Nested)
    (body : List Token) :
    let list := list stop inner closing.kind body
    ∃ s : Subtree, (Nested.around stop inner).run 0 (opening ++ body) =
        (let out := climb stop inner 0 s list.rest
        ⟨out.value, out.rest, list.errors ++ out.errors⟩) ∧
      ∀ items, list.value = some (items, some closing.span) →
        s.tree = node (items.map (·.tree)) := by
  obtain ⟨⟨items, close⟩, hvalue⟩ : ∃ pair, (list stop inner closing.kind body).value = some pair :=
    ⟨_, rfl⟩
  cases h with
  | @array bracket _ hopen hclose =>
    rw [hclose] at hvalue ⊢
    refine ⟨⟨.array (bracket.span.join (close.getD bracket.span)) (items.map (·.tree)),
      Subtree.maxHeight items + 1⟩, ?_, ?_⟩
    · have hoperand : (inner.reading stop).operand (bracket :: body) =
          (inner.reading stop).array bracket body := by
        simp [operand_cons, Reading.beginning, hopen]
      change andThen _ _ _ = _
      unfold andThen
      rw [List.singleton_append, hoperand]
      simp [Reading.array, Nested.reading, Nested.steps, bind, andThen, hvalue, pure]
    · intro items' h'
      cases hvalue.symm.trans h'
      rfl
  | @call name paren _ hname hopen hclose =>
    rw [hclose] at hvalue ⊢
    refine ⟨⟨.call (name.span.join (close.getD paren.span)) (.ident name.span name.literal)
      (items.map (·.tree)), max 1 (Subtree.maxHeight items) + 1⟩, ?_, ?_⟩
    · have hoperand : (inner.reading stop).operand (name :: paren :: body) =
          ⟨some ⟨.ident name.span name.literal, 1⟩, paren :: body, []⟩ := by
        simp [operand_cons, Reading.beginning, hname, pure]
      have hcall : (inner.reading stop).continuation 0 ⟨.ident name.span name.literal, 1⟩ paren =
          some ((inner.reading stop).call ⟨.ident name.span name.literal, 1⟩ paren) := by
        simp [Reading.continuation, hopen]
      change andThen _ _ _ = _
      unfold andThen
      rw [List.cons_append, List.singleton_append, hoperand]
      simp only [climb_of_some (show ¬ maxDepth < 1 by decide) hcall]
      simp [Reading.call, Nested.reading, Nested.steps, checkCallable, Expr.isCallable, bind,
        andThen, hvalue, pure, Expr.loc]
    · intro items' h'
      cases hvalue.symm.trans h'
      rfl

/-- A list in which nothing nests too deeply recovers from each piece of its own. -/
theorem ListForm.recovers (h : ListForm opening closing node) {segments : List Segment}
    (hsegments : Listed closing segments) (stop : Span) (levels : Nat) (hlevels : levels ≤ maxDepth)
    (hover : ¬ Overflows ((Nested.ofLevels stop (levels + 1)).run 0
      (opening ++ segments.flatMap Segment.written)).errors) :
    ∃ s es errors, (Nested.ofLevels stop (levels + 1)).run 0
        (opening ++ segments.flatMap Segment.written) = ⟨some s, [], errors⟩ ∧
      s.tree = node es ∧ Recovers (counted segments) es errors := by
  obtain ⟨s, hrun, hnode⟩ :=
    h.run_eq stop (Nested.ofLevels stop levels) (segments.flatMap Segment.written)
  rw [Nested.ofLevels, hrun] at hover ⊢
  obtain ⟨hrest, hrecovers⟩ := elements_segments stop hlevels h.closing_kind hsegments
    fun hdeep => hover ((hdeep.append_left _).append_left _)
  generalize hfound : elements stop (Nested.ofLevels stop levels) closing.kind
    (segments.flatMap Segment.written) = found at hrest hrecovers
  have hlist : list stop (Nested.ofLevels stop levels) closing.kind
      (segments.flatMap Segment.written) =
        ⟨some (found.items, some closing.span), [], found.errors⟩ := by
    simp [list, hfound, hrest, expect]
  simp only [hlist] at hover hnode ⊢
  have hheight : ¬ maxDepth < s.height := by
    intro htall
    refine hover (Overflows.append_right ?_ _)
    rw [climb_of_tall htall]
    exact ⟨_, List.mem_singleton_self _, rfl⟩
  refine ⟨s, _, _, ?_, hnode _ rfl, hrecovers⟩
  rw [climb_of_none hheight (by simp), List.append_nil]

/-- Each broken piece has one error, at one of its tokens or at its mark, and no other errors are
there. -/
theorem Recovers.errors {segments : List Segment} {es : List (Expr Span)}
    {errors : List SyntaxError} (h : Recovers segments es errors) :
    List.Forall₂ (fun s error => ∃ t ∈ s.written, error.span = t.span)
      (segments.filter fun s => ¬ s.Complete) errors := by
  induction h with
  | nil => exact .nil
  | cons hfound _ ih =>
    cases hfound with
    | whole he => simpa [show Segment.Complete _ from ⟨_, he⟩] using ih
    | broken hbroken hplace => simpa [hbroken] using List.Forall₂.cons hplace ih

theorem Recovers.kept {segments : List Segment} {es : List (Expr Span)}
    {errors : List SyntaxError} (h : Recovers segments es errors) :
    ∃ trees, List.Forall₂ (fun s e => Sentence s.tokens e)
      (segments.filter fun s => s.Complete) trees ∧ trees.Sublist es := by
  induction h with
  | nil => exact ⟨[], .nil, .slnil⟩
  | cons hfound _ ih =>
    obtain ⟨trees, htrees, hsub⟩ := ih
    cases hfound with
    | @whole e he =>
      refine ⟨e :: trees, ?_, hsub.cons_cons e⟩
      simpa [show Segment.Complete _ from ⟨_, he⟩] using ⟨he, htrees⟩
    | broken hbroken _ =>
      refine ⟨trees, by simpa [hbroken] using htrees, ?_⟩
      exact hsub.trans (List.sublist_append_right _ _)

end Lists

/-- In a list that is cut into pieces without brackets, and in which nothing nests too deeply, there
is one error for each piece that is not an expression, and the trees of the others are elements. -/
theorem list_recovers_piece_by_piece {source : String} {opening : List Token} {closing : Token}
    {node : List (Expr Span) → Expr Span} {segments : List Segment}
    (hform : ListForm opening closing node) (hsegments : Listed closing segments)
    (htokens : (Lexer.ofText source.toList).tokens = opening ++ segments.flatMap Segment.written)
    (hdepth : ∀ error ∈ (parse source).errors, error.fault ≠ .tooDeep) :
    let broken := (counted segments).filter fun s => ¬ s.Complete
    let whole := (counted segments).filter fun s => s.Complete
    ∃ elements, (parse source).tree = some (node elements) ∧
      (parse source).errors.length = broken.length ∧
      List.Forall₂ (fun s error => ∃ t ∈ s.written, error.span = t.span) broken
        (parse source).errors ∧
      ∃ trees, List.Forall₂ (fun s e => Sentence s.tokens e) whole trees ∧
        trees.Sublist elements := by
  obtain ⟨s, elements, errors, hrun, hnode, hrecovers⟩ :=
    hform.recovers hsegments (Lexer.ofText source.toList).eof.span 255 (by decide) (by
      rw [← htokens]
      rintro ⟨error, hmem, hfault⟩
      exact hdepth error (List.mem_append_left _ hmem) hfault)
  rw [← htokens] at hrun
  have hparse : parse source = ⟨some (node elements), errors⟩ := by
    change Parsed.ofOutcome ((Nested.ofLevels _ (255 + 1)).run 0 _) = _
    simp [hrun, Parsed.ofOutcome, hnode]
  rw [hparse]
  exact ⟨elements, rfl, hrecovers.errors.length_eq.symm, hrecovers.errors, hrecovers.kept⟩

theorem list_recovers_piece_by_piece_mixed :
    let source := "[1 2,,a.#,x]"
    ∃ (bracket closing : Token) (segments : List Segment) (elements : List (Expr Span)),
      (Lexer.ofText source.toList).tokens = [bracket] ++ segments.flatMap Segment.written ∧
      (parse source).tree = some (.array (bracket.span.join closing.span) elements) ∧
      ((counted segments).filter fun s => s.Complete).map Segment.tokens =
        [[⟨⟨.ident, "x"⟩, ⟨10, 11, ⟨1, 11⟩⟩⟩]] ∧
      (∃ trees, List.Forall₂ (fun s e => Sentence s.tokens e)
        ((counted segments).filter fun s => s.Complete) trees ∧ trees.Sublist elements) ∧
      (parse source).errors.length = 3 := by
  let token (kind : Kind) (literal : String) (place : Nat) : Token :=
    ⟨⟨kind, literal⟩, ⟨place, place + 1, ⟨1, place + 1⟩⟩⟩
  let segments : List Segment :=
    [⟨[token .number "1" 1, token .number "2" 3], by decide, token .comma "," 4⟩,
      ⟨[], by decide, token .comma "," 5⟩,
      ⟨[token .ident "a" 6, token .dot "." 7, token .illegal "#" 8], by decide,
        token .comma "," 9⟩,
      ⟨[token .ident "x" 10], by decide, token .rbracket "]" 11⟩]
  have hlisted : Listed (token .rbracket "]" 11) segments :=
    .cons rfl (.cons rfl (.cons rfl (.last rfl)))
  have htokens : (Lexer.ofText "[1 2,,a.#,x]".toList).tokens =
      [token .lbracket "[" 0] ++ segments.flatMap Segment.written := by decide +kernel
  have hdepth : ∀ error ∈ (parse "[1 2,,a.#,x]").errors, error.fault ≠ .tooDeep := by
    decide +kernel
  obtain ⟨elements, htree, hlength, -, hkept⟩ :=
    list_recovers_piece_by_piece (.array rfl rfl) hlisted htokens hdepth
  have hbroken : ((counted segments).filter fun s => ¬ s.Complete).length = 3 := by decide +kernel
  exact ⟨_, _, segments, elements, htokens, htree, by decide +kernel, hkept, hlength.trans hbroken⟩

end Parser

end SchemaExpr
