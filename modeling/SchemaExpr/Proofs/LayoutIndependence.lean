import SchemaExpr.Proofs.LoweringPlaces
import SchemaExpr.Proofs.SpanIndependence
import SchemaExpr.Proofs.TokenPlaces

/-!
# Added layout

Layout may be added to a source at every offset that is not inside a token. What follows a token is
then the same as before up to the first addition, and there it starts with layout, with which no
lexeme goes on; so the token ends where it ended before. Only a string without a closing quote goes
on with whatever comes, and it is the last token. With the same lexemes everything that is made of
them is the same, up to spans.
-/
namespace SchemaExpr

open String (utf8Len)

/-- A text that starts at `offset`, with `added i` before the character at every offset `i`. -/
def spread (added : Nat → List Char) : (offset : Nat) → List Char → List Char
  | _, [] => []
  | offset, c :: cs => added offset ++ c :: spread added (offset + c.utf8Size) cs

/-- The source with `added i` put in at every offset `i`. -/
def withAdded (source : String) (added : Nat → String) : String :=
  String.ofList (spread (fun i => (added i).toList) 0 source.toList) ++ added source.utf8ByteSize

section Spread

variable {added : Nat → List Char}

theorem spread_append (offset : Nat) (cs ds : List Char) : spread added offset (cs ++ ds) =
    spread added offset cs ++ spread added (offset + utf8Len cs) ds := by
  induction cs generalizing offset with
  | nil => rfl
  | cons c cs ih =>
    have hoffset : offset + c.utf8Size + utf8Len cs = offset + utf8Len (c :: cs) := by
      rw [String.utf8Len_cons]
      omega
    rw [List.cons_append, spread, spread, ih, hoffset, List.append_assoc, List.cons_append]

theorem isLayout_of_mem_spread (hadded : ∀ i, ∀ c ∈ added i, isLayout c = true) (offset : Nat)
    {gap : List Char} (hgap : ∀ c ∈ gap, isLayout c = true) :
    ∀ c ∈ spread added offset gap, isLayout c = true := by
  induction gap generalizing offset with
  | nil => simp [spread]
  | cons d gap ih =>
    intro c hc
    rw [spread, List.mem_append, List.mem_cons] at hc
    rcases hc with hc | rfl | hc
    · exact hadded offset c hc
    · exact hgap c List.mem_cons_self
    · exact ih _ (fun c hc => hgap c (List.mem_cons_of_mem d hc)) c hc

/-- A text stays whole if nothing is added inside it. -/
theorem spread_eq_self {offset : Nat} {text : List Char}
    (h : ∀ i, offset ≤ i → i < offset + utf8Len text → added i = []) :
    spread added offset text = text := by
  induction text generalizing offset with
  | nil => rfl
  | cons c text ih =>
    have hsize := c.utf8Size_pos
    rw [String.utf8Len_cons] at h
    have htext : spread added (offset + c.utf8Size) text = text := by
      apply ih
      intro i hlow hhigh
      exact h i (by omega) (by omega)
    rw [spread, h offset (Nat.le_refl _) (by omega), htext, List.nil_append]

theorem spread_token {offset : Nat} {text : List Char} (hne : text ≠ [])
    (h : ∀ i, offset < i → i < offset + utf8Len text → added i = []) :
    spread added offset text = added offset ++ text := by
  cases text with
  | nil => contradiction
  | cons c text =>
    have hsize := c.utf8Size_pos
    rw [String.utf8Len_cons] at h
    have htext : spread added (offset + c.utf8Size) text = text := by
      apply spread_eq_self
      intro i hlow hhigh
      exact h i (by omega) (by omega)
    rw [spread, htext]

/-- Up to the first addition a text is as it was, and there layout follows, or the end. -/
theorem exists_unchanged (hadded : ∀ i, ∀ c ∈ added i, isLayout c = true) (offset : Nat)
    (cs : List Char) : ∃ same before after, cs = same ++ before ∧
      spread added offset cs ++ added (offset + utf8Len cs) = same ++ after ∧
      Scan.Separated after := by
  have hstarts {i : Nat} (rest : List Char) (h : added i ≠ []) :
      Scan.Separated (added i ++ rest) := by
    obtain ⟨d, ds, hds⟩ := List.exists_cons_of_ne_nil h
    have hd := hadded i d (by simp [hds])
    rw [hds, List.cons_append]
    exact Scan.separated_cons.mpr (Scan.separates_of_isLayout hd)
  induction cs generalizing offset with
  | nil =>
    refine ⟨[], [], added offset, rfl, rfl, ?_⟩
    simpa using separated_layout (hadded offset) Scan.separated_nil
  | cons c cs ih =>
    by_cases hnone : added offset = []
    · obtain ⟨same, before, after, hcs, hspread, hseparated⟩ := ih (offset + c.utf8Size)
      refine ⟨c :: same, before, after, by rw [hcs, List.cons_append], ?_, hseparated⟩
      have hoffset : offset + utf8Len (c :: cs) = offset + c.utf8Size + utf8Len cs := by
        rw [String.utf8Len_cons]
        omega
      rw [spread, hnone, hoffset, List.nil_append, List.cons_append, hspread, List.cons_append]
    · refine ⟨[], c :: cs, spread added offset (c :: cs) ++ added _, rfl, rfl, ?_⟩
      rw [spread, List.append_assoc]
      exact hstarts _ hnone

/-- The scanner takes a lexeme also if layout is added after it. -/
theorem Scan.Takes.withLayout {kind : Kind} {text rest : List Char} (h : Takes kind text rest)
    (hadded : ∀ i, ∀ c ∈ added i, isLayout c = true) (offset : Nat)
    (hclosed : kind = .string →
      added (offset + utf8Len rest) = [] ∨ Scan.isTerminated text = true) :
    Takes kind text (spread added offset rest ++ added (offset + utf8Len rest)) := by
  obtain ⟨same, before, after, rfl, hspread, hseparated⟩ := exists_unchanged hadded offset rest
  rw [hspread]
  refine h.replace hseparated fun hkind => ?_
  rcases hclosed hkind with hnone | hterminated
  · cases hrest : same ++ before with
    | nil =>
      rw [hnone, hrest] at hspread
      exact .inl (List.append_eq_nil_iff.mp hspread.symm).2
    | cons d ds =>
      rw [hkind, hrest] at h
      exact .inr h.isTerminated
  · exact .inr hterminated

theorem Fills.withLayout {source : String} {before text rest : List Char} {ts : List Token}
    (h : Fills before text rest ts) (hsource : source.toList = before ++ (text ++ rest))
    (hadded : ∀ i, ∀ c ∈ added i, isLayout c = true)
    (hinside : ∀ t ∈ ts, ∀ i, t.span.start < i → i < t.span.stop → added i = [])
    (hclosed : added source.utf8ByteSize = [] ∨ StringsClosed source ts) (before' : List Char) :
    ∃ ts', Fills before' (spread added (utf8Len before) text)
        (spread added (utf8Len (before ++ text)) rest ++ added source.utf8ByteSize) ts' ∧
      ts'.map (·.toLexeme) = ts.map (·.toLexeme) := by
  induction h generalizing before' with
  | nil => exact ⟨[], .nil, rfl⟩
  | @cons before gap text more rest t ts hgap htakes hliteral hspan _ ih =>
    have hsplit : source.toList = (before ++ gap) ++ (text ++ (more ++ rest)) := by
      simpa using hsource
    have hend : source.utf8ByteSize =
        utf8Len (before ++ (gap ++ text)) + utf8Len (more ++ rest) := by
      rw [← String.utf8Len_toList, hsource]
      simp only [String.utf8Len_append]
      omega
    obtain ⟨ts', hts', hlexemes⟩ := ih (by simpa using hsource)
      (fun u hu => hinside u (List.mem_cons_of_mem t hu))
      (hclosed.imp_right fun h u hu => h u (List.mem_cons_of_mem t hu))
      (before' ++ ((spread added (utf8Len before) gap ++
        added (utf8Len (before ++ gap))) ++ text))
    have htoken : spread added (utf8Len (before ++ gap)) text =
        added (utf8Len (before ++ gap)) ++ text := by
      apply spread_token htakes.ne_nil
      have hhere := hinside t List.mem_cons_self
      rw [hspan] at hhere
      simpa only [Span.placed, String.utf8Len_append] using hhere
    have htext : spread added (utf8Len before) (gap ++ (text ++ more)) =
        (spread added (utf8Len before) gap ++ added (utf8Len (before ++ gap))) ++
          (text ++ spread added (utf8Len (before ++ (gap ++ text))) more) := by
      rw [spread_append, spread_append, ← String.utf8Len_append, htoken, ← String.utf8Len_append]
      simp only [List.append_assoc]
    have hgap' : ∀ c ∈ spread added (utf8Len before) gap ++
        added (utf8Len (before ++ gap)), isLayout c = true := by
      intro c hc
      rcases List.mem_append.mp hc with hc | hc
      · exact isLayout_of_mem_spread hadded _ hgap c hc
      · exact hadded _ c hc
    have htakes' := htakes.withLayout hadded (utf8Len (before ++ (gap ++ text))) fun hkind => by
      rw [← hend]
      refine hclosed.imp_right fun h => ?_
      have hterminated := h t List.mem_cons_self hkind
      rwa [hspan, Span.text_placed hsplit, String.toList_ofList] at hterminated
    rw [← hend, spread_append, ← String.utf8Len_append] at htakes'
    refine ⟨⟨t.toLexeme, Span.placed (before' ++ (spread added (utf8Len before) gap ++
      added (utf8Len (before ++ gap)))) text⟩ :: ts', ?_, by simp [hlexemes]⟩
    rw [htext]
    refine .cons hgap' ?_ hliteral rfl ?_
    · simpa using htakes'
    · simpa using hts'

end Spread

section Compilation

def SyntaxError.unplaced (e : SyntaxError) : SyntaxError := ⟨e.fault, Span.origin⟩

def Error.unplaced : Error → Error
  | malformed errors => malformed (errors.map SyntaxError.unplaced)
  | lowering error => lowering error.unplaced
  | engine message => engine message
  | settings message path => settings message path

variable {R : Span → Span → Prop}

theorem map_unplaced_eq {errors errors' : List SyntaxError}
    (h : List.Forall₂ (SyntaxError.Alike R) errors errors') :
    errors.map SyntaxError.unplaced = errors'.map SyntaxError.unplaced := by
  have hfaults := congrArg (List.map fun fault => SyntaxError.mk fault Span.origin) (map_fault_eq h)
  rw [List.map_map, List.map_map] at hfaults
  exact hfaults

/-- What is found alike is accepted with trees of one shape, or refused with errors that differ only
in their places. -/
theorem Parsed.Alike.toExcept {found found' : Parsed} (h : found.Alike R found') :
    (∃ e e', found.toExcept = .ok e ∧ found'.toExcept = .ok e' ∧ e.bare = e'.bare) ∨
      ∃ errors errors', found.toExcept = .error errors ∧ found'.toExcept = .error errors' ∧
        errors.map SyntaxError.unplaced = errors'.map SyntaxError.unplaced := by
  obtain ⟨tree, errors⟩ := found
  obtain ⟨tree', errors'⟩ := found'
  obtain ⟨htree, herrors⟩ := h
  have hunplaced := map_unplaced_eq herrors
  cases herrors with
  | nil =>
    rcases rel_cases htree with ⟨rfl, rfl⟩ | ⟨e, e', rfl, rfl, halike⟩
    · exact .inr ⟨_, _, rfl, rfl, rfl⟩
    · exact .inl ⟨e, e', rfl, rfl, halike.shape⟩
  | @cons error error' rest rest' _ _ =>
    refine .inr ⟨error :: rest, error' :: rest', ?_, ?_, hunplaced⟩
    · cases tree <;> rfl
    · cases tree' <;> rfl

theorem compileToTarget_of_ok {source : String} {e : Expr Span}
    (h : (parse source).toExcept = .ok e) :
    (compileToTarget source).mapError Error.unplaced =
      ((Target.lower e).mapError LowerError.unplaced).mapError .lowering := by
  unfold compileToTarget readExpr
  rw [h]
  change ((Target.lower e).mapError Error.lowering).mapError Error.unplaced = _
  cases Target.lower e <;> rfl

theorem compileToTarget_of_error {source : String} {errors : List SyntaxError}
    (h : (parse source).toExcept = .error errors) :
    (compileToTarget source).mapError Error.unplaced =
      .error (.malformed (errors.map SyntaxError.unplaced)) := by
  unfold compileToTarget readExpr
  rw [h]
  rfl

theorem compileToTarget_alike {source source' : String}
    (h : (parse source).Alike R (parse source')) :
    (compileToTarget source).mapError Error.unplaced =
      (compileToTarget source').mapError Error.unplaced := by
  rcases h.toExcept with ⟨e, e', hok, hok', hbare⟩ | ⟨errors, errors', herror, herror', hunplaced⟩
  · rw [compileToTarget_of_ok hok, compileToTarget_of_ok hok', Target.lower_eq_of_bare hbare]
  · rw [compileToTarget_of_error herror, compileToTarget_of_error herror', hunplaced]

end Compilation

/-- All that is made of the sources is the same, up to spans. -/
structure AlikeUpToSpans (source source' : String) : Prop where
  lexemes : (tokenize source).map (·.toLexeme) = (tokenize source').map (·.toLexeme)
  tree : (parse source).tree.map Expr.bare = (parse source').tree.map Expr.bare
  messages : (parse source).errors.map (·.message) = (parse source').errors.map (·.message)
  target : (compileToTarget source).mapError Error.unplaced =
    (compileToTarget source').mapError Error.unplaced

/-- Sources with the same lexemes are read and compiled alike. -/
theorem alikeUpToSpans_of_lexemes {source source' : String}
    (h : lexemes source.toList = lexemes source'.toList) : AlikeUpToSpans source source' := by
  have hjoins : Joins fun _ _ => True := fun _ _ _ _ _ _ => trivial
  have halike : (parse source).Alike (fun _ _ => True) (parse source') :=
    parse_alike hjoins trivial (alike_of_lexemes h)
  constructor
  · rw [tokenize, tokenize, List.map_append, List.map_append]
    exact congrArg (· ++ [Lexeme.eof]) h
  · rcases rel_cases halike.tree with ⟨htree, htree'⟩ | ⟨e, e', htree, htree', hshape⟩
    · rw [htree, htree']
    · rw [htree, htree']
      exact congrArg some hshape.shape
  · have hfaults := congrArg (List.map Fault.message) (map_fault_eq halike.errors)
    rw [List.map_map, List.map_map] at hfaults
    exact hfaults
  · exact compileToTarget_alike halike

/-- Layout that is added anywhere but inside a token, and not after a string that lacks its closing
quote, changes nothing but spans. -/
theorem layout_does_not_matter {source : String} {added : Nat → String}
    (hlayout : ∀ i, ∀ c ∈ (added i).toList, c ∈ [' ', '\t', '\r', '\n'])
    (hbetween : ∀ t ∈ tokenize source, ∀ i, t.span.start < i → i < t.span.stop → added i = "")
    (hopen : ∀ t ∈ (tokenize source).dropLast.getLast?, t.kind = .string →
      Scan.isTerminated (t.span.text source).toList = false → added source.utf8ByteSize = "") :
    AlikeUpToSpans source (withAdded source added) := by
  obtain ⟨text, tail, hsource, htail, hfills⟩ := tokenize_fills source
  have hadded : ∀ i, ∀ c ∈ (added i).toList, isLayout c = true := by
    intro i c hc
    simpa [isLayout, or_assoc] using hlayout i c hc
  have hinside : ∀ t ∈ (Lexer.ofText source.toList).tokens, ∀ i, t.span.start < i →
      i < t.span.stop → (added i).toList = [] := by
    intro t ht i hstart hstop
    rw [hbetween t (mem_tokenize.mpr (.inl ht)) i hstart hstop]
    rfl
  have hclosed : (added source.utf8ByteSize).toList = [] ∨
      StringsClosed source (Lexer.ofText source.toList).tokens := by
    by_cases hnone : added source.utf8ByteSize = ""
    · rw [hnone]
      exact .inl rfl
    · right
      refine hfills.stringsClosed hsource fun _ t ht hkind => ?_
      rw [← dropLast_tokenize] at ht
      by_contra hterminated
      exact hnone (hopen t ht hkind (Bool.eq_false_iff.mpr hterminated))
  obtain ⟨ts, hts, hlexemes⟩ := hfills.withLayout hsource hadded hinside hclosed []
  have hspread : (withAdded source added).toList =
      spread (fun i => (added i).toList) 0 text ++
        (spread (fun i => (added i).toList) (utf8Len text) tail ++
          (added source.utf8ByteSize).toList) := by
    rw [withAdded, String.toList_append, String.toList_ofList, hsource, spread_append,
      List.append_assoc, Nat.zero_add]
  have hrest : ∀ c ∈ spread (fun i => (added i).toList) (utf8Len text) tail ++
      (added source.utf8ByteSize).toList, isLayout c = true := by
    intro c hc
    rcases List.mem_append.mp hc with hc | hc
    · exact isLayout_of_mem_spread hadded _ htail c hc
    · exact hadded _ c hc
  have hnone : lexemes (spread (fun i => (added i).toList) (utf8Len text) tail ++
      (added source.utf8ByteSize).toList) = [] := by
    simpa using lexemes_gap hrest []
  apply alikeUpToSpans_of_lexemes
  have hall := hts.lexemes_eq
  rw [String.utf8Len_nil, List.nil_append, hlexemes, hnone, List.append_nil] at hall
  rw [hspread, hall]
  rfl

theorem layout_does_not_matter_adjacent : ∃ (source : String) (added : Nat → String),
    (∀ i, ∀ c ∈ (added i).toList, c ∈ [' ', '\t', '\r', '\n']) ∧
    (∀ t ∈ tokenize source, ∀ i, t.span.start < i → i < t.span.stop → added i = "") ∧
    (∀ t ∈ (tokenize source).dropLast.getLast?, t.kind = .string →
      Scan.isTerminated (t.span.text source).toList = false → added source.utf8ByteSize = "") ∧
    withAdded source added = " \t\r\n0b1 \t\r\n2<< \t\r\n<'é " ∧
    AlikeUpToSpans source (withAdded source added) := by
  have hlayout : ∀ i, ∀ c ∈ (if i ∈ [0, 3, 6] then " \t\r\n" else "").toList,
      c ∈ [' ', '\t', '\r', '\n'] := by
    have hall : " \t\r\n".toList.all (fun c => [' ', '\t', '\r', '\n'].contains c) = true := by
      decide
    intro i c hc
    split_ifs at hc
    · simpa using List.all_eq_true.mp hall c hc
    · cases hc
  have hbetween : ∀ t ∈ tokenize "0b12<<<'é ", ∀ i, t.span.start < i → i < t.span.stop →
      (if i ∈ [0, 3, 6] then " \t\r\n" else "") = "" := by
    have hplaces : ∀ t ∈ tokenize "0b12<<<'é ", ∀ i ∈ [0, 3, 6],
        ¬ (t.span.start < i ∧ i < t.span.stop) := by decide +kernel
    intro t ht i hstart hstop
    exact if_neg fun hi => hplaces t ht i hi ⟨hstart, hstop⟩
  have hopen : ∀ t ∈ (tokenize "0b12<<<'é ").dropLast.getLast?, t.kind = .string →
      Scan.isTerminated (t.span.text "0b12<<<'é ").toList = false →
        (if "0b12<<<'é ".utf8ByteSize ∈ [0, 3, 6] then " \t\r\n" else "") = "" :=
    fun _ _ _ _ => by decide
  exact ⟨"0b12<<<'é ", fun i => if i ∈ [0, 3, 6] then " \t\r\n" else "", hlayout, hbetween, hopen,
    by decide +kernel, layout_does_not_matter hlayout hbetween hopen⟩

end SchemaExpr
