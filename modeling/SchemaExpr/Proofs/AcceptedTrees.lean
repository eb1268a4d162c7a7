import SchemaExpr.Proofs.GreedyScans
import SchemaExpr.Proofs.LoweringFailures
import SchemaExpr.Proofs.Subphrases

/-!
# What accepted trees are made of

The emitter writes names, types and numbers as they stand in the tree, and has a form only for calls
of a name or a member. A source without syntax errors gives it a tree in which that is safe at every
node: keywords never reach a place where a name is expected, and a call whose callee has no name is
reported although it is built. So the emitter's error for such calls is not an answer to any source.
-/
namespace SchemaExpr

def keywordTexts : List String := ["true", "false", "null", "sizeof", "alignof", "as"]

/-- The words that are not identifiers: the keywords and the special variables. -/
def reservedTexts : List String :=
  keywordTexts ++ ["self", "_", "_io", "_parent", "_root", "_bytes_remaining"]

/-- A text of the identifier pattern that is not one of the words. -/
def IsIdentifier (excluded : List String) (name : String) : Prop :=
  name.toList ∈ Pattern.ident.language ∧ name ∉ excluded

theorem mem_ident_of_isWord {w : List Char} (h : Scan.IsWord w) : w ∈ Pattern.ident.language := by
  cases w with
  | nil => exact h.elim
  | cons c u => exact Scan.mem_ident.mpr ⟨c, u, rfl, h.1, Scan.mem_wordTails.mpr h.2⟩

theorem IsName.isIdentifier {name : String} (h : IsName name) :
    IsIdentifier reservedTexts name := by
  have hreserved : ∀ word ∈ reservedTexts, Scan.wordKind word.toList ≠ .ident := by decide
  exact ⟨mem_ident_of_isWord h.1, fun hmem => hreserved name hmem h.2⟩

theorem IsMember.isIdentifier {name : String} (h : IsMember name) :
    IsIdentifier keywordTexts name := by
  have hkeywords : ∀ word ∈ keywordTexts, ¬ (Scan.wordKind word.toList = .ident ∨
      (Scan.wordKind word.toList).isSpecial = true) := by decide
  exact ⟨mem_ident_of_isWord h.1, fun hmem => hkeywords name hmem h.2⟩

namespace Expr

variable {ι : Type}

def Addressed : Expr ι → Prop
  | call _ callee _ => callee.isCallable = true
  | cast _ _ type _ => IsName type
  | _ => True

theorem addressed_withLoc (l : ι) (e : Expr ι) : (e.withLoc l).Addressed ↔ e.Addressed := by
  cases e <;> rfl

/-- What a node of a source without errors holds. -/
def Sourced (e : Expr ι) : Prop := e.Spellable ∧ e.Addressed

/-- What the emitter relies on at a node. -/
def Dependable : Expr ι → Prop
  | call _ callee _ => (∃ l name, callee = ident l name) ∨
      ∃ l object name nameLoc, callee = attr l object name nameLoc
  | ident _ name => IsIdentifier reservedTexts name
  | attr _ _ name _ => IsIdentifier keywordTexts name
  | cast _ _ type _ => IsIdentifier reservedTexts type
  | float _ value => value.isFinite = true ∧ value.negative = false
  | _ => True

theorem dependable_of_spellable {e : Expr ι} (hspellable : e.Spellable) (haddressed : e.Addressed) :
    e.Dependable := by
  cases e with
  | ident l name => exact IsName.isIdentifier hspellable
  | attr l object name nameLoc => exact IsMember.isIdentifier hspellable
  | cast l operand type typeLoc => exact IsName.isIdentifier haddressed
  | float l value => exact hspellable
  | call l callee args =>
    cases callee with
    | ident l name => exact .inl ⟨l, name, rfl⟩
    | attr l object name nameLoc => exact .inr ⟨l, object, name, nameLoc, rfl⟩
    | _ => cases haddressed
  | _ => trivial

theorem Dependable.isCallable {l : ι} {callee : Expr ι} {args : List (Expr ι)}
    (h : (call l callee args).Dependable) : callee.isCallable = true := by
  rcases h with ⟨_, _, rfl⟩ | ⟨_, _, _, _, rfl⟩ <;> rfl

/-- A walk visits nodes of the tree only. -/
theorem Every.of_mem_visited {p : Expr ι → Prop} {cut : Expr ι → Bool} {e : Expr ι}
    (h : e.Every p) : ∀ x ∈ e.visited cut, p x := by
  induction e using induction_operands with
  | step e ih =>
    intro x hx
    rw [visited_eq] at hx
    rcases List.mem_cons.mp hx with rfl | hx
    · exact h.here
    · split at hx
      · cases hx
      · obtain ⟨y, hy, hx⟩ := List.mem_flatMap.mp hx
        exact ih y hy (h.operand hy) x hx

end Expr

namespace Grammar

open Expr

def Addresses (g : Language) : Prop :=
  ∀ {k : Nat} {ts : List Token} {e : Expr Span}, g k ts e → (∀ t ∈ ts, t.Genuine) → e.Addressed

variable {g : Language}

theorem Primary.addressed (hg : Addresses g) {ts : List Token} {e : Expr Span}
    (h : Primary g ts e) (hts : ∀ t ∈ ts, t.Genuine) : e.Addressed := by
  cases h with
  | @leaf t e h =>
    unfold leaf? at h
    grind [Addressed]
  | group _ h _ =>
    exact (addressed_withLoc _ _).mpr (hg h fun t ht => hts t (by simp [ht]))
  | array | sizeof | alignof => trivial

theorem Chain.addressed (hg : Addresses g) {ts : List Token} {e : Expr Span}
    (h : Chain g ts e) (hts : ∀ t ∈ ts, t.Genuine) : e.Addressed := by
  cases h with
  | primary h => exact h.addressed hg hts
  | member | index => trivial
  | @cast _ _ _ _ _ type _ _ _ _ _ _ _ htype =>
    obtain ⟨hword, hkind⟩ := hts type (by simp) (.inl htype)
    exact ⟨hword, hkind.trans htype⟩
  | call _ hcallable => exact hcallable

theorem Phrase.addressed (hg : Addresses g) : Addresses (Phrase g) := by
  intro k ts e h hts
  induction h with
  | chain h => exact h.addressed hg hts
  | tighter _ _ ih => exact ih hts
  | unary | binary | ternary => trivial

theorem Derives.addressed (levels : Nat) : Addresses (Derives levels) := by
  induction levels with
  | zero => exact fun h => h.elim
  | succ levels ih => exact Phrase.addressed ih

/-- Every node of a phrase is the root of a phrase of its own tokens. -/
theorem Derives.every_addressed {levels k : Nat} {ts : List Token} {e : Expr Span}
    (h : Derives levels k ts e) (hts : ∀ t ∈ ts, t.Genuine) : e.Every Addressed := by
  apply ((Derives.roomy levels).locate h).mono
  rintro n ⟨before, mid, after, rfl, hmid, -⟩
  exact Derives.addressed levels hmid fun t ht => hts t (by simp [ht])

end Grammar

theorem sourced_of_parse {source : String} (h : (parse source).errors = []) :
    ∃ e, (parse source).tree = some e ∧ e.Every Expr.Sourced := by
  obtain ⟨e, htree, hsentence⟩ := Grammar.sentence_of_parse h
  have hgenuine : ∀ t ∈ (Lexer.ofText source.toList).tokens, t.Genuine :=
    fun t ht => genuine_of_mem_tokens ht
  have hspelled := Grammar.Derives.spelled maxDepth hsentence.1 hgenuine
  have haddressed := Grammar.Derives.every_addressed hsentence.1 hgenuine
  exact ⟨e, htree, hspelled.and haddressed⟩

theorem dependable_of_parse {source : String} (h : (parse source).errors = []) :
    ∃ e, (parse source).tree = some e ∧ e.Every Expr.Dependable := by
  obtain ⟨e, htree, hsourced⟩ := sourced_of_parse h
  exact ⟨e, htree, hsourced.mono fun n hn => Expr.dependable_of_spellable hn.1 hn.2⟩

namespace Target

theorem text_ne_of_refusal {e : Expr Span} {what : Construct} {span : Span} (h : e.Dependable)
    (hrefusal : refusal? e = some (.unsupported what span)) : what.text ≠ Construct.call.text := by
  obtain ⟨payload, hrefused⟩ : ∃ payload, Refused e (.unsupported what span) payload :=
    ⟨_, refused_iff.mpr ⟨hrefusal, rfl⟩⟩
  cases hrefused with
  | alignof => decide +kernel
  | @negated _ _ n _ =>
    have hopens : ∀ s t : String, s.toList <+: (s ++ t).toList := by simp
    intro htext
    have hcall : "negative literal -".toList <+: Construct.call.text.toList := by
      rw [← htext]
      exact hopens "negative literal -" (toString n)
    exact absurd hcall (by decide +kernel)
  | call hcallee => simp [h.isCallable] at hcallee

theorem text_ne_of_lower {e : Expr Span} {what : Construct} {span : Span}
    (h : e.Every Expr.Dependable) (hlower : lower e = .error (.unsupported what span)) :
    what.text ≠ Construct.call.text := by
  obtain ⟨x, hx, hrefusal⟩ := List.exists_of_findSome?_eq_some (lower_eq_error_iff.mp hlower)
  exact text_ne_of_refusal (h.of_mem_visited x hx) hrefusal

end Target

/-- An error of the second step is that of lowering the tree of the source. -/
theorem exists_lower_of_compileToTarget {source : String} {error : LowerError}
    (h : compileToTarget source = .error (.lowering error)) :
    ∃ e, readExpr source = .ok e ∧ Target.lower e = .error error := by
  cases hread : readExpr source with
  | error failure =>
    have hkind : ∃ errors, failure = .malformed errors := by
      unfold readExpr at hread
      cases hparse : (parse source).toExcept with
      | error errors => exact ⟨errors, by simpa [hparse, Except.mapError, eq_comm] using hread⟩
      | ok e => simp [hparse, Except.mapError] at hread
    obtain ⟨errors, rfl⟩ := hkind
    rw [compileToTarget, hread] at h
    cases h
  | ok e =>
    rw [compileToTarget, hread] at h
    refine ⟨e, rfl, ?_⟩
    cases hlower : Target.lower e with
    | error failure => simpa [hlower, Except.mapError, bind, Except.bind] using h
    | ok text => simp [hlower, Except.mapError, bind, Except.bind] at h

/-- Every node of a tree that is accepted is as the emitter relies on, and no source is answered
with the error for calls of what has no name. -/
theorem accepted_trees_suit_the_emitter (source : String) :
    ((parse source).errors = [] →
      ∃ e, (parse source).tree = some e ∧ e.Every Expr.Dependable) ∧
    ∀ what span, compileToTarget source = .error (.lowering (.unsupported what span)) →
      what.text ≠ "call of a non-callable expression" := by
  refine ⟨dependable_of_parse, ?_⟩
  intro what span hcompile
  obtain ⟨e, hread, hlower⟩ := exists_lower_of_compileToTarget hcompile
  obtain ⟨herrors, htree⟩ := parse_of_readExpr hread
  obtain ⟨e', htree', he⟩ := dependable_of_parse herrors
  obtain rfl : e' = e := by simpa [htree'] using htree
  exact Target.text_ne_of_lower he hlower

theorem accepted_trees_suit_the_emitter_grouped_callee :
    ((parse "(a._io)(1e3, sizeof(b).as<T>())").errors = [] ∧
      ∃ e, (parse "(a._io)(1e3, sizeof(b).as<T>())").tree = some e ∧ e.Every Expr.Dependable) ∧
    compileToTarget "f(alignof(x))" = .error (.lowering (.unsupported .alignof ⟨2, 12, ⟨1, 3⟩⟩)) ∧
    Construct.alignof.text ≠ "call of a non-callable expression" := by
  have herrors : (parse "(a._io)(1e3, sizeof(b).as<T>())").errors = [] := by decide +kernel
  have hcompile : compileToTarget "f(alignof(x))" =
      .error (.lowering (.unsupported .alignof ⟨2, 12, ⟨1, 3⟩⟩)) := by decide +kernel
  exact ⟨⟨herrors, (accepted_trees_suit_the_emitter _).1 herrors⟩, hcompile,
    (accepted_trees_suit_the_emitter _).2 _ _ hcompile⟩

end SchemaExpr
