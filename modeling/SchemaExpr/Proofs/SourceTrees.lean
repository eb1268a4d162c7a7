import SchemaExpr.Compile
import SchemaExpr.Proofs.Lexemes
import SchemaExpr.Proofs.ParserCompleteness

/-!
# Trees of sources

A tree that is read from a source holds only what tokens can spell: integers of 64 bits, finite
numbers without a sign, and names that are words of their kind. The scanner guarantees it for each
lexeme, and every node of a phrase takes its contents from one token of the phrase.
-/
namespace SchemaExpr

def IsName (name : String) : Prop :=
  Scan.IsWord name.toList ∧ Scan.wordKind name.toList = .ident

def IsMember (name : String) : Prop :=
  Scan.IsWord name.toList ∧
    (Scan.wordKind name.toList = .ident ∨ (Scan.wordKind name.toList).isSpecial = true)

instance (name : String) : Decidable (IsName name) := inferInstanceAs (Decidable (_ ∧ _))

instance (name : String) : Decidable (IsMember name) := inferInstanceAs (Decidable (_ ∧ _))

theorem IsName.isMember {name : String} (h : IsName name) : IsMember name := ⟨h.1, .inl h.2⟩

theorem Kind.exists_special {kind : Kind} (h : kind.isSpecial = true) :
    ∃ name, kind = .special name := by
  cases kind with
  | special name => exact ⟨name, rfl⟩
  | _ => cases h

/-- Names have the spelling of their kind. -/
def Lexeme.Genuine (l : Lexeme) : Prop :=
  l.kind = .ident ∨ l.kind.isSpecial = true →
    Scan.IsWord l.literal.toList ∧ Scan.wordKind l.literal.toList = l.kind

namespace Scan

theorem isWordChar_takeWhile (cs : List Char) :
    ∀ d ∈ cs.takeWhile isWordChar, isWordChar d = true :=
  fun _ hd => List.all_eq_true.mp List.all_takeWhile _ hd

theorem symbol_not_name (c : Char) (cs : List Char) :
    ¬ ((symbol c cs).1 = .ident ∨ (symbol c cs).1.isSpecial = true) := by
  have hsingles : ∀ p ∈ singles, ¬ (p.2 = .ident ∨ p.2.isSpecial = true) := by decide
  have hpairs : ∀ p ∈ pairs, ¬ (p.2 = .ident ∨ p.2.isSpecial = true) := by decide
  have hsingle : ¬ ((singles.lookup c).getD .illegal = .ident ∨
      ((singles.lookup c).getD .illegal).isSpecial = true) := by
    cases h : singles.lookup c with
    | none => decide
    | some kind => exact hsingles _ (mem_of_lookup h)
  unfold symbol
  cases cs with
  | nil => exact hsingle
  | cons d ds =>
    simp only
    split
    · next kind h => exact hpairs _ (mem_of_lookup h)
    · exact hsingle

/-- A name is scanned as a word. -/
theorem genuine_first (c : Char) (cs : List Char) :
    Lexeme.Genuine ⟨(first c cs).1, Lexer.literal (first c cs).1 (first c cs).2⟩ := by
  unfold first
  split
  · rintro (h | h) <;> cases h
  · split
    · rintro (h | h) <;> cases h
    · split
      · next hstart =>
        intro _
        simp only [Lexer.literal, wordKind_ne_string, if_false, String.toList_ofList]
        exact ⟨⟨hstart, isWordChar_takeWhile cs⟩, trivial⟩
      · exact fun h => absurd h (symbol_not_name c cs)

end Scan

theorem genuine_of_mem_lexemes {cs : List Char} {l : Lexeme} (h : l ∈ lexemes cs) : l.Genuine := by
  rw [lexemes_eq] at h
  cases hrest : cs.dropWhile isLayout with
  | nil => simp [hrest] at h
  | cons c cs' =>
    simp only [hrest, List.mem_cons] at h
    rcases h with rfl | h
    · exact Scan.genuine_first c cs'
    · have hshort : (cs.dropWhile isLayout).length ≤ cs.length :=
        (List.dropWhile_suffix isLayout).length_le
      have hpos := List.length_pos_iff.mpr (Scan.first_ne_nil c cs')
      exact genuine_of_mem_lexemes h
termination_by cs.length
decreasing_by
  simp only [hrest, List.length_drop, List.length_cons] at *
  omega

theorem genuine_of_mem_tokens {cs : List Char} {t : Token} (h : t ∈ (Lexer.ofText cs).tokens) :
    t.Genuine :=
  genuine_of_mem_lexemes (List.mem_map_of_mem h)

namespace Expr

variable {ι : Type} {p q : Expr ι → Prop}

inductive Every (p : Expr ι → Prop) : Expr ι → Prop
  | node {e} : p e → (∀ x ∈ e.children, Every p x) → Every p e

theorem Every.here {e : Expr ι} : e.Every p → p e
  | node h _ => h

theorem Every.of_child {e : Expr ι} : e.Every p → ∀ x ∈ e.children, x.Every p
  | node _ h => h

theorem Every.mono {e : Expr ι} (h : e.Every p) (himp : ∀ n, p n → q n) : e.Every q := by
  induction h with
  | node h _ ih => exact .node (himp _ h) ih

theorem Every.and {e : Expr ι} (hp : e.Every p) (hq : e.Every q) :
    e.Every fun n => p n ∧ q n := by
  induction hp with
  | node h _ ih => exact .node ⟨h, hq.here⟩ fun x hx => ih x hx (hq.of_child x hx)

theorem children_withLoc (l : ι) (e : Expr ι) : (e.withLoc l).children = e.children := by
  cases e <;> rfl

/-- The contents of a node are spelled by some token. -/
def Spellable : Expr ι → Prop
  | int _ n => n < UInt64.size
  | float _ value => value.isFinite = true ∧ value.negative = false
  | ident _ name => IsName name
  | attr _ _ name _ => IsMember name
  | _ => True

theorem spellable_withLoc (l : ι) (e : Expr ι) : (e.withLoc l).Spellable ↔ e.Spellable := by
  cases e <;> rfl

theorem Every.withLoc {e : Expr ι} (h : e.Every Spellable) (l : ι) :
    (e.withLoc l).Every Spellable :=
  .node ((spellable_withLoc l e).mpr h.here) (by simpa [children_withLoc] using h.of_child)

end Expr

namespace Literal

open Decimal (Double)

/-- Integers have 64 bits, and floating-point numbers are finite and have no sign. -/
def Number.InRange : Number → Prop
  | int n => n < UInt64.size
  | float value => value.isFinite = true ∧ value.negative = false

theorem negative_ofDecimal (digits : Nat) (exponent : Int) :
    (Double.ofDecimal digits exponent).negative = false := by
  unfold Double.ofDecimal
  split
  · rfl
  · split <;> split <;> rfl

theorem inRange_of_readInteger {radix : Nat} {digits : List Char} {value : Number}
    (h : readInteger radix digits = .ok value) : value.InRange := by
  unfold readInteger at h
  simp only at h
  split at h
  · next hlt =>
    cases h
    exact hlt
  · cases h

theorem inRange_of_readDecimal {digits : List Char} {value : Number}
    (h : readDecimal digits = .ok value) : value.InRange := by
  unfold readDecimal at h
  split at h
  · split at h
    · next x hx =>
      split at h
      · next hfinite =>
        cases h
        obtain ⟨e, -, rfl⟩ := Option.map_eq_some_iff.mp (Option.ite_none_left_eq_some.mp hx).2
        exact ⟨hfinite, negative_ofDecimal ..⟩
      · cases h
    · cases h
  · exact inRange_of_readInteger h

theorem inRange_of_readNumber {text : List Char} {value : Number}
    (h : readNumber text = .ok value) : value.InRange := by
  unfold readNumber at h
  simp only at h
  split at h
  · split at h
    · split at h
      · cases h
      · exact inRange_of_readInteger h
    · exact inRange_of_readDecimal h
  · exact inRange_of_readDecimal h

end Literal

namespace Grammar

open Expr

theorem every_of_leaf {t : Token} {e : Expr Span} (h : leaf? t = some e) (ht : t.Genuine) :
    e.Every Spellable := by
  unfold leaf? at h
  split at h
  · split at h
    · next hread =>
      cases h
      exact .node (Literal.inRange_of_readNumber hread) (by simp [children])
    · next hread =>
      cases h
      exact .node (Literal.inRange_of_readNumber hread) (by simp [children])
    · cases h
  · cases h
    exact .node trivial (by simp [children])
  · cases h
    exact .node trivial (by simp [children])
  · cases h
    exact .node trivial (by simp [children])
  · next hkind =>
    cases h
    obtain ⟨hword, hname⟩ := ht (.inl hkind)
    exact .node ⟨hword, hname.trans hkind⟩ (by simp [children])
  · cases h
    exact .node trivial (by simp [children])
  · cases h

def Spelled (g : Language) : Prop :=
  ∀ {k : Nat} {ts : List Token} {e : Expr Span}, g k ts e → (∀ t ∈ ts, t.Genuine) →
    e.Every Spellable

variable {g : Language}

theorem Items.spelled (hg : Spelled g) {ts : List Token} {es : List (Expr Span)}
    (h : Items (g 0) ts es) (hts : ∀ t ∈ ts, t.Genuine) : ∀ e ∈ es, e.Every Spellable := by
  induction h with
  | nil => simp
  | last h => simpa using hg h hts
  | cons h _ _ ih =>
    intro e he
    rcases List.mem_cons.mp he with rfl | he
    · exact hg h fun t ht => hts t (by simp [ht])
    · exact ih (fun t ht => hts t (by simp [ht])) e he

theorem Primary.spelled (hg : Spelled g) {ts : List Token} {e : Expr Span} (h : Primary g ts e)
    (hts : ∀ t ∈ ts, t.Genuine) : e.Every Spellable := by
  cases h with
  | leaf h => exact every_of_leaf h (hts _ (by simp))
  | group _ h _ => exact (hg h fun t ht => hts t (by simp [ht])).withLoc _
  | array _ h _ => exact .node trivial (h.spelled hg fun t ht => hts t (by simp [ht]))
  | sizeof _ _ h _ =>
    exact .node trivial (by simpa [children] using hg h fun t ht => hts t (by simp [ht]))
  | alignof _ _ h _ =>
    exact .node trivial (by simpa [children] using hg h fun t ht => hts t (by simp [ht]))

theorem Chain.spelled (hg : Spelled g) {ts : List Token} {e : Expr Span} (h : Chain g ts e)
    (hts : ∀ t ∈ ts, t.Genuine) : e.Every Spellable := by
  induction h with
  | primary h => exact h.spelled hg hts
  | member _ _ hname ih =>
    have hword := hts _ (by simp) hname
    refine .node ⟨hword.1, hword.2 ▸ hname⟩ ?_
    simpa [children] using ih fun t ht => hts t (by simp [ht])
  | cast _ _ _ _ _ _ _ _ ih =>
    exact .node trivial (by simpa [children] using ih fun t ht => hts t (by simp [ht]))
  | call _ _ _ hargs _ ih =>
    refine .node trivial fun x hx => ?_
    rcases List.mem_cons.mp hx with rfl | hx
    · exact ih fun t ht => hts t (by simp [ht])
    · exact hargs.spelled hg (fun t ht => hts t (by simp [ht])) x hx
  | index _ _ hplace _ ih =>
    refine .node trivial ?_
    simpa [children] using ⟨ih fun t ht => hts t (by simp [ht]),
      hg hplace fun t ht => hts t (by simp [ht])⟩

theorem Phrase.spelled (hg : Spelled g) : Spelled (Phrase g) := by
  intro k ts e h hts
  induction h with
  | chain h => exact h.spelled hg hts
  | unary _ h =>
    exact .node trivial (by simpa [children] using hg h fun t ht => hts t (by simp [ht]))
  | tighter _ _ ih => exact ih hts
  | binary _ _ hrhs ih =>
    refine .node trivial ?_
    simpa [children] using ⟨ih fun t ht => hts t (by simp [ht]),
      hg hrhs fun t ht => hts t (by simp [ht])⟩
  | ternary _ _ hyes _ hno ih =>
    refine .node trivial ?_
    simpa [children] using ⟨ih fun t ht => hts t (by simp [ht]),
      hg hyes fun t ht => hts t (by simp [ht]), hg hno fun t ht => hts t (by simp [ht])⟩

theorem Derives.spelled (levels : Nat) : Spelled (Derives levels) := by
  induction levels with
  | zero => exact fun h => h.elim
  | succ levels ih => exact Phrase.spelled ih

end Grammar

theorem parse_of_readExpr {source : String} {e : Expr Span} (h : readExpr source = .ok e) :
    (parse source).errors = [] ∧ (parse source).tree = some e := by
  unfold readExpr Parsed.toExcept at h
  split at h
  · next htree herrors =>
    cases h
    exact ⟨herrors, htree⟩
  · cases h
  · cases h

/-- The tree and the target text of a source, from tests that can be evaluated. -/
theorem exists_tree_of_compile (source target : String) (p : Expr Span → Bool)
    (htarget : (compileToTarget source).toOption = some target)
    (htree : (readExpr source).toOption.any p = true) :
    ∃ e, readExpr source = .ok e ∧ compileToTarget source = .ok target ∧ p e = true := by
  cases hread : readExpr source with
  | error error => simp [hread, Except.toOption] at htree
  | ok e =>
    refine ⟨e, rfl, ?_, by simpa [hread, Except.toOption] using htree⟩
    cases hcompile : compileToTarget source with
    | error error => simp [hcompile, Except.toOption] at htarget
    | ok text => simpa [hcompile, Except.toOption] using htarget

/-- Every node of a tree that is read holds what some token spells. -/
theorem spellable_of_readExpr {source : String} {e : Expr Span} (h : readExpr source = .ok e) :
    e.Every Expr.Spellable := by
  obtain ⟨herrors, htree⟩ := parse_of_readExpr h
  obtain ⟨e', htree', hsentence⟩ := Grammar.sentence_of_parse herrors
  obtain rfl : e' = e := by simpa [htree'] using htree
  exact Grammar.Derives.spelled maxDepth hsentence.1 fun t ht => genuine_of_mem_tokens ht

end SchemaExpr
