import Mathlib.Data.List.Basic
import SchemaExpr.Proofs.TargetMeaning

/-!
# The variables of a target text

A name in a target text is that of a variable unless it follows a dot or opens a call. The variables
of the text are those that the tree reads outside the operands that `sizeof` quotes. Every variable
of the text is therefore declared, and a variable that is declared without being in the text is read
in such operands only.
-/
namespace SchemaExpr

namespace Expr

variable {ι : Type}

/-- The variable that a node is, by the name that the host engine knows. -/
def variableName? : Expr ι → Option String
  | ident _ name => some name
  | special _ name => some name.targetName
  | _ => none

/-- A `sizeof` that is applied to neither a bare name nor a string, so that the target text of its
operand is quoted. -/
def quotes : Expr ι → Bool
  | sizeof _ operand => (Target.typeName? operand).isNone
  | _ => false

/-- The nodes that are read as values without a `sizeof` above them that quotes them. -/
def exposed (e : Expr ι) : List (Expr ι) := e.visited quotes

theorem exposed_eq (e : Expr ι) :
    e.exposed = e :: if e.quotes then [] else e.operands.flatMap exposed :=
  visited_eq quotes e

theorem mem_exposed (e : Expr ι) : e ∈ e.exposed := by
  rw [exposed_eq]
  exact List.mem_cons_self

theorem exposed_operand_subset {e x : Expr ι} (he : e.quotes = false) (hx : x ∈ e.operands) :
    x.exposed ⊆ e.exposed := by
  intro y hy
  rw [exposed_eq e, he]
  exact List.mem_cons_of_mem e (List.mem_flatMap.mpr ⟨x, hx, hy⟩)

theorem exposed_subset_values (e : Expr ι) : e.exposed ⊆ e.values := by
  induction e using Expr.induction_operands with
  | step e ih =>
  intro y hy
  rw [exposed_eq] at hy
  rcases List.mem_cons.mp hy with rfl | hy
  · exact mem_values y
  · split at hy
    · cases hy
    · obtain ⟨x, hx, hyx⟩ := List.mem_flatMap.mp hy
      exact values_operand_subset hx (ih x hx hyx)

/-- A value is exposed, or it stands below an exposed `sizeof` that quotes it. -/
theorem mem_values_cases {e x : Expr ι} (h : x ∈ e.values) :
    x ∈ e.exposed ∨ ∃ s ∈ e.exposed, s.quotes = true ∧ x ∈ s.values := by
  induction e using Expr.induction_operands with
  | step e ih =>
  by_cases hquotes : e.quotes = true
  · exact .inr ⟨e, mem_exposed e, hquotes, h⟩
  · have hexposed {y : Expr ι} (hy : y ∈ e.operands) : y.exposed ⊆ e.exposed :=
      exposed_operand_subset (Bool.eq_false_iff.mpr hquotes) hy
    rw [values_eq] at h
    rcases List.mem_cons.mp h with rfl | h
    · exact .inl (mem_exposed x)
    · obtain ⟨y, hy, hx⟩ := List.mem_flatMap.mp h
      rcases ih y hy hx with hx | ⟨s, hs, hsquotes, hx⟩
      · exact .inl (hexposed hy hx)
      · exact .inr ⟨s, hexposed hy hs, hsquotes, hx⟩

theorem mem_insertName {name other : String} {names : List String} :
    name ∈ insertName other names ↔ name = other ∨ name ∈ names := by
  induction names with
  | nil => simp [insertName]
  | cons n ns ih =>
    rw [insertName]
    split_ifs with hlt heq
    · simp
    · simp [heq]
    · simp only [List.mem_cons, ih]
      tauto

theorem mem_foldr_insertName {name : String} {names : List String} :
    name ∈ names.foldr insertName [] ↔ name ∈ names := by
  induction names with
  | nil => rfl
  | cons n ns ih => simp [mem_insertName, ih]

theorem filterMap_walk (e : Expr ι) :
    (e.walk fun _ => false).filterMap Event.variable? = e.values.filterMap variableName? := by
  induction e using Expr.induction_operands with
  | step e ih =>
  have hoperands : (e.operands.flatMap (walk fun _ => false)).filterMap Event.variable? =
      (e.operands.flatMap values).filterMap variableName? := by
    rw [List.filterMap_flatMap, List.filterMap_flatMap]
    exact List.flatMap_congr ih
  have hevent : e.variableEvent.filterMap Event.variable? = e.variableName?.toList := by
    cases e <;> rfl
  rw [walk_eq, values_eq, List.filterMap_cons_none rfl, if_neg Bool.false_ne_true,
    List.filterMap_append, hevent, hoperands]
  cases hvariable : e.variableName? <;> simp [hvariable]

theorem mem_freeVariables {e : Expr ι} {name : String} :
    name ∈ e.freeVariables ↔ ∃ x ∈ e.values, x.variableName? = some name := by
  rw [freeVariables, mem_foldr_insertName, filterMap_walk, List.mem_filterMap]

end Expr

namespace Target

/-- A name of a variable among tokens: one that follows no dot and opens no call. -/
def NamesVariable (tokens : List Token) (name : String) : Prop :=
  ∃ before token after, tokens = before ++ token :: after ∧
    (token.kind = .ident ∨ token.kind.isSpecial = true) ∧ token.literal = name ∧
    (∀ t ∈ before.getLast?, t.kind ≠ .dot) ∧ ∀ t ∈ after.head?, t.kind ≠ .lparen

def Opens (rest : List Lexeme) : Prop := ∃ l ∈ rest.head?, l.kind = .lparen

instance (rest : List Lexeme) : Decidable (Opens rest) := inferInstanceAs (Decidable (∃ _ ∈ _, _))

/-- The names of variables among lexemes, the first of which may follow a dot. -/
def variableNames (afterDot : Bool) : List Lexeme → List String
  | [] => []
  | l :: rest =>
    if (l.kind = .ident ∨ l.kind.isSpecial = true) ∧ afterDot = false ∧ ¬ Opens rest then
      l.literal :: variableNames (l.kind == .dot) rest
    else variableNames (l.kind == .dot) rest

/-- A name of a variable among tokens, the first of which may follow a dot. -/
def NamesFrom (afterDot : Bool) (tokens : List Token) (name : String) : Prop :=
  ∃ before token after, tokens = before ++ token :: after ∧
    (token.kind = .ident ∨ token.kind.isSpecial = true) ∧ token.literal = name ∧
    (before.getLast?.map (·.kind == .dot)).getD afterDot = false ∧
    ∀ t ∈ after.head?, t.kind ≠ .lparen

theorem namesVariable_iff {tokens : List Token} {name : String} :
    NamesVariable tokens name ↔ NamesFrom false tokens name := by
  have hlast (before : List Token) : (∀ t ∈ before.getLast?, t.kind ≠ .dot) ↔
      (before.getLast?.map (·.kind == .dot)).getD false = false := by
    cases before.getLast? <;> simp
  simp only [NamesVariable, NamesFrom, hlast]

theorem namesFrom_cons {afterDot : Bool} {t : Token} {tokens : List Token} {name : String} :
    NamesFrom afterDot (t :: tokens) name ↔
      ((t.kind = .ident ∨ t.kind.isSpecial = true) ∧ t.literal = name ∧ afterDot = false ∧
        ∀ u ∈ tokens.head?, u.kind ≠ .lparen) ∨ NamesFrom (t.kind == .dot) tokens name := by
  have hlast (u : Token) (before : List Token) :
      ((u :: before).getLast?.map (·.kind == .dot)).getD afterDot =
        (before.getLast?.map (·.kind == .dot)).getD (u.kind == .dot) := by
    cases h : before.getLast? <;> simp [List.getLast?_cons, h]
  constructor
  · rintro ⟨before, token, after, htokens, hkind, hliteral, hbefore, hafter⟩
    cases before with
    | nil =>
      cases htokens
      exact .inl ⟨hkind, hliteral, hbefore, hafter⟩
    | cons u before =>
      cases htokens
      rw [hlast] at hbefore
      exact .inr ⟨before, token, after, rfl, hkind, hliteral, hbefore, hafter⟩
  · rintro (⟨hkind, hliteral, hdot, hafter⟩ |
      ⟨before, token, after, rfl, hkind, hliteral, hbefore, hafter⟩)
    · exact ⟨[], t, tokens, rfl, hkind, hliteral, hdot, hafter⟩
    · rw [← hlast] at hbefore
      exact ⟨t :: before, token, after, rfl, hkind, hliteral, hbefore, hafter⟩

theorem opens_map {tokens : List Token} :
    ¬ Opens (tokens.map (·.toLexeme)) ↔ ∀ t ∈ tokens.head?, t.kind ≠ .lparen := by
  cases tokens <;> simp [Opens]

/-- Reading from left to right finds the names of variables. -/
theorem mem_variableNames {tokens : List Token} {name : String} (afterDot : Bool) :
    name ∈ variableNames afterDot (tokens.map (·.toLexeme)) ↔ NamesFrom afterDot tokens name := by
  induction tokens generalizing afterDot with
  | nil => simp [variableNames, NamesFrom]
  | cons t tokens ih =>
    rw [namesFrom_cons, ← ih, ← opens_map, List.map_cons, variableNames]
    split_ifs with h
    · rw [List.mem_cons]
      constructor
      · rintro (rfl | hmem)
        · exact .inl ⟨h.1, rfl, h.2⟩
        · exact .inr hmem
      · rintro (⟨-, rfl, -⟩ | hmem)
        · exact .inl rfl
        · exact .inr hmem
    · constructor
      · exact .inr
      · rintro (⟨hkind, -, hcontext⟩ | hmem)
        · exact absurd ⟨hkind, hcontext⟩ h
        · exact hmem

instance (tokens : List Token) (name : String) : Decidable (NamesVariable tokens name) :=
  decidable_of_iff _ ((mem_variableNames false).trans namesVariable_iff.symm)

/-! ## The names in the text of a tree -/

/-- Before anything that opens no call, these lexemes name these variables. -/
def Names (ls : List Lexeme) (names : List String) : Prop :=
  ∀ rest, ¬ Opens rest → variableNames false (ls ++ rest) = names ++ variableNames false rest

/-- The kinds of lexemes that are no names and make none of what follows. -/
def Silent (kind : Kind) : Prop := kind ≠ .dot ∧ ¬ (kind = .ident ∨ kind.isSpecial = true)

instance (kind : Kind) : Decidable (Silent kind) := inferInstanceAs (Decidable (_ ∧ _))

section Names

variable {l : Lexeme} {ls ms : List Lexeme} {names others : List String}

theorem not_opens_cons (h : l.kind ≠ .lparen) (rest : List Lexeme) : ¬ Opens (l :: rest) := by
  rintro ⟨m, hm, hkind⟩
  cases hm
  exact h hkind

theorem names_nil : Names [] [] := by
  intro rest _
  rfl

theorem Names.cons (h : Names ls names) (l : Lexeme) (hl : Silent l.kind) :
    Names (l :: ls) names := by
  intro rest hrest
  rw [List.cons_append, variableNames, if_neg, beq_false_of_ne hl.1]
  · exact h rest hrest
  · intro hname
    exact hl.2 hname.1

/-- What is named by one text after another, if the second opens no call. -/
theorem Names.append (h : Names ls names) (hms : Names ms others)
    (hjoin : ∀ rest, ¬ Opens rest → ¬ Opens (ms ++ rest)) : Names (ls ++ ms) (names ++ others) := by
  intro rest hrest
  rw [List.append_assoc, h _ (hjoin rest hrest), hms rest hrest, List.append_assoc]

theorem kind_word_beq_dot (name : String) : ((Lexeme.word name).kind == .dot) = false :=
  beq_false_of_ne (Scan.wordKind_ne (by decide) (by decide) name.toList)

theorem names_word {name : String} (h : IsMember name) : Names [.word name] [name] := by
  intro rest hrest
  rw [List.singleton_append, variableNames, if_pos ⟨h.2, rfl, hrest⟩, kind_word_beq_dot]
  rfl

theorem names_member (name : String) : Names [.symbol .dot, .word name] [] := by
  intro rest _
  change variableNames true (.word name :: rest) = variableNames false rest
  rw [variableNames, if_neg, kind_word_beq_dot]
  rintro ⟨-, hdot, -⟩
  cases hdot

/-- The name of what is called is none of a variable. -/
theorem Names.call (h : Names ls names) (name : String) :
    Names (.word name :: .symbol .lparen :: ls) names := by
  intro rest hrest
  have hopens : Opens (.symbol .lparen :: (ls ++ rest)) := ⟨_, rfl, rfl⟩
  rw [List.cons_append, List.cons_append, variableNames, if_neg, kind_word_beq_dot]
  · exact h.cons (.symbol .lparen) (by decide) rest hrest
  · intro hname
    exact hname.2.2 hopens

end Names

section Lists

variable {es : List (Expr Span)} {names : Expr Span → List String}

theorem not_opens_codeMore (ts : List (Expr Unit)) (rest : List Lexeme) (h : ¬ Opens rest) :
    ¬ Opens (codeMore ts ++ rest) := by
  cases ts with
  | nil => exact h
  | cons t ts =>
    rw [codeMore_cons]
    exact not_opens_cons (by decide) _

theorem names_codeMore (h : ∀ e ∈ es, Names (code (lowered e)) (names e)) :
    Names (codeMore (es.map lowered)) (es.flatMap names) := by
  induction es with
  | nil => exact names_nil
  | cons e es ih =>
    have hmore := ih fun x hx => h x (List.mem_cons_of_mem e hx)
    have hall := (h e List.mem_cons_self).append hmore (not_opens_codeMore _)
    rw [List.map_cons, codeMore_cons]
    exact hall.cons (.symbol .comma) (by decide)

theorem names_codeItems (h : ∀ e ∈ es, Names (code (lowered e)) (names e)) :
    Names (codeItems (es.map lowered)) (es.flatMap names) := by
  cases es with
  | nil => exact names_nil
  | cons e es =>
    have hmore := names_codeMore fun x hx => h x (List.mem_cons_of_mem e hx)
    rw [List.map_cons, codeItems_cons]
    exact (h e List.mem_cons_self).append hmore (not_opens_codeMore _)

theorem Names.closed {ls : List Lexeme} {names : List String} (h : Names ls names) {kind : Kind}
    (hkind : kind = .rparen ∨ kind = .rbracket) : Names (ls ++ [.symbol kind]) names := by
  have hmark : Names [.symbol kind] [] := by
    rcases hkind with rfl | rfl <;> exact names_nil.cons _ (by decide)
  have hjoin (rest : List Lexeme) (_ : ¬ Opens rest) : ¬ Opens ([.symbol kind] ++ rest) := by
    rcases hkind with rfl | rfl <;> exact not_opens_cons (by decide) rest
  simpa using h.append hmark hjoin

theorem names_callOf (name : String) (h : ∀ e ∈ es, Names (code (lowered e)) (names e)) :
    Names (code (callOf name (es.map lowered))) (es.flatMap names) := by
  rw [code_callOf]
  exact ((names_codeItems h).closed (.inl rfl)).call name

theorem names_array (h : ∀ e ∈ es, Names (code (lowered e)) (names e)) :
    Names (code (.array () (es.map lowered))) (es.flatMap names) := by
  rw [code_array]
  exact ((names_codeItems h).closed (.inr rfl)).cons (.symbol .lbracket) (by decide)

end Lists

def exposedNames (e : Expr Span) : List String := e.exposed.filterMap Expr.variableName?

theorem exposedNames_eq (e : Expr Span) : exposedNames e =
    e.variableName?.toList ++ if e.quotes then [] else e.operands.flatMap exposedNames := by
  have hfirst (xs : List (Expr Span)) : (e :: xs).filterMap Expr.variableName? =
      e.variableName?.toList ++ xs.filterMap Expr.variableName? := by
    cases hname : e.variableName? <;> simp [hname]
  rw [exposedNames, Expr.exposed_eq, hfirst]
  split
  · rfl
  · rw [List.filterMap_flatMap]
    rfl

theorem exposedNames_leaf {e : Expr Span} (h : e.isLeaf = true) :
    exposedNames e = e.variableName?.toList := by
  have hoperands : e.operands = [] := by cases e <;> first | rfl | cases h
  rw [exposedNames_eq, hoperands]
  simp

theorem exposedNames_of_operands {e : Expr Span} (hname : e.variableName? = none)
    (hquotes : e.quotes = false) : exposedNames e = e.operands.flatMap exposedNames := by
  rw [exposedNames_eq, hname, hquotes]
  rfl

theorem exposedNames_applies {e : Expr Span} (h : e.applies = true) :
    exposedNames e = e.operands.flatMap exposedNames := by
  apply exposedNames_of_operands <;> cases e <;> first | rfl | cases h

/-- A `sizeof` either quotes its operand or has one that is no variable. -/
theorem exposedNames_sizeof (loc : Span) (operand : Expr Span) :
    exposedNames (.sizeof loc operand) = [] := by
  rw [exposedNames_eq]
  cases operand with
  | ident => rfl
  | text l value =>
    have htext : exposedNames (.text l value) = [] := exposedNames_leaf rfl
    simp [Expr.variableName?, Expr.operands, Expr.children, htext]
  | _ => rfl

theorem names_literal {e : Expr Span} {literal : Bool × Nat} (hliteral : e.literal? = some literal)
    (hrange : e.InSignedRange) : Names (code (lowered e)) (exposedNames e) := by
  have hsilent : Silent .number := by decide
  have hnumber (n : Nat) : Names [.number (toString n)] [] := names_nil.cons _ hsilent
  unfold Expr.literal? at hliteral
  split at hliteral
  · next loc n =>
    -- past the limit the mark of the unsigned type would stand after it, which reads as a name
    have hlt : n < signedLimit := by
      simpa [Expr.InSignedRange, Expr.literals_eq, Expr.literal?] using hrange
    rw [exposedNames_leaf rfl]
    exact code_signed hlt ▸ hnumber n
  · next loc l n =>
    have hnames : exposedNames (.unary loc .neg (.int l n)) = [] := by
      have hint : exposedNames (.int l n) = [] := exposedNames_leaf rfl
      rw [exposedNames_of_operands rfl rfl]
      simp [Expr.operands, Expr.children, hint]
    rw [hnames]
    exact (hnumber n).cons (.symbol .minus) (by decide)
  · cases hliteral

theorem names_leaf {e : Expr Span} (hleaf : e.isLeaf = true) (hliteral : e.literal? = none)
    (hspelled : e.Spellable) : Names (code e.bare) (exposedNames e) := by
  have hnumber : Silent .number := by decide
  have hstring : Silent .string := by decide
  rw [exposedNames_leaf hleaf]
  cases e with
  | bool loc value =>
    cases value
    · exact names_nil.cons (.word "false") (by decide)
    · exact names_nil.cons (.word "true") (by decide)
  | int => cases hliteral
  | float loc value => exact names_nil.cons (.number (Decimal.display.text value)) hnumber
  | text loc value => exact names_nil.cons ⟨.string, value⟩ hstring
  | null => exact names_nil.cons (.word "null") (by decide)
  | ident loc name => exact names_word hspelled.isMember
  | special loc name =>
    have hmember : IsMember name.targetName := by cases name <;> decide +kernel
    exact names_word hmember
  | _ => cases hleaf

/-- The text of a target tree names the variables that its source tree exposes. -/
theorem Lowerable.names {e : Expr Span} (h : Lowerable e) (hspelled : e.Every Expr.Spellable)
    (hrange : e.InSignedRange) : Names (code (lowered e)) (exposedNames e) := by
  induction e using Expr.induction_operands with
  | step e ih =>
  cases hliteral : e.literal? with
  | some literal => exact names_literal hliteral hrange
  | none =>
    have hoperands (x : Expr Span) (hx : x ∈ e.operands) :
        Names (code (lowered x)) (exposedNames x) :=
      ih x hx (h.operand hx) (hspelled.operand hx) (hrange.operand hliteral hx)
    have hshape := h.shape
    generalize lowered e = t at hshape
    cases hshape with
    | leaf hleaf => exact names_leaf hleaf hliteral hspelled.here
    | @unary loc op operand symbol hform =>
      have hnone := (negated_lowered op operand).trans (negated_of_literal hliteral)
      have hsign : Silent (Grammar.signKind op) := by cases op <;> decide
      have hoperand := hoperands operand List.mem_cons_self
      rw [code_unary _ hnone, exposedNames_of_operands rfl rfl]
      simpa [Expr.operands, Expr.children] using hoperand.cons (.symbol (Grammar.signKind op)) hsign
    | @binary loc op lhs rhs symbol hform =>
      have hoperator : Silent (operatorKind op) ∧ operatorKind op ≠ .lparen := by
        cases op <;> decide
      have hlhs := hoperands lhs List.mem_cons_self
      have hrhs := hoperands rhs (List.mem_cons_of_mem lhs List.mem_cons_self)
      have hright := (hrhs.closed (.inl rfl)).cons (.symbol (operatorKind op)) hoperator.1
      have hboth := hlhs.append hright fun rest _ => not_opens_cons hoperator.2 _
      rw [code_binary, exposedNames_applies rfl]
      simpa [Expr.operands, Expr.children] using hboth.cons (.symbol .lparen) (by decide)
    | @attr loc object name nameLoc hname =>
      have hobject := hoperands object List.mem_cons_self
      have hmember := hobject.append (names_member name) fun rest _ => not_opens_cons (by decide) _
      rw [code_attr, exposedNames_applies rfl]
      exact hmember
    | array =>
      rw [exposedNames_of_operands rfl rfl]
      exact names_array hoperands
    | call happlies =>
      rw [exposedNames_applies happlies]
      exact names_callOf _ hoperands
    | @sizeof loc operand =>
      have hnames : exposedNames (.sizeof loc operand) = [] := exposedNames_sizeof loc operand
      have hstring : Silent .string := by decide
      have htext := (names_nil.cons ⟨.string, typeText operand⟩ hstring).closed (.inl rfl)
      rw [hnames, code_callOf]
      exact htext.call sizeofFunction

/-- A target text names the variables that the tree exposes. -/
theorem namesVariable_tokenize {source target name : String} {e : Expr Span}
    (hread : readExpr source = .ok e) (htarget : compileToTarget source = .ok target)
    (hrange : e.InSignedRange) :
    NamesVariable (tokenize target) name ↔ ∃ x ∈ e.exposed, x.variableName? = some name := by
  obtain ⟨hlowerable, rfl⟩ := compileToTarget_eq_ok hread htarget
  have hspelled := spellable_of_readExpr hread
  have hform : Form False (lowered e) := hlowerable.form ⟨hspelled, False.elim⟩
  have hend : ¬ Opens [Lexeme.eof] := not_opens_cons (by decide) []
  have hnames := hlowerable.names hspelled hrange [Lexeme.eof] hend
  rw [namesVariable_iff, ← mem_variableNames, map_toLexeme_tokenize_print hform, hnames]
  simp [variableNames, exposedNames, Lexeme.eof, Kind.isSpecial, Kind.special?]

/-- Every variable of a target text is declared. A variable that is declared and not in the text is
read nowhere but below some `sizeof` that is applied to neither a bare name nor a string, so without
such a `sizeof` the variables of the text are those declared. -/
theorem target_variables_are_declared {source target : String} {e : Expr Span}
    (hread : readExpr source = .ok e) (htarget : compileToTarget source = .ok target)
    (hrange : e.InSignedRange) :
    (∀ name, NamesVariable (tokenize target) name → name ∈ e.freeVariables) ∧
      (∀ name ∈ e.freeVariables, ¬ NamesVariable (tokenize target) name →
        (∀ x ∈ e.exposed, x.variableName? ≠ some name) ∧
          ∃ s ∈ e.exposed, s.quotes = true ∧ name ∈ s.freeVariables) ∧
      ((∀ x ∈ e.values, x.quotes = false) →
        ∀ name, NamesVariable (tokenize target) name ↔ name ∈ e.freeVariables) := by
  have hnames (name : String) : NamesVariable (tokenize target) name ↔
      ∃ x ∈ e.exposed, x.variableName? = some name := namesVariable_tokenize hread htarget hrange
  have hdeclared (name : String) (h : NamesVariable (tokenize target) name) :
      name ∈ e.freeVariables := by
    obtain ⟨x, hx, hname⟩ := (hnames name).mp h
    exact Expr.mem_freeVariables.mpr ⟨x, e.exposed_subset_values hx, hname⟩
  have hquoted (name : String) (hfree : name ∈ e.freeVariables)
      (h : ¬ NamesVariable (tokenize target) name) :
      (∀ x ∈ e.exposed, x.variableName? ≠ some name) ∧
        ∃ s ∈ e.exposed, s.quotes = true ∧ name ∈ s.freeVariables := by
    have hhidden : ∀ x ∈ e.exposed, x.variableName? ≠ some name := by
      intro x hx hname
      exact h ((hnames name).mpr ⟨x, hx, hname⟩)
    obtain ⟨x, hx, hname⟩ := Expr.mem_freeVariables.mp hfree
    rcases Expr.mem_values_cases hx with hx | ⟨s, hs, hquotes, hx⟩
    · exact absurd hname (hhidden x hx)
    · exact ⟨hhidden, s, hs, hquotes, Expr.mem_freeVariables.mpr ⟨x, hx, hname⟩⟩
  refine ⟨hdeclared, hquoted, ?_⟩
  intro hplain name
  constructor
  · exact hdeclared name
  · intro hfree
    by_contra h
    obtain ⟨-, s, hs, hquotes, -⟩ := hquoted name hfree h
    rw [hplain s (e.exposed_subset_values hs)] at hquotes
    cases hquotes

theorem target_variables_are_declared_sizeof : ∃ source target e, readExpr source = .ok e ∧
    compileToTarget source = .ok target ∧ e.InSignedRange ∧
    NamesVariable (tokenize target) "x" ∧ "x" ∈ e.freeVariables ∧
    ¬ NamesVariable (tokenize target) "y" ∧ "y" ∈ e.freeVariables ∧
    (∀ x ∈ e.exposed, x.variableName? ≠ some "y") ∧
    ∃ s ∈ e.exposed, s.quotes = true ∧ "y" ∈ s.freeVariables := by
  obtain ⟨e, hread, htarget, he⟩ := exists_tree_of_compile
    "x.y.size + _io.read_u1(self, sizeof(-y), sizeof(t), 2)"
    "(size(x.y) + readU1(_io, _, sizeof_type(\"-y\"), sizeof_type(\"t\"), 2))"
    (fun e => decide e.InSignedRange && decide ("y" ∈ e.freeVariables))
    (by decide +kernel) (by decide +kernel)
  simp only [Bool.and_eq_true, decide_eq_true_iff] at he
  obtain ⟨hrange, hfree⟩ := he
  obtain ⟨hdeclared, hquoted, -⟩ := target_variables_are_declared hread htarget hrange
  have hx : NamesVariable (tokenize
      "(size(x.y) + readU1(_io, _, sizeof_type(\"-y\"), sizeof_type(\"t\"), 2))") "x" := by
    decide +kernel
  have hy : ¬ NamesVariable (tokenize
      "(size(x.y) + readU1(_io, _, sizeof_type(\"-y\"), sizeof_type(\"t\"), 2))") "y" := by
    decide +kernel
  exact ⟨_, _, e, hread, htarget, hrange, hx, hdeclared "x" hx, hy, hfree, hquoted "y" hfree hy⟩

end Target

end SchemaExpr
