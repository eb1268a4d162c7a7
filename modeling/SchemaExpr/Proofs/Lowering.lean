import SchemaExpr.Compile
import SchemaExpr.Proofs.Grammar
import SchemaExpr.Proofs.Lexemes
import SchemaExpr.Proofs.SourcePlaces
import SchemaExpr.Proofs.TreeShapes

/-!
# Target trees

The meaning of a target text is a tree again, in which an operator that the host engine does not
have is a call of the function that stands for it. The tree is written as lexemes with blanks
between some of them. A tree can be lowered if every node has a form; the emitter then writes the
target tree, and on any other tree it fails.
-/
namespace SchemaExpr

namespace Lexeme

def symbol (kind : Kind) : Lexeme := ⟨kind, kind.text⟩

def word (name : String) : Lexeme := ⟨Scan.wordKind name.toList, name⟩

def number (text : String) : Lexeme := ⟨.number, text⟩

end Lexeme

theorem Expr.induction_operands {ι : Type} {motive : Expr ι → Prop}
    (step : ∀ e, (∀ x ∈ e.operands, motive x) → motive e) (e : Expr ι) : motive e :=
  step e fun x _ => Expr.induction_operands step x
termination_by sizeOf e
decreasing_by exact Expr.sizeOf_lt_of_mem_operands ‹_›

namespace Target

def callOf (name : String) (args : List (Expr Unit)) : Expr Unit := .call () (.ident () name) args

/-- The type that an operand of `sizeof` names: a bare name or the content of a string. -/
def typeName? {ι : Type} : Expr ι → Option String
  | .ident _ name => some name
  | .text _ name => some name
  | _ => none

/-- The type that `sizeof` is applied to; an operand that names none stands for itself, as its
target text. -/
def typeText (e : Expr Span) : String := (typeName? e).getD ((lower e).toOption.getD "")

/-- The target tree of a tree. Nodes without a form are kept. -/
def lowered : Expr Span → Expr Unit
  | .unary _ op operand =>
    match unaryForm op with
    | .native _ => .unary () op (lowered operand)
    | .function name => callOf name [lowered operand]
  | .binary _ op lhs rhs =>
    match binaryForm op with
    | .native _ => .binary () op (lowered lhs) (lowered rhs)
    | .function name => callOf name [lowered lhs, lowered rhs]
  | .ternary _ condition yes no =>
    callOf ternaryFunction [lowered condition, lowered yes, lowered no]
  | .attr _ object name _ =>
    match attribute? object name with
    | some function => callOf function [lowered object]
    | none => .attr () (lowered object) name ()
  | .call _ (.attr _ object name _) args =>
    callOf (method object name) (lowered object :: loweredList args)
  | .call _ (.ident _ name) args => callOf ((function? name).getD name) (loweredList args)
  | .index _ object place => callOf indexFunction [lowered object, lowered place]
  | .array _ elements => .array () (loweredList elements)
  | .cast loc operand type typeLoc =>
    match castFunction? type with
    | some function => callOf function [lowered operand]
    | none => (Expr.cast loc operand type typeLoc).bare
  | .sizeof _ operand => callOf sizeofFunction [.text () (typeText operand)]
  | e => e.bare
where
  loweredList : List (Expr Span) → List (Expr Unit)
    | [] => []
    | e :: es => lowered e :: loweredList es

theorem loweredList_eq_map (es : List (Expr Span)) : lowered.loweredList es = es.map lowered := by
  induction es with
  | nil => rfl
  | cons e es ih => simp [lowered.loweredList, ih]

/-- A lexeme of the target text, or a blank. -/
abbrev Glyph := Option Lexeme

namespace Glyph

def blank : Glyph := none

def symbol (kind : Kind) : Glyph := some (.symbol kind)

def word (name : String) : Glyph := some (.word name)

def number (text : String) : Glyph := some (.number text)

def spelling : Glyph → List Char
  | none => [' ']
  | some l => if l.kind = .string then Literal.quote l.literal.toList else l.literal.toList

end Glyph

open Glyph

def operatorKind : BinaryOp → Kind
  | .add => .plus
  | .sub => .minus
  | .mul => .star
  | .eq => .eqEq
  | .neq => .bangEq
  | .lt => .lt
  | .gt => .gt
  | .ltEq => .ltEq
  | .gtEq => .gtEq
  | .and => .ampAmp
  | .or => .pipePipe
  | .div => .slash
  | .mod => .percent
  | .bitAnd => .amp
  | .bitOr => .pipe
  | .bitXor => .caret
  | .shl => .shl
  | .shr => .shr

/-- The integer literal that an operator negates directly. -/
def negated? {ι : Type} : UnaryOp → Expr ι → Option Nat
  | .neg, .int _ n => some n
  | _, _ => none

/-- How a target tree is written. Binary operators are always in parentheses. -/
def glyphs : Expr Unit → List Glyph
  | .bool _ value => [word (if value then "true" else "false")]
  | .int _ n => if n < signedLimit then [number (toString n)] else [number (toString n), word "u"]
  | .float _ value => [number (Decimal.display.text value)]
  | .text _ value => [some ⟨.string, value⟩]
  | .null _ => [word "null"]
  | .ident _ name => [word name]
  | .special _ name => [word name.targetName]
  | .unary _ .neg (.int _ n) => [symbol .minus, number (toString n)]
  | .unary _ op operand => symbol (Grammar.signKind op) :: glyphs operand
  | .binary _ op lhs rhs =>
    symbol .lparen :: (glyphs lhs ++ blank :: symbol (operatorKind op) :: blank ::
      (glyphs rhs ++ [symbol .rparen]))
  | .attr _ object name _ => glyphs object ++ [symbol .dot, word name]
  | .call _ callee args => glyphs callee ++ symbol .lparen :: (items args ++ [symbol .rparen])
  | .array _ elements => symbol .lbracket :: (items elements ++ [symbol .rbracket])
  | _ => []
where
  /-- Trees with a comma before each. -/
  more : List (Expr Unit) → List Glyph
    | [] => []
    | e :: es => symbol .comma :: blank :: (glyphs e ++ more es)
  /-- Trees with commas between them. -/
  items : List (Expr Unit) → List Glyph
    | [] => []
    | e :: es => glyphs e ++ more es

def print (t : Expr Unit) : List Char := (glyphs t).flatMap spelling

/-- A tree in which every node has a form in the host engine. -/
inductive Lowerable : Expr Span → Prop
  | bool {loc value} : Lowerable (.bool loc value)
  | int {loc n} : Lowerable (.int loc n)
  | float {loc value} : Lowerable (.float loc value)
  | text {loc value} : Lowerable (.text loc value)
  | null {loc} : Lowerable (.null loc)
  | ident {loc name} : Lowerable (.ident loc name)
  | special {loc name} : Lowerable (.special loc name)
  | unary {loc op operand} : (∀ n ∈ negated? op operand, n ≤ signedLimit) → Lowerable operand →
      Lowerable (.unary loc op operand)
  | binary {loc op lhs rhs} : Lowerable lhs → Lowerable rhs → Lowerable (.binary loc op lhs rhs)
  | ternary {loc condition yes no} : Lowerable condition → Lowerable yes → Lowerable no →
      Lowerable (.ternary loc condition yes no)
  | attr {loc object name nameLoc} : Lowerable object → Lowerable (.attr loc object name nameLoc)
  | method {loc attrLoc object name nameLoc args} : Lowerable object → (∀ x ∈ args, Lowerable x) →
      Lowerable (.call loc (.attr attrLoc object name nameLoc) args)
  | function {loc nameLoc name args} : (∀ x ∈ args, Lowerable x) →
      Lowerable (.call loc (.ident nameLoc name) args)
  | index {loc object place} : Lowerable object → Lowerable place →
      Lowerable (.index loc object place)
  | array {loc elements} : (∀ x ∈ elements, Lowerable x) → Lowerable (.array loc elements)
  | cast {loc operand type typeLoc function} : castFunction? type = some function →
      Lowerable operand → Lowerable (.cast loc operand type typeLoc)
  | sizeof {loc operand} : Lowerable operand → Lowerable (.sizeof loc operand)

theorem eq_of_negated {ι : Type} {op : UnaryOp} {e : Expr ι} {n : Nat}
    (h : negated? op e = some n) : op = .neg ∧ ∃ loc, e = .int loc n := by
  unfold negated? at h
  split at h
  · cases h
    exact ⟨rfl, _, rfl⟩
  · cases h

theorem emit_unary {loc : Span} {op : UnaryOp} {operand : Expr Span}
    (h : negated? op operand = none) :
    emit (.unary loc op operand) = match unaryForm op with
      | .native symbol => Emission.write symbol ++ emit operand
      | .function name => Emission.call name (emit operand) := by
  cases op with
  | neg =>
    cases operand with
    | int => simp [negated?] at h
    | _ => rfl
  | _ => rfl

theorem mem_operands_sizeof {ι : Type} {loc : ι} {operand : Expr ι} (h : typeName? operand = none) :
    operand ∈ (Expr.sizeof loc operand).operands := by
  cases operand with
  | ident => cases h
  | _ => simp [Expr.operands, Expr.children]

theorem emit_sizeof {loc : Span} {operand : Expr Span} :
    emit (.sizeof loc operand) = match typeName? operand with
      | some name => Emission.call sizeofFunction (Emission.write (literalText name))
      | none => Emission.callQuoting sizeofFunction (emit operand) := by
  cases operand <;> rfl

theorem glyphs_unary {op : UnaryOp} {operand : Expr Unit} (h : negated? op operand = none) :
    glyphs (.unary () op operand) = symbol (Grammar.signKind op) :: glyphs operand := by
  cases op with
  | neg =>
    cases operand with
    | int => simp [negated?] at h
    | _ => rfl
  | _ => rfl

namespace Emission

variable {p q : Emission} {s t : List Char} {name : String}

/-- The emission succeeds and adds the text `s` to any buffer. -/
def Writes (p : Emission) (s : List Char) : Prop :=
  ∀ buffer, p buffer = ⟨buffer ++ String.ofList s, none⟩

theorem writes_write (s : String) : Writes (write s) s.toList := by
  intro buffer
  simp [write]

theorem Writes.append (hp : Writes p s) (hq : Writes q t) : Writes (p ++ q) (s ++ t) := by
  intro buffer
  change (andThen p q) buffer = _
  simp [andThen, hp buffer, hq _, String.append_assoc]

theorem Writes.call (h : Writes p s) :
    Writes (Emission.call name p) (name.toList ++ '(' :: (s ++ [')'])) := by
  have hcall : Writes (Emission.call name p) _ :=
    (((writes_write name).append (writes_write "(")).append h).append (writes_write ")")
  simpa using hcall

/-- A text that was added to a buffer is cut off at the old end of the buffer. -/
theorem cut_append (buffer text : String) :
    cut (buffer ++ text) buffer.utf8ByteSize = (buffer, text) := by
  have hsplit : (buffer ++ text).toList = buffer.toList ++ text.toList := String.toList_append
  have hkept := textBetween_zero_of_split hsplit
  have hcut := textBetween_end_of_split hsplit
  rw [String.utf8Len_toList, String.ofList_toList] at hkept hcut
  exact Prod.ext hkept hcut

theorem Writes.callQuoting (h : Writes p s) :
    Writes (callQuoting name p) (name.toList ++ '(' :: (Literal.quote s ++ [')'])) := by
  intro buffer
  simp only [Emission.callQuoting, h buffer, cut_append, String.toList_ofList]
  have hquote := writes_write (String.ofList (Literal.quote s))
  rw [String.toList_ofList] at hquote
  exact hquote.call buffer

def Succeeds (p : Emission) : Prop := ∃ buffer, (p buffer).failure = none

theorem succeeds_append (h : Succeeds (p ++ q)) : Succeeds p ∧ Succeeds q := by
  obtain ⟨buffer, h⟩ := h
  change ((andThen p q) buffer).failure = none at h
  unfold andThen at h
  cases hp : (p buffer).failure with
  | none =>
    simp only [hp] at h
    exact ⟨⟨buffer, hp⟩, ⟨_, h⟩⟩
  | some error => simp [hp] at h

theorem succeeds_call (h : Succeeds (Emission.call name p)) : Succeeds p :=
  (succeeds_append (succeeds_append h).1).2

theorem succeeds_callQuoting (h : Succeeds (callQuoting name p)) : Succeeds p := by
  obtain ⟨buffer, h⟩ := h
  refine ⟨buffer, ?_⟩
  unfold callQuoting at h
  cases hp : (p buffer).failure with
  | none => rfl
  | some error => simp [hp] at h

theorem not_succeeds_fail {error : LowerError} : ¬ Succeeds (fail error) := by
  rintro ⟨buffer, h⟩
  simp [fail] at h

end Emission

open Emission

theorem succeeds_of_emitMore {es : List (Expr Span)} (h : Succeeds (emit.emitMore es)) :
    ∀ x ∈ es, Succeeds (emit x) := by
  induction es with
  | nil => simp
  | cons e es ih =>
    obtain ⟨hfirst, hrest⟩ := succeeds_append h
    intro x hx
    rcases List.mem_cons.mp hx with rfl | hx
    · exact (succeeds_append hfirst).2
    · exact ih hrest x hx

theorem succeeds_of_emitList {es : List (Expr Span)} (h : Succeeds (emit.emitList es)) :
    ∀ x ∈ es, Succeeds (emit x) := by
  cases es with
  | nil => simp
  | cons e es =>
    obtain ⟨hfirst, hrest⟩ := succeeds_append h
    intro x hx
    rcases List.mem_cons.mp hx with rfl | hx
    · exact hfirst
    · exact succeeds_of_emitMore hrest x hx

theorem lowerable_of_typeName {e : Expr Span} {name : String} (h : typeName? e = some name) :
    Lowerable e := by
  cases e with
  | ident => exact .ident
  | text => exact .text
  | _ => cases h

theorem lowerable_of_succeeds {e : Expr Span} (h : Succeeds (emit e)) : Lowerable e := by
  induction e using Expr.induction_operands with
  | step e ih =>
  cases e with
  | bool => exact .bool
  | int => exact .int
  | float => exact .float
  | text => exact .text
  | null => exact .null
  | ident => exact .ident
  | special => exact .special
  | unary loc op operand =>
    cases hnegated : negated? op operand with
    | some n =>
      obtain ⟨rfl, l, rfl⟩ := eq_of_negated hnegated
      refine .unary (fun m hm => ?_) .int
      cases hm
      refine Nat.le_of_not_lt fun hlt => ?_
      rw [emit, if_neg (Nat.ne_of_gt hlt), if_pos hlt] at h
      exact not_succeeds_fail h
    | none =>
      rw [emit_unary hnegated] at h
      refine .unary (by simp [hnegated]) (ih operand (by simp [Expr.operands, Expr.children]) ?_)
      split at h
      · exact (succeeds_append h).2
      · exact succeeds_call h
  | binary loc op lhs rhs =>
    rw [emit] at h
    have hsides : Succeeds (emit lhs) ∧ Succeeds (emit rhs) := by
      split at h
      · obtain ⟨h, hrhs⟩ := succeeds_append (succeeds_append h).1
        exact ⟨(succeeds_append (succeeds_append h).1).2, hrhs⟩
      · obtain ⟨h, hrhs⟩ := succeeds_append (succeeds_call h)
        exact ⟨(succeeds_append h).1, hrhs⟩
    exact .binary (ih lhs (by simp [Expr.operands, Expr.children]) hsides.1)
      (ih rhs (by simp [Expr.operands, Expr.children]) hsides.2)
  | ternary loc condition yes no =>
    rw [emit] at h
    obtain ⟨h, hno⟩ := succeeds_append (succeeds_call h)
    obtain ⟨h, hyes⟩ := succeeds_append (succeeds_append h).1
    exact .ternary (ih condition (by simp [Expr.operands, Expr.children]) (succeeds_append h).1)
      (ih yes (by simp [Expr.operands, Expr.children]) hyes)
      (ih no (by simp [Expr.operands, Expr.children]) hno)
  | attr loc object name nameLoc =>
    rw [emit] at h
    refine .attr (ih object (by simp [Expr.operands, Expr.children]) ?_)
    split at h
    · exact succeeds_call h
    · exact (succeeds_append (succeeds_append h).1).1
  | call loc callee args =>
    cases callee with
    | attr attrLoc object name nameLoc =>
      rw [emit] at h
      obtain ⟨hobject, hargs⟩ := succeeds_append (succeeds_call h)
      exact .method (ih object (by simp [Expr.operands]) hobject)
        fun x hx => ih x (by simp [Expr.operands, hx]) (succeeds_of_emitMore hargs x hx)
    | ident nameLoc name =>
      rw [emit] at h
      exact .function fun x hx =>
        ih x (by simp [Expr.operands, hx]) (succeeds_of_emitList (succeeds_call h) x hx)
    | _ => exact absurd h not_succeeds_fail
  | index loc object place =>
    rw [emit] at h
    obtain ⟨h, hplace⟩ := succeeds_append (succeeds_call h)
    exact .index (ih object (by simp [Expr.operands, Expr.children]) (succeeds_append h).1)
      (ih place (by simp [Expr.operands, Expr.children]) hplace)
  | array loc elements =>
    rw [emit] at h
    have helements := (succeeds_append (succeeds_append h).1).2
    exact .array fun x hx =>
      ih x (by simp [Expr.operands, Expr.children, hx]) (succeeds_of_emitList helements x hx)
  | cast loc operand type typeLoc =>
    rw [emit] at h
    split at h
    · next function hcast =>
      exact .cast hcast (ih operand (by simp [Expr.operands, Expr.children]) (succeeds_call h))
    · exact absurd h not_succeeds_fail
  | sizeof loc operand =>
    rw [emit_sizeof] at h
    refine .sizeof ?_
    split at h
    · next name hname => exact lowerable_of_typeName hname
    · next hname => exact ih operand (mem_operands_sizeof hname) (succeeds_callQuoting h)
  | alignof loc operand => exact absurd h not_succeeds_fail

def printItems (ts : List (Expr Unit)) : List Char := (glyphs.items ts).flatMap spelling

def printMore (ts : List (Expr Unit)) : List Char := (glyphs.more ts).flatMap spelling

@[simp] theorem spelling_word (name : String) : (word name).spelling = name.toList := by
  simp [word, Lexeme.word, spelling, Scan.wordKind_ne_string]

@[simp] theorem spelling_symbol {kind : Kind} (h : kind ≠ .string) :
    (symbol kind).spelling = kind.text.toList := by
  simp [symbol, Lexeme.symbol, spelling, h]

@[simp] theorem spelling_number (text : String) : (number text).spelling = text.toList := rfl

@[simp] theorem spelling_blank : blank.spelling = [' '] := rfl

theorem print_callOf (name : String) (args : List (Expr Unit)) :
    print (callOf name args) = name.toList ++ '(' :: (printItems args ++ [')']) := by
  simp [print, callOf, glyphs, printItems, Kind.text]

theorem Emission.Writes.callOf {p : Emission} {name : String} {args : List (Expr Unit)}
    (h : Writes p (printItems args)) :
    Writes (Emission.call name p) (print (callOf name args)) := by
  rw [print_callOf]
  exact h.call

@[simp] theorem printItems_nil : printItems [] = [] := rfl

@[simp] theorem printItems_cons (t : Expr Unit) (ts : List (Expr Unit)) :
    printItems (t :: ts) = print t ++ printMore ts := by
  simp [printItems, printMore, print, glyphs.items]

@[simp] theorem printMore_nil : printMore [] = [] := rfl

@[simp] theorem printMore_cons (t : Expr Unit) (ts : List (Expr Unit)) :
    printMore (t :: ts) = ", ".toList ++ print t ++ printMore ts := by
  simp [printMore, print, glyphs.more, Kind.text]

theorem writes_emitMore {es : List (Expr Span)}
    (h : ∀ x ∈ es, Writes (emit x) (print (lowered x))) :
    Writes (emit.emitMore es) (printMore (lowered.loweredList es)) := by
  induction es with
  | nil => exact writes_write ""
  | cons e es ih =>
    rw [emit.emitMore, lowered.loweredList, printMore_cons]
    exact ((writes_write ", ").append (h e (by simp))).append (ih fun x hx => h x (by simp [hx]))

theorem writes_emitList {es : List (Expr Span)}
    (h : ∀ x ∈ es, Writes (emit x) (print (lowered x))) :
    Writes (emit.emitList es) (printItems (lowered.loweredList es)) := by
  cases es with
  | nil => exact writes_write ""
  | cons e es =>
    rw [emit.emitList, lowered.loweredList, printItems_cons]
    exact (h e (by simp)).append (writes_emitMore fun x hx => h x (by simp [hx]))

theorem print_unary {op : UnaryOp} {operand : Expr Unit} (h : negated? op operand = none)
    {name : String} (hform : unaryForm op = .native name) :
    print (.unary () op operand) = name.toList ++ print operand := by
  cases op <;> cases hform <;>
    simp [print, glyphs_unary h, Grammar.signKind, Kind.text]

theorem print_binary {op : BinaryOp} {lhs rhs : Expr Unit} {name : String}
    (hform : binaryForm op = .native name) :
    print (.binary () op lhs rhs) =
      '(' :: (print lhs ++ (" " ++ name ++ " ").toList ++ print rhs ++ [')']) := by
  cases op <;> cases hform <;> simp [print, glyphs, operatorKind, Kind.text]

/-- No other node is lowered to an integer literal. -/
theorem negated_lowered (op : UnaryOp) (e : Expr Span) :
    negated? op (lowered e) = negated? op e := by
  cases e with
  | unary loc op' operand => cases op' <;> cases op <;> rfl
  | binary loc op' lhs rhs => cases op' <;> cases op <;> rfl
  | attr loc object name nameLoc => rw [lowered]; split <;> cases op <;> rfl
  | call loc callee args => cases callee <;> cases op <;> rfl
  | cast loc operand type typeLoc => rw [lowered]; split <;> cases op <;> rfl
  | _ => cases op <;> rfl

theorem lower_eq_ok {e : Expr Span} {s : List Char} (h : Writes (emit e) s) :
    lower e = .ok (String.ofList s) := by
  simp [lower, Emitter.lower, Emitter.new, Emitter.clear, h ""]

theorem writes_negated {n : Nat} (h : n ≤ signedLimit) {loc l : Span} :
    Writes (emit (.unary loc .neg (.int l n))) (print (.unary () .neg (.int () n))) := by
  have hprint : print (.unary () .neg (.int () n)) = "-".toList ++ (toString n).toList := by
    change [symbol .minus, number (toString n)].flatMap spelling = _
    simp [Kind.text]
  rw [emit, hprint]
  split
  · next heq =>
    subst heq
    exact writes_write _
  · next hne =>
    have hlt : n < signedLimit := Nat.lt_of_le_of_ne h hne
    rw [if_neg (Nat.not_lt_of_le h), integerText, if_pos hlt]
    exact (writes_write "-").append (writes_write _)

theorem writes_leaf {e : Expr Span} {s : String} (hemit : emit e = write s)
    (hprint : print (lowered e) = s.toList) : Writes (emit e) (print (lowered e)) := by
  rw [hemit, hprint]
  exact writes_write s

theorem print_int (n : Nat) : print (.int () n) = (integerText n).toList := by
  change (if n < signedLimit then [number (toString n)] else
    [number (toString n), word "u"]).flatMap spelling = _
  unfold integerText
  split <;> simp

theorem print_float (value : Decimal.Double) :
    print (.float () value) = (Decimal.display.text value).toList := by
  change [number (Decimal.display.text value)].flatMap spelling = _
  simp

theorem print_ident (name : String) : print (.ident () name) = name.toList := by
  change [word name].flatMap spelling = _
  simp

theorem print_text (s : String) : print (.text () s) = (literalText s).toList := by
  change [some ⟨.string, s⟩].flatMap spelling = _
  simp [spelling, literalText]

theorem print_attr (object : Expr Unit) (name : String) :
    print (.attr () object name ()) = print object ++ '.' :: name.toList := by
  change (glyphs object ++ [symbol .dot, word name]).flatMap spelling = _
  simp [print, Kind.text]

theorem print_array (elements : List (Expr Unit)) :
    print (.array () elements) = '[' :: (printItems elements ++ [']']) := by
  change (symbol .lbracket :: (glyphs.items elements ++ [symbol .rbracket])).flatMap spelling = _
  simp [printItems, Kind.text]

/-- The emitter writes the target tree of a tree that can be lowered. -/
theorem Lowerable.writes {e : Expr Span} (h : Lowerable e) :
    Writes (emit e) (print (lowered e)) := by
  induction h with
  | @bool loc value => cases value <;> exact writes_leaf rfl rfl
  | int => exact writes_leaf rfl (print_int _)
  | float => exact writes_leaf rfl (print_float _)
  | text => exact writes_leaf rfl (print_text _)
  | null => exact writes_leaf rfl rfl
  | ident => exact writes_leaf rfl (print_ident _)
  | @special loc name => cases name <;> exact writes_leaf rfl rfl
  | @unary loc op operand hrange hoperand ih =>
    cases hnegated : negated? op operand with
    | some n =>
      obtain ⟨rfl, l, rfl⟩ := eq_of_negated hnegated
      exact writes_negated (hrange n hnegated)
    | none =>
      rw [emit_unary hnegated, lowered]
      cases hform : unaryForm op with
      | native name =>
        rw [print_unary ((negated_lowered op operand).trans hnegated) hform]
        exact (writes_write name).append ih
      | function name =>
        refine Writes.callOf ?_
        simpa using ih
  | @binary loc op lhs rhs hlhs hrhs ihl ihr =>
    rw [emit, lowered]
    cases hform : binaryForm op with
    | native name =>
      rw [print_binary hform]
      exact ((((writes_write "(").append ihl).append (writes_write _)).append ihr).append
        (writes_write ")")
    | function name =>
      refine Writes.callOf ?_
      simpa using (ihl.append (writes_write ", ")).append ihr
  | ternary _ _ _ ihc ihy ihn =>
    rw [emit, lowered]
    refine Writes.callOf ?_
    have hyes := (ihc.append (writes_write ", ")).append ihy
    simpa using (hyes.append (writes_write ", ")).append ihn
  | @attr loc object name nameLoc _ ih =>
    rw [emit, lowered]
    cases attribute? object name with
    | some function =>
      refine Writes.callOf ?_
      simpa using ih
    | none =>
      rw [print_attr]
      simpa using (ih.append (writes_write ".")).append (writes_write name)
  | method _ _ iho iha =>
    rw [emit, lowered]
    refine Writes.callOf ?_
    rw [printItems_cons]
    exact iho.append (writes_emitMore iha)
  | function _ iha =>
    rw [emit, lowered]
    exact Writes.callOf (writes_emitList iha)
  | index _ _ iho ihp =>
    rw [emit, lowered]
    refine Writes.callOf ?_
    simpa using (iho.append (writes_write ", ")).append ihp
  | array _ ih =>
    rw [emit, lowered, print_array]
    simpa using ((writes_write "[").append (writes_emitList ih)).append (writes_write "]")
  | cast hcast _ ih =>
    rw [emit, lowered]
    simp only [hcast]
    refine Writes.callOf ?_
    simpa using ih
  | @sizeof loc operand _ ih =>
    rw [emit_sizeof, lowered, typeText]
    cases hname : typeName? operand with
    | some name =>
      refine Writes.callOf ?_
      simpa [print_text] using writes_write (literalText name)
    | none =>
      rw [print_callOf, lower_eq_ok ih]
      simpa [print_text, literalText, Except.toOption] using ih.callQuoting

/-- A tree has a target text exactly if it can be lowered, and the text is that of its target
tree. -/
theorem lower_eq_ok_iff {e : Expr Span} {s : String} :
    lower e = .ok s ↔ Lowerable e ∧ s = String.ofList (print (lowered e)) := by
  constructor
  · intro h
    have hsucceeds : Succeeds (emit e) := by
      refine ⟨"", ?_⟩
      simp only [lower, Emitter.lower, Emitter.new, Emitter.clear] at h
      cases hfailure : (emit e "").failure with
      | none => rfl
      | some error => simp [hfailure] at h
    have hlowerable := lowerable_of_succeeds hsucceeds
    rw [lower_eq_ok hlowerable.writes] at h
    exact ⟨hlowerable, (Except.ok.inj h).symm⟩
  · rintro ⟨hlowerable, rfl⟩
    exact lower_eq_ok hlowerable.writes

/-- Every source that compiles has been read as some tree. -/
theorem exists_readExpr_of_compileToTarget {source target : String}
    (h : compileToTarget source = .ok target) : ∃ e, readExpr source = .ok e := by
  cases hread : readExpr source with
  | ok e => exact ⟨e, rfl⟩
  | error error =>
    rw [compileToTarget, hread] at h
    cases h

/-- A source has a target text if it is read without errors and its tree can be lowered. -/
theorem compileToTarget_eq_ok {source target : String} {e : Expr Span}
    (hread : readExpr source = .ok e) (h : compileToTarget source = .ok target) :
    Lowerable e ∧ target = String.ofList (print (lowered e)) := by
  rw [← lower_eq_ok_iff]
  have hlower : (lower e).mapError Error.lowering = .ok target := by
    rw [compileToTarget, hread] at h
    exact h
  cases hresult : lower e with
  | ok s =>
    rw [hresult] at hlower
    cases hlower
    rfl
  | error error =>
    rw [hresult] at hlower
    cases hlower

end Target

end SchemaExpr
