import SchemaExpr.Expr.Parse

/-!
# The grammar of expressions

The strata of the language, from the loosest: a conditional, ten strata of left-associative binary
operators, prefix operators, and primaries with members, casts, calls and indices after them. A
stratum is numbered by the floor at which its phrases are read: zero for a conditional, one to ten
for the binary operators and `operandFloor` for the prefix operators.

A phrase is made of its own operands on the left and of phrases one level further in: the operand of
a prefix operator, a right operand, a branch, and what stands in brackets. The phrases of one level
are defined over those of the level below it, so `Derives n` is the language of phrases that nest at
most `n` deep. Every phrase has a tree. Parentheses leave no node, but the node inside takes over
their span.
-/
namespace SchemaExpr.Grammar

/-- Phrases with their trees, by stratum. -/
abbrev Language := Nat → List Token → Expr Span → Prop

def leaf? (t : Token) : Option (Expr Span) :=
  match t.kind with
  | .number =>
    match Literal.readNumber t.literal.toList with
    | .ok (.int value) => some (.int t.span value)
    | .ok (.float value) => some (.float t.span value)
    | .error _ => none
  | .string => some (.text t.span t.literal)
  | .boolean => some (.bool t.span (t.literal == "true"))
  | .null => some (.null t.span)
  | .ident => some (.ident t.span t.literal)
  | .special s => some (.special t.span s)
  | _ => none

def signKind : UnaryOp → Kind
  | .neg => .minus
  | .not => .bang
  | .bitNot => .tilde

/-- The binary operators of the strata one to ten. -/
def operators : Nat → List (Kind × BinaryOp)
  | 1 => [(.pipePipe, .or)]
  | 2 => [(.ampAmp, .and)]
  | 3 => [(.pipe, .bitOr)]
  | 4 => [(.caret, .bitXor)]
  | 5 => [(.amp, .bitAnd)]
  | 6 => [(.eqEq, .eq), (.bangEq, .neq)]
  | 7 => [(.lt, .lt), (.gt, .gt), (.ltEq, .ltEq), (.gtEq, .gtEq)]
  | 8 => [(.shl, .shl), (.shr, .shr)]
  | 9 => [(.plus, .add), (.minus, .sub)]
  | 10 => [(.star, .mul), (.slash, .div), (.percent, .mod)]
  | _ => []

inductive Items (item : List Token → Expr Span → Prop) : List Token → List (Expr Span) → Prop
  | nil : Items item [] []
  | last {ts e} : item ts e → Items item ts [e]
  | cons {ts comma rest e es} : item ts e → comma.kind = .comma → Items item rest es →
      Items item (ts ++ comma :: rest) (e :: es)

inductive Primary (inner : Language) : List Token → Expr Span → Prop
  | leaf {t e} : leaf? t = some e → Primary inner [t] e
  | group {opening ts closing e} : opening.kind = .lparen → inner 0 ts e → closing.kind = .rparen →
      Primary inner (opening :: (ts ++ [closing])) (e.withLoc (opening.span.join closing.span))
  | array {opening ts closing es} : opening.kind = .lbracket → Items (inner 0) ts es →
      closing.kind = .rbracket →
      Primary inner (opening :: (ts ++ [closing])) (.array (opening.span.join closing.span) es)
  | sizeof {word opening ts closing e} : word.kind = .sizeof → opening.kind = .lparen →
      inner 0 ts e → closing.kind = .rparen →
      Primary inner (word :: opening :: (ts ++ [closing])) (.sizeof (word.span.join closing.span) e)
  | alignof {word opening ts closing e} : word.kind = .alignof → opening.kind = .lparen →
      inner 0 ts e → closing.kind = .rparen →
      Primary inner (word :: opening :: (ts ++ [closing]))
        (.alignof (word.span.join closing.span) e)

/-- A primary with members, casts, calls and indices after it. Only names and members are called. -/
inductive Chain (inner : Language) : List Token → Expr Span → Prop
  | primary {ts e} : Primary inner ts e → Chain inner ts e
  | member {ts e dot name} : Chain inner ts e → dot.kind = .dot →
      name.kind = .ident ∨ name.kind.isSpecial = true →
      Chain inner (ts ++ [dot, name]) (.attr (e.loc.join name.span) e name.literal name.span)
  | cast {ts e dot word less type greater opening closing} : Chain inner ts e → dot.kind = .dot →
      word.kind = .asCast → less.kind = .lt → type.kind = .ident → greater.kind = .gt →
      opening.kind = .lparen → closing.kind = .rparen →
      Chain inner (ts ++ [dot, word, less, type, greater, opening, closing])
        (.cast (e.loc.join closing.span) e type.literal type.span)
  | call {ts e opening us args closing} : Chain inner ts e → e.isCallable = true →
      opening.kind = .lparen → Items (inner 0) us args → closing.kind = .rparen →
      Chain inner (ts ++ opening :: (us ++ [closing])) (.call (e.loc.join closing.span) e args)
  | index {ts e opening us place closing} : Chain inner ts e → opening.kind = .lbracket →
      inner 0 us place → closing.kind = .rbracket →
      Chain inner (ts ++ opening :: (us ++ [closing])) (.index (e.loc.join closing.span) e place)

/-- The phrases of one level, whose nested phrases are those of `inner`. -/
inductive Phrase (inner : Language) : Language
  | chain {ts e} : Chain inner ts e → Phrase inner operandFloor ts e
  | unary {op sign ts e} : sign.kind = signKind op → inner operandFloor ts e →
      Phrase inner operandFloor (sign :: ts) (.unary (sign.span.join e.loc) op e)
  | tighter {k ts e} : k < operandFloor → Phrase inner (k + 1) ts e → Phrase inner k ts e
  | binary {k op symbol ls lhs rs rhs} : (symbol.kind, op) ∈ operators k → Phrase inner k ls lhs →
      inner (k + 1) rs rhs →
      Phrase inner k (ls ++ symbol :: rs) (.binary (lhs.loc.join rhs.loc) op lhs rhs)
  | ternary {question colon cs condition ys yes ns no} : Phrase inner 1 cs condition →
      question.kind = .question → inner 0 ys yes → colon.kind = .colon → inner 0 ns no →
      Phrase inner 0 (cs ++ question :: (ys ++ colon :: ns))
        (.ternary (condition.loc.join no.loc) condition yes no)

/-- The phrases that nest at most `levels` deep; the outermost phrase is the first level. -/
def Derives : (levels : Nat) → Language
  | 0 => fun _ _ _ => False
  | levels + 1 => Phrase (Derives levels)

/-- The tokens of a whole expression within both limits: the depth of nesting and the height of the
tree. -/
def Sentence (ts : List Token) (e : Expr Span) : Prop :=
  Derives maxDepth 0 ts e ∧ e.height ≤ maxDepth

theorem mem_operators_iff {k : Nat} {kind : Kind} {op : BinaryOp} :
    (kind, op) ∈ operators k ↔ BinaryOp.ofKind? kind = some op ∧ op.tier = k := by
  constructor
  · intro h
    unfold operators at h
    split at h <;> simp at h <;> grind [BinaryOp.ofKind?, BinaryOp.tier]
  · rintro ⟨h, rfl⟩
    unfold BinaryOp.ofKind? at h
    split at h <;> cases h <;> simp [BinaryOp.tier, operators]

end SchemaExpr.Grammar
