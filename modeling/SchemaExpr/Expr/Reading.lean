import SchemaExpr.Expr
import SchemaExpr.Parser
import SchemaExpr.Token.Lexer

/-!
# The constructs of expressions

An operand starts with a literal, a name, a bracket or a prefix operator, and members, calls,
indices and operators extend a tree. The constructs are described once, in terms of a few
operations: reading tokens, nested expressions and lists, and keeping the heights of trees. A
`Reading` gives these operations a meaning.
-/
namespace SchemaExpr

def maxDepth : Nat := 256

/-- The floor of the operand of a prefix operator, which no binary operator reaches. -/
def operandFloor : Nat := 11

structure Subtree where
  tree : Expr Span
  height : Nat

def Subtree.maxHeight : List Subtree → Nat
  | [] => 0
  | s :: ss => max s.height (maxHeight ss)

def BinaryOp.ofKind? : Kind → Option BinaryOp
  | .plus => some .add
  | .minus => some .sub
  | .star => some .mul
  | .slash => some .div
  | .percent => some .mod
  | .eqEq => some .eq
  | .bangEq => some .neq
  | .lt => some .lt
  | .gt => some .gt
  | .ltEq => some .ltEq
  | .gtEq => some .gtEq
  | .ampAmp => some .and
  | .pipePipe => some .or
  | .amp => some .bitAnd
  | .pipe => some .bitOr
  | .caret => some .bitXor
  | .shl => some .shl
  | .shr => some .shr
  | _ => none

namespace Parser

/-- The depth of brackets after a token, unless skipping ends before it: at a comma or `closer` that
no bracket opened on the way encloses. -/
def skipOver? (closer : Kind) (depth : Nat) (t : Token) : Option Nat :=
  if depth = 0 ∧ (t.kind = .comma ∨ t.kind = closer) then none
  else match t.kind with
    | .lparen | .lbracket => some (depth + 1)
    | .rparen | .rbracket => some (depth - 1)
    | _ => some depth

def skipTo (closer : Kind) : (depth : Nat) → List Token → List Token
  | _, [] => []
  | depth, t :: ts =>
    match skipOver? closer depth t with
    | none => t :: ts
    | some depth => skipTo closer depth ts

/-- Skips an element that cannot be read. -/
def skip (closer : Kind) : Parser Unit := fun ts => ⟨some (), skipTo closer 0 ts, []⟩

/-- What follows an element: a comma, which is read, or the closer, which is left. Anything else is
reported and skipped. -/
def separator (stop : Span) (closer : Kind) : Parser Unit := fun ts =>
  let t := current stop ts
  if t.kind = .comma then ⟨some (), ts.drop 1, []⟩
  else if t.kind = closer then ⟨some (), ts, []⟩
  else
    let rest := skipTo closer 0 ts
    let rest := if (current stop rest).kind = .comma then rest.drop 1 else rest
    ⟨some (), rest, [⟨.expectedSeparator closer t.toLexeme, t.span⟩]⟩

theorem skipTo_suffix (closer : Kind) (depth : Nat) (ts : List Token) :
    skipTo closer depth ts <:+ ts := by
  induction ts generalizing depth with
  | nil => exact List.suffix_refl _
  | cons t ts ih =>
    unfold skipTo
    split
    · exact List.suffix_refl _
    · exact (ih _).trans (List.suffix_cons t ts)

theorem skipTo_length_lt {closer : Kind} {t : Token} (ts : List Token) (hcomma : t.kind ≠ .comma)
    (hcloser : t.kind ≠ closer) : (skipTo closer 0 (t :: ts)).length < (t :: ts).length := by
  have hover : skipOver? closer 0 t ≠ none := by
    simp only [skipOver?, hcomma, hcloser, or_self, and_false, ↓reduceIte]
    split <;> simp
  unfold skipTo
  split
  · contradiction
  · exact Nat.lt_succ_of_le (skipTo_suffix closer _ ts).length_le

theorem shrinks_skip (closer : Kind) : (skip closer).Shrinks := skipTo_suffix closer 0

theorem separator_value (stop : Span) (closer : Kind) (ts : List Token) :
    (separator stop closer ts).value = some () := by
  unfold separator
  simp only
  split
  · rfl
  · split <;> rfl

theorem shrinks_separator (stop : Span) (closer : Kind) : (separator stop closer).Shrinks := by
  intro ts
  unfold separator
  simp only
  split
  · exact List.drop_suffix 1 ts
  · split
    · exact List.suffix_refl ts
    · simp only
      split
      · exact (List.drop_suffix 1 _).trans (skipTo_suffix closer 0 ts)
      · exact skipTo_suffix closer 0 ts

/-- What follows `.as<` in a cast: a type name and `>()`. -/
def castTail (stop : Span) (lhs : Subtree) : Parser Subtree := fun ts =>
  match ts with
  | [] => failHere stop .expectedTypeName []
  | t :: rest =>
    if t.kind = .gt then fail .emptyTypeName t.span ts
    else if t.kind = .ident then
      (do
        let _ ← expect stop .gt
        let _ ← expect stop .lparen
        let closing ← expect stop .rparen
        pure ⟨.cast (lhs.tree.loc.join closing.span) lhs.tree t.literal t.span, lhs.height + 1⟩ :
        Parser Subtree) rest
    else failHere stop .expectedTypeName ts

/-- What follows a point: a member name, or a cast. -/
def member (stop : Span) (lhs : Subtree) : Parser Subtree := fun ts =>
  match ts with
  | [] => failHere stop .expectedMember []
  | t :: rest =>
    match t.kind with
    | .asCast =>
      match rest with
      | u :: tail =>
        if u.kind = .lt then castTail stop lhs tail
        else fail (.expectedTypeList u.toLexeme) u.span ts
      | [] => fail (.expectedTypeList Lexeme.eof) stop ts
    | .ident | .special _ =>
      ⟨some ⟨.attr (lhs.tree.loc.join t.span) lhs.tree t.literal t.span, lhs.height + 1⟩, rest, []⟩
    | _ => failHere stop .expectedMember ts

/-- Reports a call of something that is not a name or a member. -/
def checkCallable (lhs : Subtree) (opening : Token) : Parser Unit :=
  if lhs.tree.isCallable then pure () else report .notCallable (lhs.tree.loc.join opening.span)

theorem shrinks_castTail (stop : Span) (lhs : Subtree) : (castTail stop lhs).Shrinks := by
  intro ts
  cases ts with
  | nil => exact List.suffix_refl _
  | cons t ts =>
    simp only [castTail]
    split
    · exact List.suffix_refl _
    · split
      · have hp := (shrinks_expect stop .gt).bind fun _ => (shrinks_expect stop .lparen).bind
          fun _ => (shrinks_expect stop .rparen).bind fun closing => shrinks_pure
            (⟨.cast (lhs.tree.loc.join closing.span) lhs.tree t.literal t.span, lhs.height + 1⟩ :
              Subtree)
        exact (hp ts).trans (List.suffix_cons t ts)
      · exact List.suffix_refl _

theorem shrinks_member (stop : Span) (lhs : Subtree) : (member stop lhs).Shrinks := by
  intro ts
  cases ts with
  | nil => exact List.suffix_refl _
  | cons t ts =>
    simp only [member]
    split
    · cases ts with
      | nil => exact List.suffix_refl _
      | cons u tail =>
        simp only
        split
        · exact (shrinks_castTail stop lhs tail).trans
            ((List.suffix_cons u tail).trans (List.suffix_cons t _))
        · exact List.suffix_refl _
    · exact List.suffix_cons t ts
    · exact List.suffix_cons t ts
    · exact List.suffix_refl _

theorem shrinks_checkCallable (lhs : Subtree) (opening : Token) :
    (checkCallable lhs opening).Shrinks := by
  unfold checkCallable
  split
  · exact shrinks_pure _
  · exact shrinks_report _ _

end Parser

/-- The operations of the constructs without lists, on trees of type `τ`. -/
structure Steps (M : Type → Type) (τ : Type) where
  /-- The end of the source. -/
  stop : Span
  /-- Reads tokens that belong to the construct itself. -/
  lift : {α : Type} → (p : Parser α) → p.Shrinks → M α
  /-- Goes on whether or not something can be read. -/
  attempt : {α : Type} → M α → M (Option α)
  nested : (floor : Nat) → M τ
  tree : τ → Expr Span
  leaf : Expr Span → τ
  /-- The same with another tree. -/
  withTree : τ → Expr Span → τ
  /-- Before an operand is read. -/
  start : M Unit
  /-- The height of what was read last. -/
  height : τ → M Nat
  setHeight : τ → Nat → M τ

namespace Steps

variable {M : Type → Type} [Monad M] {τ : Type} (r : Steps M τ)

/-- An element with its height. One that cannot be read is skipped. -/
def item (closer : Kind) : M (Option (τ × Nat)) := do
  match ← r.attempt (r.nested 0) with
  | some x => do
    let height ← r.height x
    pure (some (x, height))
  | none => do
    r.lift (Parser.skip closer) (Parser.shrinks_skip closer)
    pure none

/-- The element at the given token and what separates it from the next one. -/
def elementAt (closer : Kind) : Option Token → M (Option (Option (τ × Nat)))
  | none => pure none
  | some t =>
    if t.kind = closer then pure none
    else do
      let item ← r.item closer
      r.lift (Parser.separator r.stop closer) (Parser.shrinks_separator r.stop closer)
      pure (some item)

/-- One turn of the loop over the elements of a list: nothing at its end, and otherwise the element,
if one can be read. -/
def element (closer : Kind) : M (Option (Option (τ × Nat))) := do
  r.elementAt closer (← r.lift Parser.peek Parser.shrinks_peek)

end Steps

/-- The operations of the constructs. -/
structure Reading (M : Type → Type) (τ : Type) extends Steps M τ where
  /-- Reads the elements of a list and its closer. -/
  list : (closer : Kind) → M (List τ × Option Span)
  /-- The height of the tallest element of the list that was read last. -/
  tallest : List τ → M Nat

namespace Reading

variable {M : Type → Type} [Monad M] {τ : Type} (r : Reading M τ)

def expect (kind : Kind) : M Token :=
  r.lift (Parser.expect r.stop kind) (Parser.shrinks_expect r.stop kind)

def unary (op : UnaryOp) (sign : Token) : M τ := do
  let x ← r.nested operandFloor
  let x ← r.setHeight x ((← r.height x) + 1)
  pure (r.withTree x (.unary (sign.span.join (r.tree x).loc) op (r.tree x)))

/-- The content of parentheses. It stands even if the closing one is missing. -/
def group (opening : Token) : M τ := do
  let x ← r.nested 0
  match ← r.attempt (r.expect .rparen) with
  | some closing => pure (r.withTree x ((r.tree x).withLoc (opening.span.join closing.span)))
  | none => pure x

def array (opening : Token) : M τ := do
  let (items, close) ← r.list .rbracket
  let span := opening.span.join (close.getD opening.span)
  r.setHeight (r.leaf (.array span (items.map r.tree))) ((← r.tallest items) + 1)

def measured (node : Span → Expr Span → Expr Span) (word : Token) : M τ := do
  let _ ← r.expect .lparen
  let x ← r.nested 0
  let x ← r.setHeight x ((← r.height x) + 1)
  let closing ← r.expect .rparen
  pure (r.withTree x (node (word.span.join closing.span) (r.tree x)))

def number (t : Token) : M τ :=
  match Literal.readNumber t.literal.toList with
  | .ok (.int value) => pure (r.leaf (.int t.span value))
  | .ok (.float value) => pure (r.leaf (.float t.span value))
  | .error fault =>
    r.lift (Parser.fail (.number fault t.literal) t.span) (Parser.shrinks_fail _ _)

/-- How the token `t` begins an expression, if it does: the reader of what follows `t`. -/
def beginning (t : Token) : Option (M τ) :=
  match t.kind with
  | .number => some (r.number t)
  | .string => some (pure (r.leaf (.text t.span t.literal)))
  | .boolean => some (pure (r.leaf (.bool t.span (t.literal == "true"))))
  | .null => some (pure (r.leaf (.null t.span)))
  | .ident => some (pure (r.leaf (.ident t.span t.literal)))
  | .special s => some (pure (r.leaf (.special t.span s)))
  | .minus => some (r.unary .neg t)
  | .bang => some (r.unary .not t)
  | .tilde => some (r.unary .bitNot t)
  | .lparen => some (r.group t)
  | .lbracket => some (r.array t)
  | .sizeof => some (r.measured .sizeof t)
  | .alignof => some (r.measured .alignof t)
  | _ => none

def operandAt : Option Token → M τ
  | none => r.lift (Parser.fail .noExpression r.stop) (Parser.shrinks_fail _ _)
  | some t =>
    match r.beginning t with
    | some p => do
      r.lift Parser.advance Parser.shrinks_advance
      p
    | none =>
      let fault := if t.kind = .illegal then .illegal else .unexpected
      r.lift (Parser.failHere r.stop fault) (Parser.shrinks_failHere _ _)

/-- What an expression starts with: a literal, a name, a bracket or a prefix operator. -/
def operand : M τ := do
  r.start
  r.operandAt (← r.lift Parser.peek Parser.shrinks_peek)

def call (lhs : Subtree) (opening : Token) : M Subtree := do
  r.lift (Parser.checkCallable lhs opening) (Parser.shrinks_checkCallable lhs opening)
  let (args, close) ← r.list .rparen
  let span := lhs.tree.loc.join (close.getD opening.span)
  let top ← r.tallest args
  pure ⟨.call span lhs.tree (args.map r.tree), max lhs.height top + 1⟩

def index (lhs : Subtree) : M Subtree := do
  let x ← r.nested 0
  let closing ← r.expect .rbracket
  let top ← r.height x
  pure ⟨.index (lhs.tree.loc.join closing.span) lhs.tree (r.tree x), max lhs.height top + 1⟩

def ternary (lhs : Subtree) : M Subtree := do
  let yes ← r.nested 0
  let top ← r.height yes
  let _ ← r.expect .colon
  let no ← r.nested 0
  let no ← r.setHeight no (max (← r.height no) top)
  let top ← r.height no
  pure ⟨.ternary (lhs.tree.loc.join (r.tree no).loc) lhs.tree (r.tree yes) (r.tree no),
    max lhs.height top + 1⟩

def binary (op : BinaryOp) (lhs : Subtree) : M Subtree := do
  let rhs ← r.nested (op.tier + 1)
  let top ← r.height rhs
  pure ⟨.binary (lhs.tree.loc.join (r.tree rhs).loc) op lhs.tree (r.tree rhs),
    max lhs.height top + 1⟩

/-- How the token `t` extends the tree `lhs`, if it does: the reader of what follows `t`. -/
def continuation (floor : Nat) (lhs : Subtree) (t : Token) : Option (M Subtree) :=
  match t.kind with
  | .dot => some (r.lift (Parser.member r.stop lhs) (Parser.shrinks_member r.stop lhs))
  | .lparen => some (r.call lhs t)
  | .lbracket => some (r.index lhs)
  | .question => if floor = 0 then some (r.ternary lhs) else none
  | kind =>
    match BinaryOp.ofKind? kind with
    | some op => if floor ≤ op.tier then some (r.binary op lhs) else none
    | none => none

/-- The tree that a continuation makes, if there is one. -/
def extendBy : Option (M Subtree) → M (Option Subtree)
  | none => pure none
  | some p => do
    r.lift Parser.advance Parser.shrinks_advance
    let longer ← p
    pure (some longer)

/-- One turn of the loop over what follows a tree: the longer tree, or nothing where nothing extends
the tree. A tree that is too tall is refused. -/
def extend (floor : Nat) (lhs : Subtree) : M (Option Subtree) :=
  if maxDepth < lhs.height then
    r.lift (Parser.fail .tooDeep lhs.tree.loc) (Parser.shrinks_fail _ _)
  else do
    let t ← r.lift Parser.peek Parser.shrinks_peek
    r.extendBy (t.bind (r.continuation floor lhs))

end Reading

end SchemaExpr
