import SchemaExpr.Expr.Reading

/-!
# Parsing expressions

An expression is an operand followed by members, calls, indices and operators, each of which takes
the tree built so far as its left part. A floor says how tightly an operator must bind to be taken:
everything is taken at floor zero, and the right operand of an operator of some tier has the next
tier as its floor.

Expressions nest at most `maxDepth` deep and trees are at most `maxDepth` nodes tall. An element of
a list that cannot be read is reported and skipped, so that the elements after it are still read.
-/
namespace SchemaExpr

/-- The parser of the expressions one level further in, by floor. -/
structure Nested where
  run : Nat → Parser Subtree
  shrinks : ∀ floor, (run floor).Shrinks
  /-- An expression has at least one token. -/
  consumes : ∀ floor ts, (run floor ts).value.isSome → (run floor ts).rest.length < ts.length

/-- Reading in terms of the parser of the expressions one level further in. A tree carries its
height. -/
def Nested.steps (stop : Span) (inner : Nested) : Steps Parser Subtree where
  stop := stop
  lift p _ := p
  attempt := Parser.attempt
  nested := inner.run
  tree s := s.tree
  leaf e := ⟨e, 1⟩
  withTree s e := { s with tree := e }
  start := pure ()
  height s := pure s.height
  setHeight s height := pure { s with height := height }

namespace Parser

/-- The tokens after an attempt at an element: one that cannot be read is skipped. -/
def afterElement (closer : Kind) (item : Outcome Subtree) : List Token :=
  if item.value.isSome then item.rest else skipTo closer 0 item.rest

theorem afterElement_suffix (inner : Nested) (closer : Kind) (ts : List Token) :
    afterElement closer (inner.run 0 ts) <:+ ts := by
  unfold afterElement
  split
  · exact inner.shrinks 0 ts
  · exact (skipTo_suffix closer 0 _).trans (inner.shrinks 0 ts)

theorem separator_afterElement_lt (stop : Span) (inner : Nested) {closer : Kind} {t : Token}
    (ts : List Token) (hcloser : t.kind ≠ closer) :
    (separator stop closer (afterElement closer (inner.run 0 (t :: ts)))).rest.length
      < (t :: ts).length := by
  have hsep := (shrinks_separator stop closer
    (afterElement closer (inner.run 0 (t :: ts)))).length_le
  unfold afterElement at *
  split
  · next hsome =>
    simp only [hsome, ↓reduceIte] at hsep
    exact Nat.lt_of_le_of_lt hsep (inner.consumes 0 _ hsome)
  · next hnone =>
    simp only [hnone, Bool.false_eq_true, ↓reduceIte] at hsep
    have hskip := (skipTo_suffix closer 0 (inner.run 0 (t :: ts)).rest).length_le
    rcases Nat.lt_or_eq_of_le (inner.shrinks 0 (t :: ts)).length_le with hlt | heq
    · omega
    · rw [(inner.shrinks 0 (t :: ts)).eq_of_length heq] at hsep ⊢
      by_cases hcomma : t.kind = .comma
      · simp [skipTo, skipOver?, separator, current, hcomma]
      · have := skipTo_length_lt ts hcomma hcloser
        omega

/-- The elements of a list up to its closer, with what is left and the errors on the way. -/
structure Elements where
  items : List Subtree
  rest : List Token
  errors : List SyntaxError

section Elements

variable (stop : Span) (inner : Nested) {closer : Kind}

theorem item_eq (closer : Kind) (ts : List Token) : (inner.steps stop).item closer ts =
    let item := inner.run 0 ts
    ⟨some (item.value.map fun s => (s, s.height)), afterElement closer item, item.errors⟩ := by
  unfold Steps.item
  cases h : (inner.run 0 ts).value <;>
    simp [Nested.steps, bind, andThen, attempt, pure, h, afterElement, skip]

theorem element_cons_of_eq {t : Token} (ts : List Token) (h : t.kind = closer) :
    (inner.steps stop).element closer (t :: ts) = ⟨some none, t :: ts, []⟩ := by
  change (inner.steps stop).elementAt closer (some t) (t :: ts) = _
  rw [Steps.elementAt, if_pos h]
  rfl

theorem element_cons_of_ne {t : Token} (ts : List Token) (h : t.kind ≠ closer) :
    (inner.steps stop).element closer (t :: ts) =
      let item := inner.run 0 (t :: ts)
      let sep := separator stop closer (afterElement closer item)
      ⟨some (some (item.value.map fun s => (s, s.height))), sep.rest,
        item.errors ++ sep.errors⟩ := by
  change (inner.steps stop).elementAt closer (some t) (t :: ts) = _
  rw [Steps.elementAt, if_neg h]
  change andThen ((inner.steps stop).item closer)
    (fun item => andThen (separator stop closer) fun _ => pure (some item)) (t :: ts) = _
  simp [andThen, item_eq, separator_value, pure]

theorem shrinks_element (closer : Kind) : ((inner.steps stop).element closer).Shrinks := by
  intro ts
  cases ts with
  | nil => exact List.suffix_refl _
  | cons t ts =>
    by_cases h : t.kind = closer
    · simp only [element_cons_of_eq stop inner ts h, List.suffix_refl]
    · rw [element_cons_of_ne stop inner ts h]
      exact (shrinks_separator stop closer _).trans (afterElement_suffix inner closer _)

theorem exists_element_value (closer : Kind) (ts : List Token) :
    ∃ turn, ((inner.steps stop).element closer ts).value = some turn := by
  cases ts with
  | nil => exact ⟨none, rfl⟩
  | cons t ts =>
    by_cases h : t.kind = closer
    · exact ⟨none, by rw [element_cons_of_eq stop inner ts h]⟩
    · exact ⟨some _, by rw [element_cons_of_ne stop inner ts h]⟩

/-- An element and its separator have at least one token. -/
theorem element_length_lt {item : Option (Subtree × Nat)} {ts : List Token}
    (h : ((inner.steps stop).element closer ts).value = some (some item)) :
    ((inner.steps stop).element closer ts).rest.length < ts.length := by
  cases ts with
  | nil => cases h
  | cons t ts =>
    by_cases hcloser : t.kind = closer
    · rw [element_cons_of_eq stop inner ts hcloser] at h
      cases h
    · rw [element_cons_of_ne stop inner ts hcloser]
      exact separator_afterElement_lt stop inner ts hcloser

def elements (closer : Kind) (ts : List Token) : Elements :=
  let turn := (inner.steps stop).element closer ts
  match h : turn.value with
  | some (some item) =>
    have := element_length_lt stop inner h
    let more := elements closer turn.rest
    ⟨(item.map (·.1)).toList ++ more.items, more.rest, turn.errors ++ more.errors⟩
  | _ => ⟨[], turn.rest, turn.errors⟩
termination_by ts.length

theorem elements_eq (closer : Kind) (ts : List Token) : elements stop inner closer ts =
    let turn := (inner.steps stop).element closer ts
    match turn.value with
    | some (some item) =>
      let more := elements stop inner closer turn.rest
      ⟨(item.map (·.1)).toList ++ more.items, more.rest, turn.errors ++ more.errors⟩
    | _ => ⟨[], turn.rest, turn.errors⟩ := by
  rw [elements]
  simp only
  split <;> next h => simp [h]

theorem elements_nil (closer : Kind) : elements stop inner closer [] = ⟨[], [], []⟩ := by
  rw [elements_eq]
  rfl

theorem elements_cons_of_eq {t : Token} (ts : List Token) (h : t.kind = closer) :
    elements stop inner closer (t :: ts) = ⟨[], t :: ts, []⟩ := by
  rw [elements_eq]
  simp [element_cons_of_eq stop inner ts h]

theorem elements_cons_of_ne {t : Token} (ts : List Token) (h : t.kind ≠ closer) :
    elements stop inner closer (t :: ts) =
      let item := inner.run 0 (t :: ts)
      let sep := separator stop closer (afterElement closer item)
      let more := elements stop inner closer sep.rest
      ⟨item.value.toList ++ more.items, more.rest, item.errors ++ (sep.errors ++ more.errors)⟩ := by
  rw [elements_eq]
  simp [element_cons_of_ne stop inner ts h, Function.comp_def]

/-- The loop takes an element and its separator at a time. -/
@[elab_as_elim] theorem elements_induction (closer : Kind) {motive : List Token → Prop}
    (nil : motive []) (closed : ∀ t ts, t.kind = closer → motive (t :: ts))
    (cons : ∀ t ts, t.kind ≠ closer →
      motive (separator stop closer (afterElement closer (inner.run 0 (t :: ts)))).rest →
      motive (t :: ts)) (ts : List Token) : motive ts := by
  induction hlength : ts.length using Nat.strongRecOn generalizing ts with
  | ind length ih =>
  subst hlength
  cases ts with
  | nil => exact nil
  | cons t ts =>
    by_cases h : t.kind = closer
    · exact closed t ts h
    · exact cons t ts h (ih _ (separator_afterElement_lt stop inner ts h) _ rfl)

theorem elements_suffix (closer : Kind) (ts : List Token) :
    (elements stop inner closer ts).rest <:+ ts := by
  induction ts using elements_induction stop inner closer with
  | nil => simp only [elements_nil, List.suffix_refl]
  | closed t ts h => simp only [elements_cons_of_eq stop inner ts h, List.suffix_refl]
  | cons t ts h ih =>
    rw [elements_cons_of_ne stop inner ts h]
    exact ih.trans ((shrinks_separator stop closer _).trans (afterElement_suffix inner closer _))

end Elements

/-- The elements of a list whose opening bracket is read, and the span of the closing one. -/
def list (stop : Span) (inner : Nested) (closer : Kind) : Parser (List Subtree × Option Span) :=
  fun ts =>
    let found := elements stop inner closer ts
    let close := expect stop closer found.rest
    ⟨some (found.items, close.value.map (·.span)), close.rest, found.errors ++ close.errors⟩

theorem shrinks_list (stop : Span) (inner : Nested) (closer : Kind) :
    (list stop inner closer).Shrinks :=
  fun ts => (shrinks_expect stop closer _).trans (elements_suffix stop inner closer ts)

end Parser

def Nested.reading (stop : Span) (inner : Nested) : Reading Parser Subtree where
  toSteps := inner.steps stop
  list := Parser.list stop inner
  tallest items := pure (Subtree.maxHeight items)

namespace Nested

variable (stop : Span) (inner : Nested)

@[simp] theorem reading_stop : (inner.reading stop).stop = stop := rfl

@[simp] theorem reading_lift {α : Type} (p : Parser α) (hp : p.Shrinks) :
    (inner.reading stop).lift p hp = p := rfl

@[simp] theorem reading_tree : (inner.reading stop).tree = fun s => s.tree := rfl

@[simp] theorem reading_leaf (e : Expr Span) : (inner.reading stop).leaf e = ⟨e, 1⟩ := rfl

@[simp] theorem reading_withTree (s : Subtree) (e : Expr Span) :
    (inner.reading stop).withTree s e = ⟨e, s.height⟩ := rfl

@[simp] theorem reading_tallest (items : List Subtree) :
    (inner.reading stop).tallest items = pure (Subtree.maxHeight items) := rfl

end Nested

namespace Parser

section Constructs

variable (stop : Span) (inner : Nested)

theorem shrinks_unary (op : UnaryOp) (sign : Token) :
    ((inner.reading stop).unary op sign).Shrinks :=
  (inner.shrinks _).bind fun _ => shrinks_pure _

theorem shrinks_group (opening : Token) : ((inner.reading stop).group opening).Shrinks := by
  refine (inner.shrinks 0).bind fun x => (shrinks_expect stop _).attempt.bind fun close => ?_
  cases close <;> exact shrinks_pure _

theorem shrinks_array (opening : Token) : ((inner.reading stop).array opening).Shrinks :=
  (shrinks_list stop inner _).bind fun _ => shrinks_pure _

theorem shrinks_measured (node : Span → Expr Span → Expr Span) (word : Token) :
    ((inner.reading stop).measured node word).Shrinks :=
  (shrinks_expect stop _).bind fun _ => (inner.shrinks 0).bind fun _ =>
    (shrinks_expect stop _).bind fun _ => shrinks_pure _

theorem shrinks_number (t : Token) : ((inner.reading stop).number t).Shrinks := by
  unfold Reading.number
  split
  · exact shrinks_pure _
  · exact shrinks_pure _
  · exact shrinks_fail _ _

theorem shrinks_of_beginning {stop : Span} {inner : Nested} {t : Token} {p : Parser Subtree}
    (h : (inner.reading stop).beginning t = some p) : p.Shrinks := by
  unfold Reading.beginning at h
  split at h <;> cases h
  case h_1 => exact shrinks_number stop inner t
  case h_7 => exact shrinks_unary stop inner .neg t
  case h_8 => exact shrinks_unary stop inner .not t
  case h_9 => exact shrinks_unary stop inner .bitNot t
  case h_10 => exact shrinks_group stop inner t
  case h_11 => exact shrinks_array stop inner t
  case h_12 => exact shrinks_measured stop inner .sizeof t
  case h_13 => exact shrinks_measured stop inner .alignof t
  all_goals exact shrinks_pure _

theorem operand_cons (t : Token) (ts : List Token) : (inner.reading stop).operand (t :: ts) =
    match (inner.reading stop).beginning t with
    | some p => p ts
    | none => failHere stop (if t.kind = .illegal then .illegal else .unexpected) (t :: ts) := by
  change (inner.reading stop).operandAt (some t) (t :: ts) = _
  rw [Reading.operandAt]
  cases (inner.reading stop).beginning t <;> rfl

theorem shrinks_operand : (inner.reading stop).operand.Shrinks := by
  intro ts
  cases ts with
  | nil => exact List.suffix_refl _
  | cons t ts =>
    rw [operand_cons]
    split
    · next p h => exact (shrinks_of_beginning h ts).trans (List.suffix_cons t ts)
    · exact List.suffix_refl _

theorem operand_consumes (ts : List Token) (h : ((inner.reading stop).operand ts).value.isSome) :
    ((inner.reading stop).operand ts).rest.length < ts.length := by
  cases ts with
  | nil => cases h
  | cons t ts =>
    rw [operand_cons] at h ⊢
    split at h
    · next p hp => exact Nat.lt_succ_of_le (shrinks_of_beginning hp ts).length_le
    · cases h

theorem shrinks_call (lhs : Subtree) (opening : Token) :
    ((inner.reading stop).call lhs opening).Shrinks :=
  (shrinks_checkCallable lhs opening).bind fun _ =>
    (shrinks_list stop inner _).bind fun _ => shrinks_pure _

theorem shrinks_index (lhs : Subtree) : ((inner.reading stop).index lhs).Shrinks :=
  (inner.shrinks 0).bind fun _ => (shrinks_expect stop _).bind fun _ => shrinks_pure _

theorem shrinks_ternary (lhs : Subtree) : ((inner.reading stop).ternary lhs).Shrinks :=
  (inner.shrinks 0).bind fun _ => (shrinks_expect stop _).bind fun _ =>
    (inner.shrinks 0).bind fun _ => shrinks_pure _

theorem shrinks_binary (op : BinaryOp) (lhs : Subtree) :
    ((inner.reading stop).binary op lhs).Shrinks :=
  (inner.shrinks _).bind fun _ => shrinks_pure _

theorem shrinks_of_continuation {stop : Span} {inner : Nested} {floor : Nat} {lhs : Subtree}
    {t : Token} {p : Parser Subtree} (h : (inner.reading stop).continuation floor lhs t = some p) :
    p.Shrinks := by
  unfold Reading.continuation at h
  split at h
  · cases h
    exact shrinks_member stop lhs
  · cases h
    exact shrinks_call stop inner lhs t
  · cases h
    exact shrinks_index stop inner lhs
  · split at h <;> cases h
    exact shrinks_ternary stop inner lhs
  · split at h
    · split at h <;> cases h
      exact shrinks_binary stop inner _ lhs
    · cases h

end Constructs

section Loop

variable {stop : Span} {inner : Nested} {floor : Nat} {lhs : Subtree}

theorem extend_of_tall (hheight : maxDepth < lhs.height) (ts : List Token) :
    (inner.reading stop).extend floor lhs ts = fail .tooDeep lhs.tree.loc ts := by
  rw [Reading.extend, if_pos hheight]
  rfl

theorem extend_of_none (hheight : ¬ maxDepth < lhs.height) {ts : List Token}
    (hnone : ∀ t ∈ ts.head?, (inner.reading stop).continuation floor lhs t = none) :
    (inner.reading stop).extend floor lhs ts = ⟨some none, ts, []⟩ := by
  have hbind : ts.head?.bind ((inner.reading stop).continuation floor lhs) = none :=
    Option.bind_eq_none_iff.mpr hnone
  rw [Reading.extend, if_neg hheight]
  change (inner.reading stop).extendBy (ts.head?.bind _) ts = _
  rw [hbind]
  rfl

theorem extend_of_some (hheight : ¬ maxDepth < lhs.height) {t : Token} {p : Parser Subtree}
    (hp : (inner.reading stop).continuation floor lhs t = some p) (ts : List Token) :
    (inner.reading stop).extend floor lhs (t :: ts) =
      andThen p (fun longer => pure (some longer)) ts := by
  rw [Reading.extend, if_neg hheight]
  change (inner.reading stop).extendBy ((inner.reading stop).continuation floor lhs t) _ = _
  rw [hp]
  rfl

/-- The cases of a turn: the tree is too tall, nothing extends it, or the first token does. -/
theorem extend_cases (stop : Span) (inner : Nested) (floor : Nat) (lhs : Subtree)
    (ts : List Token) : maxDepth < lhs.height ∨ ¬ maxDepth < lhs.height ∧
      ((∀ t ∈ ts.head?, (inner.reading stop).continuation floor lhs t = none) ∨
        ∃ t rest p, ts = t :: rest ∧ (inner.reading stop).continuation floor lhs t = some p) := by
  cases ts with
  | nil => grind
  | cons t rest => cases h : (inner.reading stop).continuation floor lhs t <;> grind

theorem shrinks_extend (stop : Span) (inner : Nested) (floor : Nat) (lhs : Subtree) :
    ((inner.reading stop).extend floor lhs).Shrinks := by
  intro ts
  rcases extend_cases stop inner floor lhs ts with
    hheight | ⟨hheight, hnone | ⟨t, rest, p, rfl, hp⟩⟩
  · rw [extend_of_tall hheight]
    exact List.suffix_refl ts
  · simp only [extend_of_none hheight hnone, List.suffix_refl]
  · rw [extend_of_some hheight hp]
    exact ((shrinks_of_continuation hp).bind fun _ => shrinks_pure _) rest |>.trans
      (List.suffix_cons t rest)

/-- A longer tree has at least one token more. -/
theorem extend_length_lt {longer : Subtree} {ts : List Token}
    (h : ((inner.reading stop).extend floor lhs ts).value = some (some longer)) :
    ((inner.reading stop).extend floor lhs ts).rest.length < ts.length := by
  rcases extend_cases stop inner floor lhs ts with
    hheight | ⟨hheight, hnone | ⟨t, rest, p, rfl, hp⟩⟩
  · rw [extend_of_tall hheight] at h
    cases h
  · rw [extend_of_none hheight hnone] at h
    cases h
  · rw [extend_of_some hheight hp]
    exact Nat.lt_succ_of_le
      ((shrinks_of_continuation hp).bind (fun _ => shrinks_pure _) rest).length_le

/-- Extends `lhs` by all that follows it, as long as the floor allows and the tree is not too
tall. -/
def climb (stop : Span) (inner : Nested) (floor : Nat) (lhs : Subtree) (ts : List Token) :
    Outcome Subtree :=
  let turn := (inner.reading stop).extend floor lhs ts
  match h : turn.value with
  | none => ⟨none, turn.rest, turn.errors⟩
  | some none => ⟨some lhs, turn.rest, turn.errors⟩
  | some (some longer) =>
    have := extend_length_lt h
    let out := climb stop inner floor longer turn.rest
    ⟨out.value, out.rest, turn.errors ++ out.errors⟩
termination_by ts.length

theorem climb_eq (stop : Span) (inner : Nested) (floor : Nat) (lhs : Subtree) (ts : List Token) :
    climb stop inner floor lhs ts = andThen ((inner.reading stop).extend floor lhs) (fun
      | none => pure lhs
      | some longer => climb stop inner floor longer) ts := by
  rw [climb.eq_def]
  simp only
  split <;> next h => simp [andThen, h, pure]

theorem climb_of_tall (hheight : maxDepth < lhs.height) (ts : List Token) :
    climb stop inner floor lhs ts = fail .tooDeep lhs.tree.loc ts := by
  rw [climb_eq, andThen, extend_of_tall hheight]
  rfl

theorem climb_of_none (hheight : ¬ maxDepth < lhs.height) {ts : List Token}
    (hnone : ∀ t ∈ ts.head?, (inner.reading stop).continuation floor lhs t = none) :
    climb stop inner floor lhs ts = ⟨some lhs, ts, []⟩ := by
  rw [climb_eq, andThen, extend_of_none hheight hnone]
  rfl

theorem climb_of_some (hheight : ¬ maxDepth < lhs.height) {t : Token} {p : Parser Subtree}
    (hp : (inner.reading stop).continuation floor lhs t = some p) (ts : List Token) :
    climb stop inner floor lhs (t :: ts) = andThen p (climb stop inner floor) ts := by
  rw [climb_eq, andThen, extend_of_some hheight hp]
  cases hvalue : (p ts).value <;> simp [andThen, hvalue, pure]

/-- The loop goes on as long as the first token extends the tree. -/
@[elab_as_elim] theorem climb_induction (stop : Span) (inner : Nested) (floor : Nat)
    {motive : Subtree → List Token → Prop}
    (tall : ∀ lhs ts, maxDepth < lhs.height → motive lhs ts)
    (none : ∀ lhs ts, ¬ maxDepth < lhs.height →
      (∀ t ∈ ts.head?, (inner.reading stop).continuation floor lhs t = none) → motive lhs ts)
    (some : ∀ lhs t rest p, ¬ maxDepth < lhs.height →
      (inner.reading stop).continuation floor lhs t = some p →
      (∀ longer, (p rest).value = some longer → motive longer (p rest).rest) →
      motive lhs (t :: rest))
    (lhs : Subtree) (ts : List Token) : motive lhs ts := by
  induction hlength : ts.length using Nat.strongRecOn generalizing lhs ts with
  | ind length ih =>
  subst hlength
  rcases extend_cases stop inner floor lhs ts with
    hheight | ⟨hheight, hnone | ⟨t, rest, p, rfl, hp⟩⟩
  · exact tall lhs ts hheight
  · exact none lhs ts hheight hnone
  · refine some lhs t rest p hheight hp fun longer _ => ?_
    exact ih _ (Nat.lt_succ_of_le (shrinks_of_continuation hp rest).length_le) longer _ rfl

theorem shrinks_climb (stop : Span) (inner : Nested) (floor : Nat) (lhs : Subtree) :
    Shrinks (climb stop inner floor lhs) := by
  intro ts
  have hturn (lhs : Subtree) (ts : List Token) := shrinks_extend stop inner floor lhs ts
  fun_induction climb stop inner floor lhs ts with
  | case1 lhs ts => exact hturn lhs ts
  | case2 lhs ts => exact hturn lhs ts
  | case3 lhs ts turn longer _ _ out ih => exact ih.trans (hturn lhs ts)

end Loop

end Parser

namespace Nested

/-- Beyond the deepest level nothing is read. -/
def tooDeep (stop : Span) : Nested where
  run _ := Parser.failHere stop fun _ => .tooDeep
  shrinks _ := Parser.shrinks_failHere stop _
  consumes _ _ h := by cases h

def around (stop : Span) (inner : Nested) : Nested where
  run floor := do
    let lhs ← (inner.reading stop).operand
    Parser.climb stop inner floor lhs
  shrinks floor := (Parser.shrinks_operand stop inner).bind (Parser.shrinks_climb stop inner floor)
  consumes floor ts h := by
    change (Parser.andThen _ _ ts).rest.length < ts.length
    change (Parser.andThen _ _ ts).value.isSome at h
    unfold Parser.andThen at *
    simp only at h ⊢
    split at h
    · cases h
    · next lhs hlhs =>
      have hoperand := Parser.operand_consumes stop inner ts (by simp [hlhs])
      have hclimb := (Parser.shrinks_climb stop inner floor lhs
        ((inner.reading stop).operand ts).rest).length_le
      simp only
      omega

/-- The expressions that may nest `levels` deep. -/
def ofLevels (stop : Span) : (levels : Nat) → Nested
  | 0 => tooDeep stop
  | levels + 1 => around stop (ofLevels stop levels)

end Nested

/-- What parsing finds: a tree, as far as one could be made out, and all errors. -/
structure Parsed where
  tree : Option (Expr Span)
  errors : List SyntaxError

namespace Parsed

/-- The error for a token that is left after a complete expression. -/
def leftover (t : Token) : SyntaxError :=
  ⟨if t.kind = .illegal then .illegal t.toLexeme else .trailing t.toLexeme, t.span⟩

/-- The outcome for a whole source, of which nothing may be left. -/
def ofOutcome (out : Outcome Subtree) : Parsed where
  tree := out.value.map (·.tree)
  errors := out.errors ++
    if out.value.isSome then (out.rest.head?.map leftover).toList else []

/-- The tree if there is one without errors, and the errors otherwise. -/
def toExcept (p : Parsed) : Except (List SyntaxError) (Expr Span) :=
  match p.tree, p.errors with
  | some tree, [] => .ok tree
  | none, [] => .error [⟨.emptyExpression, Span.origin⟩]
  | _, errors => .error errors

end Parsed

def parse (source : String) : Parsed :=
  let lexer := Lexer.ofText source.toList
  Parsed.ofOutcome ((Nested.ofLevels lexer.eof.span maxDepth).run 0 lexer.tokens)

end SchemaExpr
