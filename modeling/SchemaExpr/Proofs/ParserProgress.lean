import SchemaExpr.Proofs.SpanIndependence

/-!
# Every loop of the parser ends

The parser has three loops, and expressions call each other. A turn of a loop either leaves it or
goes on with fewer tokens, whatever the tokens are: this is what a list needs an element and its
separator for, also where the element cannot be read and nothing is skipped. A nested expression is
read only when a token of the construct around it has been read. So the tokens that are left and the
levels that are left bound all that can still happen, and a parser that is given more fuel than that
never gets to know what would be done without fuel.
-/
namespace SchemaExpr

/-- What a turn of a loop comes to: another turn from a new state, or a result. -/
inductive Turn (σ ρ : Type) where
  | again (next : σ)
  | done (result : ρ)

namespace Turn

variable {σ ρ : Type}

/-- Takes turns until there is a result; `spent` says what happens when the fuel runs out. -/
def loop (turn : σ → Turn σ ρ) (spent : σ → ρ) : (fuel : Nat) → σ → ρ
  | 0, s => spent s
  | fuel + 1, s =>
    match turn s with
    | again next => loop turn spent fuel next
    | done result => result

/-- Each turn that goes on makes the state smaller, so more fuel than the size of the state is never
used up, and the result is as given. -/
structure Ends (turn : σ → Turn σ ρ) (size : σ → Nat) (result : σ → ρ) : Prop where
  smaller : ∀ s next, turn s = again next → size next < size s
  result : ∀ spent fuel s, size s < fuel → loop turn spent fuel s = result s

/-- What one turn does to the size and the result. -/
def Unrolls (size : σ → Nat) (result : σ → ρ) (s : σ) : Turn σ ρ → Prop
  | again next => size next < size s ∧ result s = result next
  | done r => result s = r

theorem ends_of_unrolls {turn : σ → Turn σ ρ} {size : σ → Nat} {result : σ → ρ}
    (h : ∀ s, Unrolls size result s (turn s)) : Ends turn size result := by
  constructor
  · intro s next hturn
    have hs := h s
    rw [hturn] at hs
    exact hs.1
  · intro spent fuel
    induction fuel with
    | zero =>
      intro s hs
      cases hs
    | succ fuel ih =>
      intro s hlt
      have hs := h s
      rw [loop]
      cases hturn : turn s with
      | again next =>
        rw [hturn] at hs
        rw [hs.2]
        exact ih next (Nat.lt_of_lt_of_le hs.1 (Nat.le_of_lt_succ hlt))
      | done r =>
        rw [hturn] at hs
        exact hs.symm

end Turn

namespace Parser

/-- One turn of the loop that skips tokens, at some depth of brackets. -/
def skipTurn (closer : Kind) : Nat × List Token → Turn (Nat × List Token) (List Token)
  | (_, []) => .done []
  | (depth, t :: ts) =>
    match skipOver? closer depth t with
    | none => .done (t :: ts)
    | some depth => .again (depth, ts)

/-- One turn of the loop over the elements of a list, with the elements and errors so far. -/
def elementTurn (stop : Span) (inner : Nested) (closer : Kind) (s : Elements) :
    Turn Elements Elements :=
  let turn := (inner.steps stop).element closer s.rest
  match turn.value with
  | some (some item) =>
    .again ⟨s.items ++ (item.map (·.1)).toList, turn.rest, s.errors ++ turn.errors⟩
  | _ => .done ⟨s.items, turn.rest, s.errors ++ turn.errors⟩

/-- The state of the loop over what follows a tree: the tree and the errors so far. -/
structure Extending where
  lhs : Subtree
  rest : List Token
  errors : List SyntaxError

/-- One turn of the loop over what follows a tree. -/
def climbTurn (stop : Span) (inner : Nested) (floor : Nat) (s : Extending) :
    Turn Extending (Outcome Subtree) :=
  let turn := (inner.reading stop).extend floor s.lhs s.rest
  match turn.value with
  | none => .done ⟨none, turn.rest, s.errors ++ turn.errors⟩
  | some none => .done ⟨some s.lhs, turn.rest, s.errors ++ turn.errors⟩
  | some (some longer) => .again ⟨longer, turn.rest, s.errors ++ turn.errors⟩

theorem skipTurn_ends (closer : Kind) :
    Turn.Ends (skipTurn closer) (fun s => s.2.length) (fun s => skipTo closer s.1 s.2) := by
  apply Turn.ends_of_unrolls
  rintro ⟨depth, _ | ⟨t, ts⟩⟩
  · rfl
  · simp only [skipTurn]
    split
    · next hstop => simp [Turn.Unrolls, skipTo, hstop]
    · next hover => simp [Turn.Unrolls, skipTo, hover]

def elementsFrom (stop : Span) (inner : Nested) (closer : Kind) (s : Elements) : Elements :=
  let more := elements stop inner closer s.rest
  ⟨s.items ++ more.items, more.rest, s.errors ++ more.errors⟩

theorem elementTurn_ends (stop : Span) (inner : Nested) (closer : Kind) :
    Turn.Ends (elementTurn stop inner closer) (fun s => s.rest.length)
      (elementsFrom stop inner closer) := by
  apply Turn.ends_of_unrolls
  rintro ⟨items, rest, errors⟩
  have helements := elements_eq stop inner closer rest
  simp only [elementTurn]
  split
  · next item h =>
    refine ⟨element_length_lt stop inner h, ?_⟩
    simp [elementsFrom, helements, h]
  · simp [Turn.Unrolls, elementsFrom, helements]

def climbFrom (stop : Span) (inner : Nested) (floor : Nat) (s : Extending) : Outcome Subtree :=
  let out := climb stop inner floor s.lhs s.rest
  ⟨out.value, out.rest, s.errors ++ out.errors⟩

theorem climbTurn_ends (stop : Span) (inner : Nested) (floor : Nat) :
    Turn.Ends (climbTurn stop inner floor) (fun s => s.rest.length)
      (climbFrom stop inner floor) := by
  apply Turn.ends_of_unrolls
  rintro ⟨lhs, rest, errors⟩
  have hclimb : climb stop inner floor lhs rest = _ := climb_eq stop inner floor lhs rest
  simp only [climbTurn]
  split
  · next h => simp [Turn.Unrolls, climbFrom, hclimb, andThen, h]
  · next h => simp [Turn.Unrolls, climbFrom, hclimb, andThen, h, pure]
  · next longer h =>
    refine ⟨extend_length_lt h, ?_⟩
    simp [climbFrom, hclimb, andThen, h]

end Parser

structure Call where
  /-- The closer of the list, if an element of a list is read. -/
  list? : Option Kind
  floor : Nat
  tokens : List Token

/-- If the call reads an element of a list, then it is made in a turn of the loop over the elements
that goes on with fewer tokens. -/
def Call.InTurn (stop : Span) (inner : Nested) (c : Call) : Prop :=
  ∀ closer ∈ c.list?, c.floor = 0 ∧ ∀ items errors, ∃ next,
    Parser.elementTurn stop inner closer ⟨items, c.tokens, errors⟩ = .again next ∧
      next.rest.length < c.tokens.length

/-- The parsers of nested expressions answer the call in the same way. -/
def Call.Same (inner inner' : Nested) (c : Call) : Prop :=
  inner.run c.floor c.tokens = inner'.run c.floor c.tokens

/-- A parser in terms of the parser of nested expressions, with the calls that it makes. The calls
are on what it has not read yet, and all that it does depends on their answers. -/
structure Caller (stop : Span) (α : Type) where
  parser : Nested → Parser α
  calls : Nested → List Token → List Call
  shrinks : ∀ inner, (parser inner).Shrinks
  ahead : ∀ inner ts, ∀ c ∈ calls inner ts, c.tokens <:+ ts
  inTurn : ∀ inner ts, ∀ c ∈ calls inner ts, c.InTurn stop inner
  faithful : ∀ inner inner' ts, (∀ c ∈ calls inner ts, c.Same inner inner') →
    parser inner ts = parser inner' ts

namespace Caller

variable {stop : Span} {α β : Type}

def quiet (p : Parser α) (hp : p.Shrinks) : Caller stop α where
  parser _ := p
  calls _ _ := []
  shrinks _ := hp
  ahead := by simp
  inTurn := by simp
  faithful _ _ _ _ := rfl

def callsThen (p : Caller stop α) (f : α → Caller stop β) (inner : Nested) (ts : List Token) :
    List Call :=
  p.calls inner ts ++
    match (p.parser inner ts).value with
    | none => []
    | some a => (f a).calls inner (p.parser inner ts).rest

theorem mem_callsThen {p : Caller stop α} {f : α → Caller stop β} {inner : Nested}
    {ts : List Token} {c : Call} : c ∈ callsThen p f inner ts ↔ c ∈ p.calls inner ts ∨
      ∃ a, (p.parser inner ts).value = some a ∧
        c ∈ (f a).calls inner (p.parser inner ts).rest := by
  unfold callsThen
  cases (p.parser inner ts).value <;> simp

def andThen (p : Caller stop α) (f : α → Caller stop β) : Caller stop β where
  parser inner := Parser.andThen (p.parser inner) fun a => (f a).parser inner
  calls := callsThen p f
  shrinks inner := (p.shrinks inner).bind fun a => (f a).shrinks inner
  ahead inner ts c hc := by
    rcases mem_callsThen.mp hc with hc | ⟨a, -, hc⟩
    · exact p.ahead inner ts c hc
    · exact ((f a).ahead inner _ c hc).trans (p.shrinks inner ts)
  inTurn inner ts c hc := by
    rcases mem_callsThen.mp hc with hc | ⟨a, -, hc⟩
    · exact p.inTurn inner ts c hc
    · exact (f a).inTurn inner _ c hc
  faithful inner inner' ts hsame := by
    have hfirst := p.faithful inner inner' ts fun c hc => hsame c (mem_callsThen.mpr (.inl hc))
    cases hvalue : (p.parser inner ts).value with
    | none => simp only [Parser.andThen, ← hfirst, hvalue]
    | some a =>
      have hsecond := (f a).faithful inner inner' _ fun c hc =>
        hsame c (mem_callsThen.mpr (.inr ⟨a, hvalue, hc⟩))
      simp only [Parser.andThen, ← hfirst, hvalue, hsecond]

instance : Monad (Caller stop) where
  pure a := quiet (pure a) (Parser.shrinks_pure a)
  bind := andThen

theorem parser_bind {p : Caller stop α} {f : α → Caller stop β} {inner : Nested} {q : Parser α}
    {g : α → Parser β} (hp : p.parser inner = q) (hf : ∀ a, (f a).parser inner = g a) :
    (p >>= f).parser inner = q >>= g := by
  subst hp
  exact congrArg (Parser.andThen (p.parser inner)) (funext hf)

def nested (floor : Nat) : Caller stop Subtree where
  parser inner := inner.run floor
  calls _ ts := [⟨none, floor, ts⟩]
  shrinks inner := inner.shrinks floor
  ahead := by simp
  inTurn := by simp [Call.InTurn]
  faithful _ _ _ hsame := hsame _ List.mem_cons_self

def attempt (p : Caller stop α) : Caller stop (Option α) where
  parser inner := (p.parser inner).attempt
  calls := p.calls
  shrinks inner := (p.shrinks inner).attempt
  ahead := p.ahead
  inTurn := p.inTurn
  faithful inner inner' ts hsame := by
    simp only [Parser.attempt, p.faithful inner inner' ts hsame]

/-- The calls of the loop over the elements of a list: one in each turn that goes on. -/
def elementCalls (stop : Span) (inner : Nested) (closer : Kind) (ts : List Token) : List Call :=
  let turn := (inner.steps stop).element closer ts
  match h : turn.value with
  | some (some _) =>
    have := Parser.element_length_lt stop inner h
    ⟨some closer, 0, ts⟩ :: elementCalls stop inner closer turn.rest
  | _ => []
termination_by ts.length

theorem mem_elementCalls {inner : Nested} {closer : Kind} {ts : List Token} {c : Call} :
    c ∈ elementCalls stop inner closer ts ↔
      ∃ item, ((inner.steps stop).element closer ts).value = some (some item) ∧
        (c = ⟨some closer, 0, ts⟩ ∨
          c ∈ elementCalls stop inner closer ((inner.steps stop).element closer ts).rest) := by
  rw [elementCalls]
  simp only
  split
  · next item h => simp [h]
  · next hnone =>
    have hfalse : ∀ item, ((inner.steps stop).element closer ts).value ≠ some (some item) := hnone
    simp [hfalse]

theorem elementCalls_ahead (inner : Nested) (closer : Kind) (ts : List Token) :
    ∀ c ∈ elementCalls stop inner closer ts, c.tokens <:+ ts ∧ c.InTurn stop inner := by
  intro c hc
  induction hlength : ts.length using Nat.strongRecOn generalizing ts with
  | ind length ih =>
  subst hlength
  obtain ⟨item, hitem, rfl | hc⟩ := mem_elementCalls.mp hc
  · refine ⟨List.suffix_refl ts, ?_⟩
    rintro _ ⟨⟩
    refine ⟨rfl, fun items errors => ?_⟩
    let turn := (inner.steps stop).element closer ts
    have hturn : Parser.elementTurn stop inner closer ⟨items, ts, errors⟩ =
        .again ⟨items ++ (item.map (·.1)).toList, turn.rest, errors ++ turn.errors⟩ := by
      simp only [Parser.elementTurn, hitem, turn]
    exact ⟨_, hturn, Parser.element_length_lt stop inner hitem⟩
  · obtain ⟨hahead, hturn⟩ := ih _ (Parser.element_length_lt stop inner hitem) _ hc rfl
    exact ⟨hahead.trans (Parser.shrinks_element stop inner closer ts), hturn⟩

theorem elements_eq_of_same {inner inner' : Nested} {closer : Kind} {ts : List Token}
    (h : ∀ c ∈ elementCalls stop inner closer ts, c.Same inner inner') :
    Parser.elements stop inner closer ts = Parser.elements stop inner' closer ts := by
  induction ts using Parser.elements_induction stop inner closer with
  | nil => rw [Parser.elements_nil, Parser.elements_nil]
  | closed t ts hcloser =>
    rw [Parser.elements_cons_of_eq stop inner ts hcloser,
      Parser.elements_cons_of_eq stop inner' ts hcloser]
  | cons t ts hcloser ih =>
    have hturn := Parser.element_cons_of_ne stop inner ts hcloser
    have hitem : inner.run 0 (t :: ts) = inner'.run 0 (t :: ts) :=
      h _ (mem_elementCalls.mpr ⟨_, by rw [hturn], .inl rfl⟩)
    have hmore := ih fun c hc =>
      h c (mem_elementCalls.mpr ⟨_, by rw [hturn], .inr (by rwa [hturn])⟩)
    rw [Parser.elements_cons_of_ne stop inner ts hcloser,
      Parser.elements_cons_of_ne stop inner' ts hcloser]
    simp only [← hitem, hmore]

def list (closer : Kind) : Caller stop (List Subtree × Option Span) where
  parser inner := Parser.list stop inner closer
  calls inner ts := elementCalls stop inner closer ts
  shrinks inner := Parser.shrinks_list stop inner closer
  ahead inner ts c hc := (elementCalls_ahead inner closer ts c hc).1
  inTurn inner ts c hc := (elementCalls_ahead inner closer ts c hc).2
  faithful inner inner' ts hsame := by simp only [Parser.list, elements_eq_of_same hsame]

def reading (stop : Span) : Reading (Caller stop) Subtree where
  stop := stop
  lift := quiet
  attempt := attempt
  nested := nested
  tree s := s.tree
  leaf e := ⟨e, 1⟩
  withTree s e := { s with tree := e }
  start := pure ()
  height s := pure s.height
  setHeight s height := pure { s with height := height }
  list := list
  tallest items := pure (Subtree.maxHeight items)

section Constructs

variable (inner : Nested)

theorem parser_group (opening : Token) :
    ((reading stop).group opening).parser inner = (inner.reading stop).group opening := by
  refine parser_bind rfl fun x => parser_bind rfl fun close => ?_
  cases close <;> rfl

theorem parser_number (t : Token) :
    ((reading stop).number t).parser inner = (inner.reading stop).number t := by
  unfold Reading.number
  cases Literal.readNumber t.literal.toList with
  | error fault => rfl
  | ok value => cases value <;> rfl

theorem beginning_eq_map (t : Token) :
    (inner.reading stop).beginning t =
      ((reading stop).beginning t).map fun p => p.parser inner := by
  unfold Reading.beginning
  cases t.kind with
  | number => exact congrArg some (parser_number inner t).symm
  | lparen => exact congrArg some (parser_group inner t).symm
  | _ => rfl

theorem continuation_eq_map (floor : Nat) (lhs : Subtree) (t : Token) :
    (inner.reading stop).continuation floor lhs t =
      ((reading stop).continuation floor lhs t).map fun p => p.parser inner := by
  unfold Reading.continuation
  cases t.kind with
  | question => by_cases h : floor = 0 <;> simp only [h, ↓reduceIte] <;> rfl
  | dot | lparen | lbracket => rfl
  | _ =>
    simp only
    generalize BinaryOp.ofKind? _ = o
    cases o with
    | none => rfl
    | some op => by_cases h : floor ≤ op.tier <;> simp only [h, ↓reduceIte] <;> rfl

theorem parser_operand :
    (reading stop).operand.parser inner = (inner.reading stop).operand := by
  refine parser_bind rfl fun _ => parser_bind rfl fun first => ?_
  cases first with
  | none => rfl
  | some t =>
    simp only [Reading.operandAt, beginning_eq_map]
    cases (reading stop).beginning t <;> rfl

theorem parser_extend (floor : Nat) (lhs : Subtree) :
    ((reading stop).extend floor lhs).parser inner = (inner.reading stop).extend floor lhs := by
  unfold Reading.extend
  split
  · rfl
  · refine parser_bind rfl fun first => ?_
    cases first with
    | none => rfl
    | some t =>
      simp only [Option.bind_some, continuation_eq_map]
      cases (reading stop).continuation floor lhs t <;> rfl

end Constructs

theorem operandAt_ahead {inner : Nested} {first : Option Token} {ts : List Token} {c : Call}
    (h : c ∈ ((reading stop).operandAt first).calls inner ts) :
    first.isSome ∧ c.tokens <:+ ts.drop 1 := by
  cases first with
  | none => cases h
  | some t =>
    cases hp : (reading stop).beginning t with
    | none =>
      simp only [Reading.operandAt, hp] at h
      cases h
    | some p =>
      simp only [Reading.operandAt, hp] at h
      change c ∈ callsThen _ (fun _ => p) inner ts at h
      rcases mem_callsThen.mp h with h | ⟨-, -, h⟩
      · cases h
      · exact ⟨rfl, p.ahead inner _ c h⟩

/-- The calls of an operand are made when its first token is read. -/
theorem operand_ahead {inner : Nested} {ts : List Token} {c : Call}
    (h : c ∈ (reading stop).operand.calls inner ts) : c.tokens.length < ts.length := by
  rcases mem_callsThen.mp h with h | ⟨-, -, h⟩
  · cases h
  · rcases mem_callsThen.mp h with h | ⟨first, hfirst, h⟩
    · cases h
    · obtain ⟨hsome, hsuffix⟩ := operandAt_ahead h
      obtain rfl : ts.head? = first := Option.some.inj hfirst
      cases ts with
      | nil => cases hsome
      | cons t rest => exact Nat.lt_succ_of_le hsuffix.length_le

def climbCalls (stop : Span) (inner : Nested) (floor : Nat) (lhs : Subtree) (ts : List Token) :
    List Call :=
  let turn := (inner.reading stop).extend floor lhs ts
  ((reading stop).extend floor lhs).calls inner ts ++
    match h : turn.value with
    | some (some longer) =>
      have := Parser.extend_length_lt h
      climbCalls stop inner floor longer turn.rest
    | _ => []
termination_by ts.length

theorem mem_climbCalls {inner : Nested} {floor : Nat} {lhs : Subtree} {ts : List Token} {c : Call} :
    c ∈ climbCalls stop inner floor lhs ts ↔ c ∈ ((reading stop).extend floor lhs).calls inner ts ∨
      ∃ longer, ((inner.reading stop).extend floor lhs ts).value = some (some longer) ∧
        c ∈ climbCalls stop inner floor longer ((inner.reading stop).extend floor lhs ts).rest := by
  rw [climbCalls]
  simp only [List.mem_append]
  split
  · next longer h => simp [h]
  · next hnone =>
    have hfalse : ∀ longer, ((inner.reading stop).extend floor lhs ts).value ≠
      some (some longer) := hnone
    simp [hfalse]

theorem climbCalls_ahead (inner : Nested) (floor : Nat) (lhs : Subtree) (ts : List Token) :
    ∀ c ∈ climbCalls stop inner floor lhs ts, c.tokens <:+ ts ∧ c.InTurn stop inner := by
  intro c hc
  induction hlength : ts.length using Nat.strongRecOn generalizing lhs ts with
  | ind length ih =>
  subst hlength
  rcases mem_climbCalls.mp hc with hc | ⟨longer, hlonger, hc⟩
  · exact ⟨Caller.ahead _ inner ts c hc, Caller.inTurn _ inner ts c hc⟩
  · obtain ⟨hahead, hturn⟩ := ih _ (Parser.extend_length_lt hlonger) longer _ hc rfl
    exact ⟨hahead.trans (Parser.shrinks_extend stop inner floor lhs ts), hturn⟩

theorem climb_eq_of_same {inner inner' : Nested} {floor : Nat} {lhs : Subtree} {ts : List Token}
    (h : ∀ c ∈ climbCalls stop inner floor lhs ts, c.Same inner inner') :
    Parser.climb stop inner floor lhs ts = Parser.climb stop inner' floor lhs ts := by
  induction hlength : ts.length using Nat.strongRecOn generalizing lhs ts with
  | ind length ih =>
  subst hlength
  have hturn : (inner.reading stop).extend floor lhs ts =
      (inner'.reading stop).extend floor lhs ts := by
    rw [← parser_extend, ← parser_extend]
    exact Caller.faithful _ inner inner' ts fun c hc => h c (mem_climbCalls.mpr (.inl hc))
  rw [Parser.climb_eq, Parser.climb_eq stop inner', Parser.andThen, Parser.andThen, ← hturn]
  cases hvalue : ((inner.reading stop).extend floor lhs ts).value with
  | none => rfl
  | some o =>
    cases o with
    | none => rfl
    | some longer =>
      have hmore := ih _ (Parser.extend_length_lt hvalue) (fun c hc =>
        h c (mem_climbCalls.mpr (.inr ⟨longer, hvalue, hc⟩))) rfl
      simp only [hmore]

def climb (floor : Nat) (lhs : Subtree) : Caller stop Subtree where
  parser inner := Parser.climb stop inner floor lhs
  calls inner ts := climbCalls stop inner floor lhs ts
  shrinks inner := Parser.shrinks_climb stop inner floor lhs
  ahead inner ts c hc := (climbCalls_ahead inner floor lhs ts c hc).1
  inTurn inner ts c hc := (climbCalls_ahead inner floor lhs ts c hc).2
  faithful _ _ _ hsame := climb_eq_of_same hsame

def expression (floor : Nat) : Caller stop Subtree := do
  let lhs ← (reading stop).operand
  climb floor lhs

theorem parser_expression (floor : Nat) (inner : Nested) :
    (expression floor : Caller stop Subtree).parser inner =
      (Nested.around stop inner).run floor :=
  parser_bind (parser_operand inner) fun _ => rfl

/-- A nested expression is read only after a token of the expression around it. -/
theorem length_lt_of_mem_calls {inner : Nested} {floor : Nat} {ts : List Token} {c : Call}
    (h : c ∈ (expression floor : Caller stop Subtree).calls inner ts) :
    c.tokens.length < ts.length := by
  rcases mem_callsThen.mp h with h | ⟨lhs, hlhs, h⟩
  · exact operand_ahead h
  · have hahead := ((climb floor lhs).ahead inner _ c h).length_le
    rw [parser_operand] at hlhs hahead
    exact Nat.lt_of_le_of_lt hahead
      (Parser.operand_consumes stop inner ts (Option.isSome_of_eq_some hlhs))

end Caller

namespace Nested

/-- Expressions that start at some depth, with fuel: each nested expression gets one unit less, and
without fuel `spent` is asked. -/
def fuelled (stop : Span) (spent : Nested) : (fuel depth : Nat) → Nested
  | 0, _ => spent
  | fuel + 1, depth =>
    if maxDepth ≤ depth then tooDeep stop else around stop (fuelled stop spent fuel (depth + 1))

/-- What bounds a parse that starts at some depth: the tokens and the levels that are left. -/
def bound (depth : Nat) (ts : List Token) : Nat := ts.length + (maxDepth - depth)

theorem bound_lt_of_mem_calls {stop : Span} {inner : Nested} {floor depth : Nat} {ts : List Token}
    {c : Call} (hdepth : depth < maxDepth)
    (h : c ∈ (Caller.expression floor : Caller stop Subtree).calls inner ts) :
    bound (depth + 1) c.tokens < bound depth ts := by
  have hlength := Caller.length_lt_of_mem_calls h
  unfold bound
  omega

/-- More fuel than the bound is never used up. -/
theorem fuelled_run (stop : Span) (spent : Nested) {fuel depth : Nat} (floor : Nat)
    {ts : List Token} (h : bound depth ts < fuel) :
    (fuelled stop spent fuel depth).run floor ts =
      (ofLevels stop (maxDepth - depth)).run floor ts := by
  induction fuel generalizing depth floor ts with
  | zero => cases h
  | succ fuel ih =>
    rw [fuelled]
    split
    · next hdeep => rw [Nat.sub_eq_zero_of_le hdeep, ofLevels]
    · next hdepth =>
      obtain ⟨levels, hlevels⟩ : ∃ levels, maxDepth - depth = levels + 1 :=
        ⟨maxDepth - depth - 1, by omega⟩
      have hnext : maxDepth - (depth + 1) = levels := by omega
      rw [hlevels, ofLevels]
      rw [← Caller.parser_expression, ← Caller.parser_expression]
      refine ((Caller.expression floor : Caller stop Subtree).faithful _ _ ts ?_).symm
      intro c hc
      have hbound := bound_lt_of_mem_calls (Nat.lt_of_not_le hdepth) hc
      rw [Call.Same, ← hnext]
      exact (ih c.floor (by omega)).symm

end Nested

/-- Every loop and every call of the parser gets on, where `stop` is the end of the source. -/
structure Progress (stop : Span) : Prop where
  /-- Each turn of skipping reads a token or ends the skipping. -/
  skipping : ∀ closer, Turn.Ends (Parser.skipTurn closer) (fun s => s.2.length)
    fun s => Parser.skipTo closer s.1 s.2
  /-- Each turn over the elements of a list reads a token or ends the list. -/
  listing : ∀ inner closer, Turn.Ends (Parser.elementTurn stop inner closer)
    (fun s => s.rest.length) (Parser.elementsFrom stop inner closer)
  /-- Each turn over what follows a tree reads a token or ends the expression. -/
  climbing : ∀ inner floor, Turn.Ends (Parser.climbTurn stop inner floor)
    (fun s => s.rest.length) (Parser.climbFrom stop inner floor)
  /-- All that an expression does depends on the answers to its calls. -/
  calling : ∀ inner inner' floor ts,
    (∀ c ∈ (Caller.expression floor : Caller stop Subtree).calls inner ts, c.Same inner inner') →
      (Nested.around stop inner).run floor ts = (Nested.around stop inner').run floor ts
  /-- A call is made after a token of the expression has been read, also from a list, whose turn
  then gets on. So what bounds the nested expression is less than what bounds this one. -/
  nesting : ∀ inner floor depth ts, depth < maxDepth →
    ∀ c ∈ (Caller.expression floor : Caller stop Subtree).calls inner ts,
      c.tokens <:+ ts ∧ c.tokens.length < ts.length ∧ c.InTurn stop inner ∧
        Nested.bound (depth + 1) c.tokens < Nested.bound depth ts
  /-- With more fuel than the bound, nothing depends on what happens without fuel. -/
  ending : ∀ spent fuel depth floor ts, Nested.bound depth ts < fuel →
    (Nested.fuelled stop spent fuel depth).run floor ts =
      (Nested.ofLevels stop (maxDepth - depth)).run floor ts

theorem parsing_makes_progress (stop : Span) : Progress stop where
  skipping := Parser.skipTurn_ends
  listing := Parser.elementTurn_ends stop
  climbing := Parser.climbTurn_ends stop
  calling inner inner' floor ts hsame := by
    rw [← Caller.parser_expression, ← Caller.parser_expression]
    exact (Caller.expression floor).faithful inner inner' ts hsame
  nesting inner floor depth ts hdepth c hc := by
    refine ⟨(Caller.expression floor).ahead inner ts c hc, Caller.length_lt_of_mem_calls hc, ?_, ?_⟩
    · exact (Caller.expression floor).inTurn inner ts c hc
    · exact Nested.bound_lt_of_mem_calls hdepth hc
  ending spent fuel depth floor ts := Nested.fuelled_run stop spent floor

end SchemaExpr
