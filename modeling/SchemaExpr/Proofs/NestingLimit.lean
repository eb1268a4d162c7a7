import SchemaExpr.Proofs.CountingParser
import SchemaExpr.Proofs.SpanIndependence

/-!
# The nesting limit

The parser with counters does what the parser by levels does: at depth `d` it reads what the parser
with `maxDepth - d` levels reads, it leaves the depth as it found it, and the height field is the
height of the tree. So the depth never exceeds the limit, and no tree is taller than it.
-/
namespace SchemaExpr

namespace Parser

variable {α β : Type}

/-- Whatever `p` yields, with or without errors, has the property. -/
def Produces (p : Parser α) (post : α → Prop) : Prop := ∀ ts a, (p ts).value = some a → post a

theorem produces_pure {a : α} {post : α → Prop} (h : post a) :
    (pure a : Parser α).Produces post := by
  rintro ts _ ⟨⟩
  exact h

theorem produces_bind {p : Parser α} {f : α → Parser β} {post : β → Prop}
    (hf : ∀ a, (f a).Produces post) : (p >>= f).Produces post := by
  intro ts b hb
  change (andThen p f ts).value = some b at hb
  unfold andThen at hb
  simp only at hb
  split at hb
  · cases hb
  · exact hf _ _ _ hb

end Parser

namespace Counting

open Grammar (Measured)

/-- The counters are right: the depth is within the limit and an expression restores it, and the
height is that of the tree. -/
def Event.Holds : Event → Prop
  | .depth value => value ≤ maxDepth
  | .expression before after height tree => after = before ∧ ∀ e, tree = some e → height = e.height
  | .operand height tree => ∀ e, tree = some e → height = e.height

theorem Recorded.mem {trace : List Event} {d : Nat} (h : Recorded trace d) :
    d = 0 ∨ .depth d ∈ trace := by
  induction h with
  | start => exact .inl rfl
  | snoc _ hmoves ih =>
    cases hmoves with
    | up | down => exact .inr (List.mem_append_right _ (List.mem_singleton_self _))
    | expression | operand => exact ih.imp_right (List.mem_append_left _)

namespace Machine

/-- Where the counters have been right, the depth is within the limit. -/
theorem depth_le (m : Machine) (h : ∀ event ∈ m.trace, event.Holds) : m.depth ≤ maxDepth := by
  rcases m.recorded.mem with hzero | hmem
  · rw [hzero]
    exact Nat.zero_le _
  · exact h _ hmem

/-- Since the state `m`, the counters have been right. -/
def Extends (m m' : Machine) : Prop :=
  ∃ events, m'.trace = m.trace ++ events ∧ ∀ event ∈ events, event.Holds

theorem Extends.refl (m : Machine) : m.Extends m := ⟨[], by simp, by simp⟩

theorem Extends.trans {m m' m'' : Machine} (h : m.Extends m') (h' : m'.Extends m'') :
    m.Extends m'' := by
  obtain ⟨events, htrace, hholds⟩ := h
  obtain ⟨events', htrace', hholds'⟩ := h'
  refine ⟨events ++ events', by rw [htrace', htrace, List.append_assoc], ?_⟩
  intro event hevent
  rcases List.mem_append.mp hevent with hevent | hevent
  · exact hholds event hevent
  · exact hholds' event hevent

theorem extends_log (m : Machine) {event : Event} {depth : Nat} (hmoves : event.Moves m.depth depth)
    (h : event.Holds) : m.Extends (m.log event hmoves) :=
  ⟨[event], rfl, by simpa using h⟩

end Machine

variable {α β γ δ : Type}

/-- From the state `m`, a routine ends like a parser that ends in `out`. The values are related by
`post`, which also speaks about the height field. -/
structure Agrees (m : Machine) (out : Outcome β) (result : Option α × Machine)
    (post : β → α → Nat → Prop) : Prop where
  value : Option.Rel (fun b a => post b a result.2.height) out.value result.1
  rest : result.2.rest = out.rest
  errors : result.2.errors = m.errors ++ out.errors
  depth : result.2.depth = m.depth
  trace : m.Extends result.2

namespace Agrees

variable {m : Machine} {post : β → α → Nat → Prop} {post' : δ → γ → Nat → Prop}

theorem bind {r : Routine α} {p : Parser β} {f : α → Routine γ} {g : β → Parser δ}
    (h : Agrees m (p m.rest) (r m) post)
    (hf : ∀ b a m', post b a m'.height → m'.depth = m.depth → m'.rest = (p m.rest).rest →
      (p m.rest).value = some b → Agrees m' (g b m'.rest) (f a m') post') :
    Agrees m ((p >>= g) m.rest) ((r >>= f) m) post' := by
  change Agrees m (Parser.andThen p g m.rest) (Routine.andThen r f m) post'
  unfold Parser.andThen Routine.andThen
  obtain ⟨hvalue, hrest, herrors, hdepth, htrace⟩ := h
  generalize p m.rest = out at *
  generalize r m = result at *
  obtain ⟨value, rest, errors⟩ := out
  obtain ⟨o, m'⟩ := result
  cases hvalue with
  | none => exact ⟨.none, hrest, herrors, hdepth, htrace⟩
  | @some b a hpost =>
    obtain rfl : m'.rest = rest := hrest
    have hnext := hf b a m' hpost hdepth rfl rfl
    refine ⟨hnext.value, hnext.rest, ?_, hnext.depth.trans hdepth, htrace.trans hnext.trace⟩
    rw [hnext.errors, herrors, List.append_assoc]

theorem pure {b : β} {a : α} (hpost : post b a m.height) :
    Agrees m ((Pure.pure b : Parser β) m.rest) ((Pure.pure a : Routine α) m) post :=
  ⟨.some hpost, rfl, (List.append_nil _).symm, rfl, .refl m⟩

theorem lift (m : Machine) (p : Parser α) :
    Agrees m (p m.rest) (Routine.lift p m) fun b a height => a = b ∧ height = m.height := by
  refine ⟨?_, rfl, rfl, rfl, .refl m⟩
  change Option.Rel _ (p m.rest).value (p m.rest).value
  cases (p m.rest).value with
  | none => exact .none
  | some a => exact .some ⟨rfl, rfl⟩

theorem attempt {r : Routine α} {p : Parser β} (h : Agrees m (p m.rest) (r m) post) :
    Agrees m (p.attempt m.rest) (r.attempt m) fun b a height =>
      Option.Rel (fun b a => post b a height) b a :=
  ⟨.some h.value, h.rest, h.errors, h.depth, h.trace⟩

theorem observe {out : Outcome β} {r : Routine α} {event : Machine → Machine → Option α → Event}
    {still : ∀ m m' result, (event m m' result).Moves m'.depth m'.depth}
    (h : Agrees m out (r m) post) (hevent : (event m (r m).2 (r m).1).Holds) :
    Agrees m out (r.observe event still m) post :=
  ⟨h.value, h.rest, h.errors, h.depth, h.trace.trans (Machine.extends_log _ (still ..) hevent)⟩

/-- One level further in and back. -/
theorem deeper {out : Outcome β} {r : Routine α} {stop : Span} (hdepth : m.depth < maxDepth)
    (h : Agrees m.enter out (r m.enter) post) : Agrees m out (r.deeper stop m) post := by
  rw [Routine.deeper, if_neg (Nat.not_le.mpr hdepth)]
  generalize r m.enter = result at *
  have hdepth' : result.2.depth - 1 = m.depth := by
    rw [h.depth]
    rfl
  have hforth : m.Extends m.enter := m.extends_log _ hdepth
  have hback : result.2.Extends result.2.leave :=
    result.2.extends_log _ (hdepth' ▸ Nat.le_of_lt hdepth)
  exact ⟨h.value, h.rest, h.errors, hdepth', (hforth.trans h.trace).trans hback⟩

end Agrees

def Follows (depth height : Nat) (r : Routine α) (p : Parser β) (post : β → α → Nat → Prop) :
    Prop :=
  ∀ m : Machine, m.depth = depth → m.height = height → Agrees m (p m.rest) (r m) post

namespace Follows

variable {depth height : Nat} {post : β → α → Nat → Prop} {post' : δ → γ → Nat → Prop}

theorem pure {b : β} {a : α} (hpost : post b a height) :
    Follows depth height (Pure.pure a) (Pure.pure b) post := by
  rintro m - rfl
  exact .pure hpost

theorem bind {r : Routine α} {p : Parser β} {f : α → Routine γ} {g : β → Parser δ}
    (h : Follows depth height r p post)
    (hf : ∀ b a height', post b a height' → Follows depth height' (f a) (g b) post') :
    Follows depth height (r >>= f) (p >>= g) post' := by
  intro m hdepth hheight
  refine (h m hdepth hheight).bind fun b a m' hpost hdepth' _ _ => ?_
  exact hf b a m'.height hpost m' (hdepth'.trans hdepth) rfl

theorem attempt {r : Routine α} {p : Parser β} (h : Follows depth height r p post) :
    Follows depth height r.attempt p.attempt fun b a height' =>
      Option.Rel (fun b a => post b a height') b a :=
  fun m hdepth hheight => (h m hdepth hheight).attempt

theorem lift_bind (p : Parser β) {f : β → Routine γ} {g : β → Parser δ}
    (hf : ∀ b, Follows depth height (f b) (g b) post') :
    Follows depth height (Routine.lift p >>= f) (p >>= g) post' := by
  intro m hdepth hheight
  refine (Agrees.lift m p).bind ?_
  rintro b _ m' ⟨rfl, hheight'⟩ hdepth' - -
  exact hf _ m' (hdepth'.trans hdepth) (hheight'.trans hheight)

theorem height_bind {f : Nat → Routine γ} {p : Parser δ}
    (hf : Follows depth height (f height) p post') :
    Follows depth height (Routine.height >>= f) p post' := by
  rintro m hdepth rfl
  exact hf m hdepth rfl

theorem setHeight {b : β} {a : α} {height' : Nat} (hpost : post b a height') :
    Follows depth height (Routine.setHeight a height') (Pure.pure b) post :=
  fun m _ _ => ⟨.some hpost, rfl, (List.append_nil _).symm, rfl, .refl m⟩

theorem setHeight_bind {a : α} {height' : Nat} {f : α → Routine γ} {p : Parser δ}
    (hf : Follows depth height' (f a) p post') :
    Follows depth height (Routine.setHeight a height' >>= f) p post' := by
  intro m hdepth _
  obtain ⟨hvalue, hrest, herrors, hdepth', htrace⟩ := hf { m with height := height' } hdepth rfl
  exact ⟨hvalue, hrest, herrors, hdepth', htrace⟩

theorem fail (fault : Fault) (span : Span) :
    Follows depth height (Routine.lift (Parser.fail fault span)) (Parser.fail fault span) post :=
  fun m _ _ => ⟨.none, rfl, rfl, rfl, .refl m⟩

theorem failHere (stop : Span) (fault : Lexeme → Fault) :
    Follows depth height (Routine.lift (Parser.failHere stop fault)) (Parser.failHere stop fault)
      post :=
  fun m _ _ => ⟨.none, rfl, rfl, rfl, .refl m⟩

end Follows

/-- The routine yields the tree, and the field is its height. -/
def Noted (s : Subtree) (e : Expr Span) (height : Nat) : Prop :=
  e = s.tree ∧ height = s.height ∧ Measured s

namespace Agrees

variable {m : Machine} {out : Outcome Subtree} {result : Option (Expr Span) × Machine}

theorem noted_cases (h : Agrees m out result Noted) : (out.value = none ∧ result.1 = none) ∨
    ∃ s, out.value = some s ∧ result.1 = some s.tree ∧ result.2.height = s.height ∧
      Measured s := by
  have hvalue := h.value
  generalize out.value = o, result.1 = o' at hvalue
  cases hvalue with
  | none => exact .inl ⟨rfl, rfl⟩
  | @some s e hnoted =>
    obtain ⟨rfl, hheight, hmeasured⟩ := hnoted
    exact .inr ⟨s, rfl, rfl, hheight, hmeasured⟩

theorem height_eq (h : Agrees m out result Noted) {e : Expr Span} (he : result.1 = some e) :
    result.2.height = e.height := by
  rcases h.noted_cases with ⟨-, hnone⟩ | ⟨s, -, htree, hheight, hmeasured⟩
  · rw [hnone] at he
    cases he
  · obtain rfl : s.tree = e := Option.some.inj (htree.symm.trans he)
    exact hheight.trans hmeasured

theorem tree_eq (h : Agrees m out result Noted) : result.1 = out.value.map (·.tree) := by
  rcases h.noted_cases with ⟨hvalue, htree⟩ | ⟨s, hvalue, htree, -⟩ <;> rw [hvalue, htree] <;> rfl

end Agrees

def Kept (s s' : Subtree) (_ : Nat) : Prop := s' = s ∧ Measured s

/-- At this depth, the routines read what `nested` reads. -/
def Mirrors (depth : Nat) (inner : (floor : Nat) → Routine (Expr Span)) (nested : Nested) : Prop :=
  ∀ floor height, Follows depth height (inner floor) (nested.run floor) Noted

section Level

variable {stop : Span} {depth height : Nat} {inner : (floor : Nat) → Routine (Expr Span)}
  {nested : Nested}

theorem Mirrors.bind (h : Mirrors depth inner nested) (floor : Nat) {f : Expr Span → Routine γ}
    {g : Subtree → Parser δ} {post : δ → γ → Nat → Prop}
    (hf : ∀ s, Measured s → Follows depth s.height (f s.tree) (g s) post) :
    Follows depth height (inner floor >>= f) (nested.run floor >>= g) post := by
  refine (h floor height).bind ?_
  rintro s _ _ ⟨rfl, rfl, hs⟩
  exact hf s hs

theorem unary_follows (h : Mirrors depth inner nested) (op : UnaryOp) (sign : Token) :
    Follows depth height ((Routine.reading stop inner).unary op sign)
      ((nested.reading stop).unary op sign) Noted := by
  refine h.bind _ fun s hs => ?_
  refine .height_bind (.setHeight_bind (.pure ⟨rfl, rfl, ?_⟩))
  exact congrArg (· + 1) hs

theorem group_follows (h : Mirrors depth inner nested) (opening : Token) :
    Follows depth height ((Routine.reading stop inner).group opening)
      ((nested.reading stop).group opening) Noted := by
  refine h.bind 0 fun s hs => .lift_bind _ fun closing => ?_
  cases closing with
  | none => exact .pure ⟨rfl, rfl, hs⟩
  | some closing => exact .pure ⟨rfl, rfl, hs.trans (Grammar.height_withLoc _ _).symm⟩

theorem measured_follows (h : Mirrors depth inner nested) {node : Span → Expr Span → Expr Span}
    (hnode : ∀ span e, (node span e).height = e.height + 1) (word : Token) :
    Follows depth height ((Routine.reading stop inner).measured node word)
      ((nested.reading stop).measured node word) Noted := by
  refine .lift_bind _ fun _ => h.bind 0 fun s hs => ?_
  refine .height_bind (.setHeight_bind (.lift_bind _ fun closing => .pure ⟨rfl, rfl, ?_⟩))
  exact (congrArg (· + 1) hs).trans (hnode _ _).symm

/-- The routine yields the element with the height that the parser finds. -/
def Listed (item : Subtree × Nat) (found : Expr Span × Nat) : Prop :=
  found = (item.1.tree, item.1.height) ∧ Measured item.1

theorem item_follows (h : Mirrors depth inner nested) (closer : Kind) :
    Follows depth height ((Routine.steps stop inner).item closer)
      ((nested.steps stop).item closer) fun item found _ => Option.Rel Listed item found := by
  refine (h 0 height).attempt.bind ?_
  intro item found height' hitem
  cases hitem with
  | none => exact .lift_bind _ fun _ => .pure .none
  | some hnoted =>
    obtain ⟨rfl, rfl, hs⟩ := hnoted
    exact .height_bind (.pure (.some ⟨rfl, hs⟩))

theorem element_follows (h : Mirrors depth inner nested) (closer : Kind) :
    Follows depth height ((Routine.steps stop inner).element closer)
      ((nested.steps stop).element closer)
      fun turn found _ => Option.Rel (Option.Rel Listed) turn found := by
  refine .lift_bind Parser.peek fun first => ?_
  cases first with
  | none => exact .pure .none
  | some t =>
    simp only [Steps.elementAt]
    split
    · exact .pure .none
    · refine (item_follows h closer).bind fun item found _ hitem => ?_
      exact .lift_bind _ fun _ => .pure (.some hitem)

def elementsParser (stop : Span) (nested : Nested) (closer : Kind) : Parser (List Subtree) :=
  fun ts =>
    let found := Parser.elements stop nested closer ts
    ⟨some found.items, found.rest, found.errors⟩

theorem elementsParser_eq (stop : Span) (nested : Nested) (closer : Kind) (ts : List Token) :
    elementsParser stop nested closer ts = ((nested.steps stop).element closer >>= fun
      | none => pure []
      | some none => elementsParser stop nested closer
      | some (some item) => do
        let items ← elementsParser stop nested closer
        pure (item.1 :: items) : Parser (List Subtree)) ts := by
  obtain ⟨turn, hturn⟩ := Parser.exists_element_value stop nested closer ts
  change _ = Parser.andThen _ _ ts
  rw [elementsParser, Parser.elements_eq, Parser.andThen]
  rcases turn with _ | _ | item <;> simp [hturn, elementsParser, bind, Parser.andThen, pure]

def Collected (top : Nat) (items : List Subtree) (found : List (Expr Span) × Nat) (_ : Nat) :
    Prop :=
  found = (items.map (·.tree), max top (Subtree.maxHeight items)) ∧ ∀ s ∈ items, Measured s

theorem tokens_bind (f : List Token → Routine γ) (m : Machine) :
    (Routine.tokens >>= f) m = f m.rest m := rfl

theorem elements_agree (h : Mirrors depth inner nested) {closer : Kind} {turns top : Nat}
    {m : Machine} (hdepth : m.depth = depth) (hturns : m.rest.length < turns) :
    Agrees m (elementsParser stop nested closer m.rest)
      (Routine.elements stop inner closer turns top m) (Collected top) := by
  induction turns generalizing top m with
  | zero => exact absurd hturns (Nat.not_lt_zero _)
  | succ turns ih =>
    rw [Routine.elements, elementsParser_eq]
    refine (element_follows h closer m hdepth rfl).bind ?_
    intro turn found m' hturn hdepth' hrest hvalue
    cases hturn with
    | none => exact .pure ⟨by simp [Subtree.maxHeight], by simp⟩
    | some hitem =>
      have hshorter := Parser.element_length_lt stop nested hvalue
      have hmore : m'.rest.length < turns := by
        rw [hrest]
        omega
      cases hitem with
      | none => exact ih (hdepth'.trans hdepth) hmore
      | @some item _ hlisted =>
        obtain ⟨rfl, hs⟩ := hlisted
        refine (ih (hdepth'.trans hdepth) hmore).bind ?_
        rintro items _ _ ⟨rfl, hall⟩ _ _ _
        refine .pure ⟨?_, List.forall_mem_cons.mpr ⟨hs, hall⟩⟩
        simp only [List.map_cons, Subtree.maxHeight, Nat.max_assoc]

theorem list_follows (h : Mirrors depth inner nested) (closer : Kind) :
    Follows depth height (Routine.list stop inner closer) (Parser.list stop nested closer)
      fun found items height => items = (found.1.map (·.tree), found.2) ∧
        height = Subtree.maxHeight found.1 ∧ ∀ s ∈ found.1, Measured s := by
  have hlist : Parser.list stop nested closer = (do
      let items ← elementsParser stop nested closer
      let close ← Parser.attempt (Parser.expect stop closer)
      pure (items, close.map (·.span)) : Parser (List Subtree × Option Span)) := by
    funext ts
    simp [Parser.list, bind, Parser.andThen, pure, Parser.attempt, elementsParser]
  intro m hdepth hheight
  rw [hlist, Routine.list, tokens_bind]
  refine (elements_agree h hdepth (Nat.lt_succ_self _)).bind ?_
  rintro items _ m₁ ⟨rfl, hall⟩ hdepth₁ _ _
  refine Follows.setHeight_bind (.lift_bind _ fun close => .pure ?_) m₁ rfl rfl
  exact ⟨rfl, Nat.zero_max _, hall⟩

theorem array_follows (h : Mirrors depth inner nested) (opening : Token) :
    Follows depth height ((Routine.reading stop inner).array opening)
      ((nested.reading stop).array opening) Noted := by
  refine (list_follows h .rbracket).bind ?_
  rintro ⟨items, close⟩ _ _ ⟨rfl, rfl, hall⟩
  refine .height_bind (.setHeight ⟨?_, rfl, ?_⟩)
  · simp [Routine.reading, Routine.steps]
  · exact congrArg (· + 1) (Grammar.maxHeight_eq hall)

theorem number_follows (t : Token) :
    Follows depth 1 ((Routine.reading stop inner).number t) ((nested.reading stop).number t)
      Noted := by
  unfold Reading.number
  cases Literal.readNumber t.literal.toList with
  | error fault => exact .fail _ _
  | ok value => cases value <;> exact .pure ⟨rfl, rfl, rfl⟩

theorem beginning_follows (h : Mirrors depth inner nested) (t : Token) :
    Option.Rel (fun p r => Follows depth 1 r p Noted) ((nested.reading stop).beginning t)
      ((Routine.reading stop inner).beginning t) := by
  unfold Reading.beginning
  generalize t.kind = kind
  cases kind with
  | number => exact .some (number_follows t)
  | string | boolean | null | ident | special => exact .some (.pure ⟨rfl, rfl, rfl⟩)
  | minus | bang | tilde => exact .some (unary_follows h _ t)
  | lparen => exact .some (group_follows h t)
  | lbracket => exact .some (array_follows h t)
  | sizeof | alignof => exact .some (measured_follows h (fun _ _ => rfl) t)
  | _ => exact .none

theorem operand_follows (h : Mirrors depth inner nested) :
    Follows depth height (Routine.reading stop inner).operand (nested.reading stop).operand
      Noted := by
  refine .setHeight_bind (.lift_bind Parser.peek fun first => ?_)
  cases first with
  | none => exact .fail _ _
  | some t =>
    have hbeginning : Option.Rel _ ((nested.reading stop).beginning t) _ := beginning_follows h t
    simp only [Reading.operandAt]
    generalize (nested.reading stop).beginning t = o,
      (Routine.reading stop inner).beginning t = o' at hbeginning
    cases hbeginning with
    | none => exact .failHere _ _
    | some hr => exact .lift_bind _ fun _ => hr

theorem index_follows (h : Mirrors depth inner nested) {lhs : Subtree} (hlhs : Measured lhs) :
    Follows depth height ((Routine.reading stop inner).index lhs)
      ((nested.reading stop).index lhs) Kept := by
  refine h.bind 0 fun s hs => .lift_bind _ fun closing => .height_bind (.pure ⟨rfl, ?_⟩)
  exact congrArg₂ (max · · + 1) hlhs hs

theorem ternary_follows (h : Mirrors depth inner nested) {lhs : Subtree} (hlhs : Measured lhs) :
    Follows depth height ((Routine.reading stop inner).ternary lhs)
      ((nested.reading stop).ternary lhs) Kept := by
  refine h.bind 0 fun yes hyes => .height_bind (.lift_bind _ fun _ => h.bind 0 fun no hno => ?_)
  refine .height_bind (.setHeight_bind (.height_bind (.pure ⟨rfl, ?_⟩)))
  exact congrArg₂ (max · · + 1) hlhs (congrArg₂ max hno hyes)

theorem binary_follows (h : Mirrors depth inner nested) (op : BinaryOp) {lhs : Subtree}
    (hlhs : Measured lhs) :
    Follows depth height ((Routine.reading stop inner).binary op lhs)
      ((nested.reading stop).binary op lhs) Kept := by
  refine h.bind _ fun s hs => .height_bind (.pure ⟨rfl, ?_⟩)
  exact congrArg₂ (max · · + 1) hlhs hs

theorem call_follows (h : Mirrors depth inner nested) {lhs : Subtree} (hlhs : Measured lhs)
    (opening : Token) :
    Follows depth height ((Routine.reading stop inner).call lhs opening)
      ((nested.reading stop).call lhs opening) Kept := by
  refine .lift_bind _ fun _ => (list_follows h .rparen).bind ?_
  rintro ⟨args, close⟩ _ _ ⟨rfl, rfl, hall⟩
  refine .height_bind (.pure ⟨?_, ?_⟩)
  · simp [Routine.reading, Routine.steps]
  · exact congrArg₂ (max · · + 1) hlhs (Grammar.maxHeight_eq hall)

theorem castTail_measured {lhs : Subtree} (hlhs : Measured lhs) :
    (Parser.castTail stop lhs).Produces Measured := by
  intro ts s hs
  unfold Parser.castTail at hs
  cases ts with
  | nil => cases hs
  | cons t ts =>
    simp only at hs
    split at hs
    · cases hs
    · split at hs
      · refine Parser.produces_bind (fun _ => Parser.produces_bind fun _ =>
          Parser.produces_bind fun closing => Parser.produces_pure ?_) ts s hs
        exact congrArg (· + 1) hlhs
      · cases hs

theorem member_measured {lhs : Subtree} (hlhs : Measured lhs) :
    (Parser.member stop lhs).Produces Measured := by
  intro ts s hs
  unfold Parser.member at hs
  cases ts with
  | nil => cases hs
  | cons t ts =>
    simp only at hs
    split at hs
    · cases ts with
      | nil => cases hs
      | cons u tail =>
        simp only at hs
        split at hs
        · exact castTail_measured hlhs tail s hs
        · cases hs
    · cases hs
      exact congrArg (· + 1) hlhs
    · cases hs
      exact congrArg (· + 1) hlhs
    · cases hs

theorem member_follows {lhs : Subtree} (hlhs : Measured lhs) :
    Follows depth height (Routine.lift (Parser.member stop lhs)) (Parser.member stop lhs) Kept := by
  intro m _ _
  refine ⟨?_, rfl, rfl, rfl, .refl m⟩
  change Option.Rel _ (Parser.member stop lhs m.rest).value (Parser.member stop lhs m.rest).value
  cases hvalue : (Parser.member stop lhs m.rest).value with
  | none => exact .none
  | some s => exact .some ⟨rfl, member_measured hlhs m.rest s hvalue⟩

theorem continuation_follows (h : Mirrors depth inner nested) (floor : Nat) {lhs : Subtree}
    (hlhs : Measured lhs) (t : Token) :
    Option.Rel (fun p r => ∀ height, Follows depth height r p Kept)
      ((nested.reading stop).continuation floor lhs t)
      ((Routine.reading stop inner).continuation floor lhs t) := by
  unfold Reading.continuation
  generalize t.kind = kind
  cases kind with
  | dot => exact .some fun _ => member_follows hlhs
  | lparen => exact .some fun _ => call_follows h hlhs t
  | lbracket => exact .some fun _ => index_follows h hlhs
  | question =>
    by_cases hfloor : floor = 0
    · simp only [hfloor, ↓reduceIte]
      exact .some fun _ => ternary_follows h hlhs
    · simp only [hfloor, ↓reduceIte]
      exact .none
  | _ =>
    simp only
    generalize BinaryOp.ofKind? _ = o
    cases o with
    | none => exact .none
    | some op =>
      by_cases hfloor : floor ≤ op.tier
      · simp only [hfloor, ↓reduceIte]
        exact .some fun _ => binary_follows h op hlhs
      · simp only [hfloor, ↓reduceIte]
        exact .none

theorem extend_follows (h : Mirrors depth inner nested) (floor : Nat) {lhs : Subtree}
    (hlhs : Measured lhs) :
    Follows depth height ((Routine.reading stop inner).extend floor lhs)
      ((nested.reading stop).extend floor lhs) fun o o' _ => o' = o ∧ ∀ s ∈ o, Measured s := by
  unfold Reading.extend
  split
  · exact .fail _ _
  · refine .lift_bind Parser.peek fun first => ?_
    have hcontinuation : Option.Rel (fun p r => ∀ height, Follows depth height r p Kept)
        (first.bind ((nested.reading stop).continuation floor lhs))
        (first.bind ((Routine.reading stop inner).continuation floor lhs)) := by
      cases first with
      | none => exact .none
      | some t => exact continuation_follows h floor hlhs t
    generalize first.bind ((nested.reading stop).continuation floor lhs) = o,
      first.bind ((Routine.reading stop inner).continuation floor lhs) = o' at hcontinuation
    cases hcontinuation with
    | none => exact .pure ⟨rfl, by simp⟩
    | some hr =>
      refine .lift_bind _ fun _ => (hr height).bind ?_
      rintro longer _ _ ⟨rfl, hlonger⟩
      exact .pure ⟨rfl, by simpa using hlonger⟩

theorem climb_agrees (h : Mirrors depth inner nested) (floor : Nat) {turns : Nat} {lhs : Subtree}
    (hlhs : Measured lhs) {m : Machine} (hdepth : m.depth = depth)
    (hturns : m.rest.length < turns) :
    Agrees m (Parser.climb stop nested floor lhs m.rest)
      (Routine.climb stop inner floor turns lhs m) Noted := by
  induction turns generalizing lhs m with
  | zero => exact absurd hturns (Nat.not_lt_zero _)
  | succ turns ih =>
    rw [Routine.climb, Parser.climb_eq]
    refine (extend_follows h floor hlhs m hdepth rfl).bind ?_
    rintro _ o m' ⟨rfl, hall⟩ hdepth' hrest hvalue
    cases o with
    | none => exact Follows.setHeight ⟨rfl, rfl, hlhs⟩ m' rfl rfl
    | some longer =>
      have hshorter := Parser.extend_length_lt hvalue
      refine ih (hall longer rfl) (hdepth'.trans hdepth) ?_
      rw [hrest]
      omega

/-- From one level to the next: an expression is an operand and what extends it. -/
theorem chain_follows (h : Mirrors depth inner nested) (floor : Nat) :
    Follows depth height (Routine.chain stop inner floor) ((Nested.around stop nested).run floor)
      Noted := by
  have hoperand : Follows depth height (Routine.observe
      (fun _ after result => .operand after.height result) (fun _ _ _ => .operand ..)
      (Routine.reading stop inner).operand) (nested.reading stop).operand Noted := by
    intro m hdepth hheight
    have hagrees : Agrees m ((nested.reading stop).operand m.rest) _ Noted :=
      operand_follows h m hdepth hheight
    exact hagrees.observe fun e he => hagrees.height_eq he
  refine hoperand.bind ?_
  rintro s _ _ ⟨rfl, rfl, hs⟩
  refine .height_bind fun m hdepth hheight => ?_
  rw [tokens_bind]
  exact climb_agrees h floor hs hdepth (Nat.lt_succ_self _)

end Level

/-- At a depth that leaves this many levels, an expression is what those levels read. -/
theorem expression_agrees (stop : Span) (levels floor : Nat) {m : Machine}
    (hlevels : m.depth + levels = maxDepth) :
    Agrees m ((Nested.ofLevels stop levels).run floor m.rest)
      (Routine.expression stop (levels + 1) floor m) Noted := by
  induction levels generalizing floor m with
  | zero =>
    have hagrees : Agrees m ((Nested.tooDeep stop).run floor m.rest)
        (Routine.deeper stop (Routine.chain stop (Routine.expression stop 0) floor) m) Noted := by
      rw [Routine.deeper, if_pos (by omega)]
      exact Follows.failHere stop (fun _ => .tooDeep) m rfl rfl
    exact hagrees.observe ⟨hagrees.depth, fun e he => hagrees.height_eq he⟩
  | succ levels ih =>
    have hinner : Mirrors (m.depth + 1) (Routine.expression stop (levels + 1))
        (Nested.ofLevels stop levels) := by
      intro floor height m' hdepth _
      exact ih floor (by omega)
    have hagrees : Agrees m ((Nested.around stop (Nested.ofLevels stop levels)).run floor m.rest)
        (Routine.deeper stop (Routine.chain stop (Routine.expression stop (levels + 1)) floor) m)
        Noted :=
      .deeper (by omega) (chain_follows hinner floor m.enter rfl rfl)
    exact hagrees.observe ⟨hagrees.depth, fun e he => hagrees.height_eq he⟩

/-- A tree leaves the loop only after its height was checked. -/
theorem climb_height_le {stop : Span} {nested : Nested} {floor : Nat} {lhs s : Subtree}
    {ts : List Token} (h : (Parser.climb stop nested floor lhs ts).value = some s) :
    s.height ≤ maxDepth := by
  induction lhs, ts using Parser.climb_induction stop nested floor with
  | tall lhs ts hheight =>
    rw [Parser.climb_of_tall hheight] at h
    cases h
  | none lhs ts hheight hnone =>
    rw [Parser.climb_of_none hheight hnone] at h
    obtain rfl := Option.some.inj h
    exact Nat.not_lt.mp hheight
  | some lhs t rest p hheight hp ih =>
    rw [Parser.climb_of_some hheight hp] at h
    cases hvalue : (p rest).value with
    | none => simp [Parser.andThen, hvalue] at h
    | some longer => exact ih longer hvalue (by simpa [Parser.andThen, hvalue] using h)

theorem ofLevels_height_le {stop : Span} {levels floor : Nat} {ts : List Token} {s : Subtree}
    (h : ((Nested.ofLevels stop levels).run floor ts).value = some s) : s.height ≤ maxDepth := by
  cases levels with
  | zero => cases h
  | succ levels =>
    exact Parser.produces_bind (fun lhs ts s hs => climb_height_le hs) ts s h

theorem parsed_eq {m : Machine} {out : Outcome Subtree} {result : Option (Expr Span) × Machine}
    (h : Agrees m out result Noted) (hstart : m.errors = []) :
    parsed result = Parsed.ofOutcome out := by
  rw [parsed, Parsed.ofOutcome, h.errors, h.rest, h.tree_eq, hstart, Option.isSome_map,
    List.nil_append]

theorem expression_trace (stop : Span) (levels floor : Nat) (m : Machine) :
    ∃ events, (Routine.expression stop (levels + 1) floor m).2.trace =
      events ++ [.expression m.depth (Routine.expression stop (levels + 1) floor m).2.depth
        (Routine.expression stop (levels + 1) floor m).2.height
        (Routine.expression stop (levels + 1) floor m).1] :=
  ⟨_, rfl⟩

/-- What the counters are worth on a source. -/
structure WithinLimit (source : String) : Prop where
  /-- Counting changes nothing about what is found. -/
  same : parsed (run source) = parse source
  /-- At no time is the depth above the limit. Every expression ends at the depth where it started,
  and the height is right whenever an expression or an operand ends with a tree. -/
  counted : ∀ event ∈ (run source).2.trace, event.Holds
  /-- A state on the way has a first part of the trace behind it, with all values of its depth
  counter. -/
  depth : ∀ m : Machine, m.trace <+: (run source).2.trace →
    Recorded m.trace m.depth ∧ m.depth ≤ maxDepth
  /-- The last thing that happens is the end of the whole expression. -/
  ended : ∃ events height, (run source).2.trace =
    events ++ [.expression 0 0 height (parse source).tree]
  bounded : ∀ e, (parse source).tree = some e → e.height ≤ maxDepth

theorem parse_within_nesting_limit (source : String) : WithinLimit source := by
  let lexer := Lexer.ofText source.toList
  let out := (Nested.ofLevels lexer.eof.span maxDepth).run 0 lexer.tokens
  have hrun : Agrees (.start lexer.tokens) out (run source) Noted :=
    expression_agrees lexer.eof.span maxDepth 0 (Nat.zero_add _)
  have hcounted : ∀ event ∈ (run source).2.trace, event.Holds := by
    obtain ⟨events, htrace, hholds⟩ := hrun.trace
    intro event hevent
    rw [htrace] at hevent
    exact hholds event hevent
  constructor
  · exact parsed_eq hrun rfl
  · exact hcounted
  · intro m hm
    exact ⟨m.recorded, m.depth_le fun event hevent => hcounted event (hm.subset hevent)⟩
  · obtain ⟨events, htrace⟩ := expression_trace lexer.eof.span maxDepth 0 (.start lexer.tokens)
    have hdepth : (run source).2.depth = 0 := hrun.depth
    have htree : (run source).1 = (parse source).tree := hrun.tree_eq
    have hended : (run source).2.trace = events ++ [.expression 0 (run source).2.depth
        (run source).2.height (run source).1] := htrace
    rw [hdepth, htree] at hended
    exact ⟨events, _, hended⟩
  · intro e he
    obtain ⟨s, hs, rfl⟩ := Option.map_eq_some_iff.mp he
    rcases hrun.noted_cases with ⟨hnone, -⟩ | ⟨s', hs', -, -, hmeasured⟩
    · rw [hnone] at hs
      cases hs
    · obtain rfl : s = s' := Option.some.inj (hs.symm.trans hs')
      exact hmeasured ▸ ofLevels_height_le hs

end Counting

end SchemaExpr
