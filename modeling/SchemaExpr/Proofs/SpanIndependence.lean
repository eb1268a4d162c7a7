import SchemaExpr.Proofs.ParserCompleteness
import SchemaExpr.Proofs.TreeShapes

/-!
# What the parser does with spans

The parser never looks at a span: it copies the spans of tokens and joins them. So if joining keeps
a relation between spans, and two lists of tokens have the same lexemes and related spans, then the
two outcomes differ only in spans, and these are related as well. This holds with errors and
without. On the diagonal, a property of spans that joining keeps carries over from the tokens.
-/
namespace SchemaExpr

def Joins (R : Span → Span → Prop) : Prop :=
  ∀ ⦃s s' t t' : Span⦄, R s s' → R t t' → R (s.join t) (s'.join t')

structure Token.Alike (R : Span → Span → Prop) (t t' : Token) : Prop where
  lexeme : t.toLexeme = t'.toLexeme
  span : R t.span t'.span

structure SyntaxError.Alike (R : Span → Span → Prop) (e e' : SyntaxError) : Prop where
  fault : e.fault = e'.fault
  span : R e.span e'.span

structure Subtree.Alike (R : Span → Span → Prop) (s s' : Subtree) : Prop where
  tree : s.tree.Alike R s'.tree
  height : s.height = s'.height

/-- The outcomes differ only in spans, which are related by `R`; the values are related by `V`. -/
structure Outcome.Alike {α : Type} (R : Span → Span → Prop) (V : α → α → Prop)
    (out out' : Outcome α) : Prop where
  value : Option.Rel V out.value out'.value
  rest : List.Forall₂ (Token.Alike R) out.rest out'.rest
  errors : List.Forall₂ (SyntaxError.Alike R) out.errors out'.errors

theorem rel_cases {α : Type} {V : α → α → Prop} {o o' : Option α} (h : Option.Rel V o o') :
    o = none ∧ o' = none ∨ ∃ a a', o = some a ∧ o' = some a' ∧ V a a' := by
  cases h with
  | none => exact .inl ⟨rfl, rfl⟩
  | some h => exact .inr ⟨_, _, rfl, rfl, h⟩

theorem eq_none_of_rel {α : Type} {V : α → α → Prop} {o o' : Option α} (h : Option.Rel V o o')
    (ho : o = none) : o' = none := by
  subst ho
  cases h
  rfl

theorem exists_of_rel {α : Type} {V : α → α → Prop} {o o' : Option α} {a : α}
    (h : Option.Rel V o o') (ho : o = some a) : ∃ a', o' = some a' ∧ V a a' := by
  subst ho
  cases h with
  | some h => exact ⟨_, rfl, h⟩

theorem Token.Alike.kind_eq {R : Span → Span → Prop} {t t' : Token} (h : t.Alike R t') :
    t.kind = t'.kind :=
  congrArg Lexeme.kind h.lexeme

theorem Token.Alike.literal_eq {R : Span → Span → Prop} {t t' : Token} (h : t.Alike R t') :
    t.literal = t'.literal :=
  congrArg Lexeme.literal h.lexeme

def Parser.Alike {α : Type} (R : Span → Span → Prop) (V : α → α → Prop) (p p' : Parser α) : Prop :=
  ∀ ⦃ts ts' : List Token⦄, List.Forall₂ (Token.Alike R) ts ts' → (p ts).Alike R V (p' ts')

def Nested.Alike (R : Span → Span → Prop) (inner inner' : Nested) : Prop :=
  ∀ floor, Parser.Alike R (Subtree.Alike R) (inner.run floor) (inner'.run floor)

namespace Parser

variable {α β : Type} {R : Span → Span → Prop} {V : α → α → Prop} {W : β → β → Prop}
  {stop stop' : Span} {inner inner' : Nested}

section Combinators

theorem alike_pure {a a' : α} (h : V a a') : Alike R V (pure a) (pure a') := by
  intro ts ts' hts
  exact ⟨.some h, hts, .nil⟩

theorem Alike.bind {p p' : Parser α} {f f' : α → Parser β} (hp : Alike R V p p')
    (hf : ∀ a a', V a a' → Alike R W (f a) (f' a')) : Alike R W (p >>= f) (p' >>= f') := by
  intro ts ts' hts
  obtain ⟨hvalue, hrest, herrors⟩ := hp hts
  change (andThen p f ts).Alike R W (andThen p' f' ts')
  rcases rel_cases hvalue with ⟨ha, ha'⟩ | ⟨a, a', ha, ha', hrel⟩
  · simp only [andThen, ha, ha']
    exact ⟨.none, hrest, herrors⟩
  · obtain ⟨hvalue', hrest', herrors'⟩ := hf a a' hrel hrest
    simp only [andThen, ha, ha']
    exact ⟨hvalue', hrest', List.rel_append herrors herrors'⟩

theorem alike_report (fault : Fault) {s s' : Span} (h : R s s') :
    Alike R (fun _ _ => True) (report fault s) (report fault s') := by
  intro ts ts' hts
  exact ⟨.some trivial, hts, .cons ⟨rfl, h⟩ .nil⟩

theorem alike_fail (fault : Fault) {s s' : Span} (h : R s s') :
    Alike R V (fail fault s) (fail fault s') := by
  intro ts ts' hts
  exact ⟨.none, hts, .cons ⟨rfl, h⟩ .nil⟩

theorem Alike.attempt {p p' : Parser α} (hp : Alike R V p p') :
    Alike R (Option.Rel V) p.attempt p'.attempt := by
  intro ts ts' hts
  exact ⟨.some (hp hts).value, (hp hts).rest, (hp hts).errors⟩

theorem current_alike (hstop : R stop stop') {ts ts' : List Token}
    (hts : List.Forall₂ (Token.Alike R) ts ts') :
    (current stop ts).Alike R (current stop' ts') := by
  cases hts with
  | nil => exact ⟨rfl, hstop⟩
  | cons ht _ => exact ht

theorem alike_failHere (hstop : R stop stop') (fault : Lexeme → Fault) :
    Alike R V (failHere stop fault) (failHere stop' fault) := by
  intro ts ts' hts
  have hcurrent := current_alike hstop hts
  unfold failHere
  rw [hcurrent.lexeme]
  exact alike_fail _ hcurrent.span hts

theorem alike_expect (hstop : R stop stop') (kind : Kind) :
    Alike R (Token.Alike R) (expect stop kind) (expect stop' kind) := by
  intro ts ts' hts
  cases hts with
  | nil => exact alike_failHere hstop _ .nil
  | @cons t t' ts ts' ht hts =>
    simp only [expect, ht.kind_eq]
    by_cases hkind : t'.kind = kind
    · rw [if_pos hkind, if_pos hkind]
      exact ⟨.some ht, hts, .nil⟩
    · rw [if_neg hkind, if_neg hkind]
      exact alike_failHere hstop _ (.cons ht hts)

end Combinators

section Lists

theorem skipTo_alike (closer : Kind) (depth : Nat) {ts ts' : List Token}
    (hts : List.Forall₂ (Token.Alike R) ts ts') :
    List.Forall₂ (Token.Alike R) (skipTo closer depth ts) (skipTo closer depth ts') := by
  induction hts generalizing depth with
  | nil => exact .nil
  | @cons t t' ts ts' ht hts ih =>
    have hover : skipOver? closer depth t = skipOver? closer depth t' := by
      simp only [skipOver?, ht.kind_eq]
    simp only [skipTo, hover]
    split
    · exact .cons ht hts
    · exact ih _

theorem drop_alike {ts ts' : List Token} (hts : List.Forall₂ (Token.Alike R) ts ts') :
    List.Forall₂ (Token.Alike R) (ts.drop 1) (ts'.drop 1) := by
  cases hts with
  | nil => exact .nil
  | cons _ hts => exact hts

theorem alike_separator (hstop : R stop stop') (closer : Kind) :
    Alike R (fun _ _ => True) (separator stop closer) (separator stop' closer) := by
  intro ts ts' hts
  have hcurrent := current_alike hstop hts
  have hskip := skipTo_alike closer 0 hts
  simp only [separator, hcurrent.lexeme, (current_alike hstop hskip).kind_eq]
  split
  · exact ⟨.some trivial, drop_alike hts, .nil⟩
  · split
    · exact ⟨.some trivial, hts, .nil⟩
    · refine ⟨.some trivial, ?_, .cons ⟨rfl, hcurrent.span⟩ .nil⟩
      simp only
      split
      · exact drop_alike hskip
      · exact hskip

theorem afterElement_alike (closer : Kind) {item item' : Outcome Subtree}
    (h : item.Alike R (Subtree.Alike R) item') :
    List.Forall₂ (Token.Alike R) (afterElement closer item) (afterElement closer item') := by
  unfold afterElement
  rcases rel_cases h.value with ⟨hs, hs'⟩ | ⟨s, s', hs, hs', -⟩
  · rw [hs, hs']
    exact skipTo_alike closer 0 h.rest
  · rw [hs, hs']
    exact h.rest

theorem toList_alike {o o' : Option Subtree} (h : Option.Rel (Subtree.Alike R) o o') :
    List.Forall₂ (Subtree.Alike R) o.toList o'.toList := by
  cases h with
  | none => exact .nil
  | some h => exact .cons h .nil

/-- Each turn of the loop over elements reads one element on either side. -/
theorem elements_alike (hstop : R stop stop') (hinner : inner.Alike R inner') (closer : Kind)
    (ts ts' : List Token) (hts : List.Forall₂ (Token.Alike R) ts ts') :
    List.Forall₂ (Subtree.Alike R) (elements stop inner closer ts).items
        (elements stop' inner' closer ts').items ∧
      List.Forall₂ (Token.Alike R) (elements stop inner closer ts).rest
        (elements stop' inner' closer ts').rest ∧
      List.Forall₂ (SyntaxError.Alike R) (elements stop inner closer ts).errors
        (elements stop' inner' closer ts').errors := by
  induction ts using elements_induction stop inner closer generalizing ts' with
  | nil =>
    cases hts
    rw [elements_nil, elements_nil]
    exact ⟨.nil, .nil, .nil⟩
  | closed t ts hcloser =>
    cases hts with
    | cons ht hts =>
      rw [elements_cons_of_eq stop inner ts hcloser,
        elements_cons_of_eq stop' inner' _ (ht.kind_eq ▸ hcloser)]
      exact ⟨.nil, .cons ht hts, .nil⟩
  | cons t ts hcloser ih =>
    cases hts with
    | cons ht hts =>
      have hitem := hinner 0 (.cons ht hts)
      have hsep := alike_separator hstop closer (afterElement_alike closer hitem)
      obtain ⟨hitems, hrest, herrors⟩ := ih _ hsep.rest
      rw [elements_cons_of_ne stop inner ts hcloser,
        elements_cons_of_ne stop' inner' _ (ht.kind_eq ▸ hcloser)]
      exact ⟨List.rel_append (toList_alike hitem.value) hitems, hrest,
        List.rel_append hitem.errors (List.rel_append hsep.errors herrors)⟩

theorem alike_list (hstop : R stop stop') (hinner : inner.Alike R inner') (closer : Kind) :
    Alike R (fun a a' => List.Forall₂ (Subtree.Alike R) a.1 a'.1 ∧ Option.Rel R a.2 a'.2)
      (list stop inner closer) (list stop' inner' closer) := by
  intro ts ts' hts
  obtain ⟨hitems, hrest, herrors⟩ := elements_alike hstop hinner closer ts ts' hts
  have hclose := alike_expect hstop closer hrest
  refine ⟨.some ⟨hitems, ?_⟩, hclose.rest, List.rel_append herrors hclose.errors⟩
  rcases rel_cases hclose.value with ⟨ht, ht'⟩ | ⟨t, t', ht, ht', halike⟩
  · rw [ht, ht']
    exact .none
  · rw [ht, ht']
    exact .some halike.span

theorem maxHeight_alike {items items' : List Subtree}
    (h : List.Forall₂ (Subtree.Alike R) items items') :
    Subtree.maxHeight items = Subtree.maxHeight items' := by
  induction h with
  | nil => rfl
  | cons hs _ ih => rw [Subtree.maxHeight, Subtree.maxHeight, hs.height, ih]

theorem map_tree_alike {items items' : List Subtree}
    (h : List.Forall₂ (Subtree.Alike R) items items') :
    List.Forall₂ (Expr.Alike R) (items.map (·.tree)) (items'.map (·.tree)) := by
  induction h with
  | nil => exact .nil
  | cons hs _ ih => exact .cons hs.tree ih

theorem getD_alike {o o' : Option Span} {s s' : Span} (h : Option.Rel R o o') (hs : R s s') :
    R (o.getD s) (o'.getD s') := by
  cases h with
  | none => exact hs
  | some h => exact h

end Lists

section Operands

theorem alike_unary (hR : Joins R) (hinner : inner.Alike R inner') (op : UnaryOp)
    {sign sign' : Token} (hsign : sign.Alike R sign') :
    Alike R (Subtree.Alike R) ((inner.reading stop).unary op sign)
      ((inner'.reading stop').unary op sign') := by
  apply (hinner operandFloor).bind
  intro x x' hx
  apply alike_pure
  exact ⟨.unary (hR hsign.span hx.tree.loc) op hx.tree, congrArg (· + 1) hx.height⟩

theorem alike_group (hR : Joins R) (hstop : R stop stop') (hinner : inner.Alike R inner')
    {opening opening' : Token} (hopening : opening.Alike R opening') :
    Alike R (Subtree.Alike R) ((inner.reading stop).group opening)
      ((inner'.reading stop').group opening') := by
  apply (hinner 0).bind
  intro x x' hx
  apply (alike_expect hstop .rparen).attempt.bind
  intro close close' hclose
  cases hclose with
  | none => exact alike_pure hx
  | some hclosing =>
    apply alike_pure
    exact ⟨hx.tree.withLoc (hR hopening.span hclosing.span), hx.height⟩

theorem alike_array (hR : Joins R) (hstop : R stop stop') (hinner : inner.Alike R inner')
    {opening opening' : Token} (hopening : opening.Alike R opening') :
    Alike R (Subtree.Alike R) ((inner.reading stop).array opening)
      ((inner'.reading stop').array opening') := by
  apply (alike_list hstop hinner .rbracket).bind
  rintro ⟨items, close⟩ ⟨items', close'⟩ ⟨hitems, hclose⟩
  apply alike_pure
  have hspan := hR hopening.span (getD_alike hclose hopening.span)
  exact ⟨.array hspan (map_tree_alike hitems), congrArg (· + 1) (maxHeight_alike hitems)⟩

theorem alike_measured (hR : Joins R) (hstop : R stop stop') (hinner : inner.Alike R inner')
    {node : Span → Expr Span → Expr Span}
    (hnode : ∀ {l l' e e'}, R l l' → e.Alike R e' → (node l e).Alike R (node l' e'))
    {word word' : Token} (hword : word.Alike R word') :
    Alike R (Subtree.Alike R) ((inner.reading stop).measured node word)
      ((inner'.reading stop').measured node word') := by
  apply (alike_expect hstop .lparen).bind
  intro _ _ _
  apply (hinner 0).bind
  intro x x' hx
  apply (alike_expect hstop .rparen).bind
  intro closing closing' hclosing
  apply alike_pure
  exact ⟨hnode (hR hword.span hclosing.span) hx.tree, congrArg (· + 1) hx.height⟩

theorem alike_leaf {e e' : Expr Span} (hshape : e.bare = e'.bare)
    (hmarks : List.Forall₂ R e.locs e'.locs) :
    Alike R (Subtree.Alike R) (pure ⟨e, 1⟩) (pure ⟨e', 1⟩) :=
  alike_pure ⟨⟨hshape, hmarks⟩, rfl⟩

theorem alike_number {t t' : Token} (ht : t.Alike R t') :
    Alike R (Subtree.Alike R) ((inner.reading stop).number t)
      ((inner'.reading stop').number t') := by
  unfold Reading.number
  rw [ht.literal_eq]
  split
  · exact alike_leaf rfl (.cons ht.span .nil)
  · exact alike_leaf rfl (.cons ht.span .nil)
  · exact alike_fail _ ht.span

theorem beginning_alike (hR : Joins R) (hstop : R stop stop') (hinner : inner.Alike R inner')
    {t t' : Token} (ht : t.Alike R t') :
    Option.Rel (Alike R (Subtree.Alike R)) ((inner.reading stop).beginning t)
      ((inner'.reading stop').beginning t') := by
  have hleaf := List.Forall₂.cons ht.span (.nil (R := R))
  unfold Reading.beginning
  rw [ht.kind_eq, ht.literal_eq]
  split
  · exact .some (alike_number ht)
  · exact .some (alike_leaf rfl hleaf)
  · exact .some (alike_leaf rfl hleaf)
  · exact .some (alike_leaf rfl hleaf)
  · exact .some (alike_leaf rfl hleaf)
  · exact .some (alike_leaf rfl hleaf)
  · exact .some (alike_unary hR hinner .neg ht)
  · exact .some (alike_unary hR hinner .not ht)
  · exact .some (alike_unary hR hinner .bitNot ht)
  · exact .some (alike_group hR hstop hinner ht)
  · exact .some (alike_array hR hstop hinner ht)
  · exact .some (alike_measured hR hstop hinner Expr.Alike.sizeof ht)
  · exact .some (alike_measured hR hstop hinner Expr.Alike.alignof ht)
  · exact .none

theorem alike_operand (hR : Joins R) (hstop : R stop stop') (hinner : inner.Alike R inner') :
    Alike R (Subtree.Alike R) (inner.reading stop).operand (inner'.reading stop').operand := by
  intro ts ts' hts
  cases hts with
  | nil => exact alike_fail _ hstop .nil
  | @cons t t' ts ts' ht hts =>
    simp only [operand_cons]
    rcases rel_cases (beginning_alike hR hstop hinner ht) with ⟨hp, hp'⟩ | ⟨p, p', hp, hp', halike⟩
    · simp only [hp, hp', ht.kind_eq]
      exact alike_failHere hstop _ (.cons ht hts)
    · simp only [hp, hp']
      exact halike hts

end Operands

section Continuations

variable {lhs lhs' : Subtree}

theorem alike_castTail (hR : Joins R) (hstop : R stop stop') (hlhs : lhs.Alike R lhs') :
    Alike R (Subtree.Alike R) (castTail stop lhs) (castTail stop' lhs') := by
  intro ts ts' hts
  cases hts with
  | nil => exact alike_failHere hstop _ .nil
  | @cons t t' ts ts' ht hts =>
    simp only [castTail, ht.kind_eq, ht.literal_eq]
    split
    · exact alike_fail _ ht.span (.cons ht hts)
    · split
      · refine (alike_expect hstop .gt).bind (fun _ _ _ => ?_) hts
        apply (alike_expect hstop .lparen).bind
        intro _ _ _
        apply (alike_expect hstop .rparen).bind
        intro closing closing' hclosing
        apply alike_pure
        have hspan := hR hlhs.tree.loc hclosing.span
        exact ⟨.cast hspan hlhs.tree t'.literal ht.span, congrArg (· + 1) hlhs.height⟩
      · exact alike_failHere hstop _ (.cons ht hts)

theorem alike_member (hR : Joins R) (hstop : R stop stop') (hlhs : lhs.Alike R lhs') :
    Alike R (Subtree.Alike R) (member stop lhs) (member stop' lhs') := by
  intro ts ts' hts
  cases hts with
  | nil => exact alike_failHere hstop _ .nil
  | @cons t t' ts ts' ht hts =>
    have hattr : Subtree.Alike R
        ⟨.attr (lhs.tree.loc.join t.span) lhs.tree t.literal t.span, lhs.height + 1⟩
        ⟨.attr (lhs'.tree.loc.join t'.span) lhs'.tree t'.literal t'.span, lhs'.height + 1⟩ := by
      rw [ht.literal_eq]
      have hspan := hR hlhs.tree.loc ht.span
      exact ⟨.attr hspan hlhs.tree t'.literal ht.span, congrArg (· + 1) hlhs.height⟩
    simp only [member, ht.kind_eq]
    split
    · cases hts with
      | nil => exact alike_fail _ hstop (.cons ht .nil)
      | @cons u u' us us' hu hus =>
        simp only [hu.lexeme]
        split
        · exact alike_castTail hR hstop hlhs hus
        · exact alike_fail _ hu.span (.cons ht (.cons hu hus))
    · exact ⟨.some hattr, hts, .nil⟩
    · exact ⟨.some hattr, hts, .nil⟩
    · exact alike_failHere hstop _ (.cons ht hts)

theorem alike_checkCallable (hR : Joins R) (hlhs : lhs.Alike R lhs') {opening opening' : Token}
    (hopening : opening.Alike R opening') :
    Alike R (fun _ _ => True) (checkCallable lhs opening) (checkCallable lhs' opening') := by
  unfold checkCallable
  rw [hlhs.tree.isCallable_eq]
  split
  · exact alike_pure trivial
  · exact alike_report _ (hR hlhs.tree.loc hopening.span)

theorem alike_call (hR : Joins R) (hstop : R stop stop') (hinner : inner.Alike R inner')
    (hlhs : lhs.Alike R lhs') {opening opening' : Token} (hopening : opening.Alike R opening') :
    Alike R (Subtree.Alike R) ((inner.reading stop).call lhs opening)
      ((inner'.reading stop').call lhs' opening') := by
  apply (alike_checkCallable hR hlhs hopening).bind
  intro _ _ _
  apply (alike_list hstop hinner .rparen).bind
  rintro ⟨args, close⟩ ⟨args', close'⟩ ⟨hargs, hclose⟩
  apply alike_pure
  have hspan := hR hlhs.tree.loc (getD_alike hclose hopening.span)
  refine ⟨.call hspan hlhs.tree (map_tree_alike hargs), ?_⟩
  simp only [hlhs.height, maxHeight_alike hargs]

theorem alike_index (hR : Joins R) (hstop : R stop stop') (hinner : inner.Alike R inner')
    (hlhs : lhs.Alike R lhs') :
    Alike R (Subtree.Alike R) ((inner.reading stop).index lhs)
      ((inner'.reading stop').index lhs') := by
  apply (hinner 0).bind
  intro x x' hx
  apply (alike_expect hstop .rbracket).bind
  intro closing closing' hclosing
  apply alike_pure
  refine ⟨.index (hR hlhs.tree.loc hclosing.span) hlhs.tree hx.tree, ?_⟩
  simp only [hlhs.height, hx.height]

theorem alike_ternary (hR : Joins R) (hstop : R stop stop') (hinner : inner.Alike R inner')
    (hlhs : lhs.Alike R lhs') :
    Alike R (Subtree.Alike R) ((inner.reading stop).ternary lhs)
      ((inner'.reading stop').ternary lhs') := by
  apply (hinner 0).bind
  intro yes yes' hyes
  apply (alike_expect hstop .colon).bind
  intro _ _ _
  apply (hinner 0).bind
  intro no no' hno
  apply alike_pure
  refine ⟨.ternary (hR hlhs.tree.loc hno.tree.loc) hlhs.tree hyes.tree hno.tree, ?_⟩
  simp only [hlhs.height, hyes.height, hno.height]

theorem alike_binary (hR : Joins R) (hinner : inner.Alike R inner') (op : BinaryOp)
    (hlhs : lhs.Alike R lhs') :
    Alike R (Subtree.Alike R) ((inner.reading stop).binary op lhs)
      ((inner'.reading stop').binary op lhs') := by
  apply (hinner (op.tier + 1)).bind
  intro rhs rhs' hrhs
  apply alike_pure
  refine ⟨.binary (hR hlhs.tree.loc hrhs.tree.loc) op hlhs.tree hrhs.tree, ?_⟩
  simp only [hlhs.height, hrhs.height]

theorem continuation_alike (hR : Joins R) (hstop : R stop stop') (hinner : inner.Alike R inner')
    (floor : Nat) (hlhs : lhs.Alike R lhs') {t t' : Token} (ht : t.Alike R t') :
    Option.Rel (Alike R (Subtree.Alike R)) ((inner.reading stop).continuation floor lhs t)
      ((inner'.reading stop').continuation floor lhs' t') := by
  unfold Reading.continuation
  rw [ht.kind_eq]
  split
  · exact .some (alike_member hR hstop hlhs)
  · exact .some (alike_call hR hstop hinner hlhs ht)
  · exact .some (alike_index hR hstop hinner hlhs)
  · split
    · exact .some (alike_ternary hR hstop hinner hlhs)
    · exact .none
  · split
    · split
      · exact .some (alike_binary hR hinner _ hlhs)
      · exact .none
    · exact .none

/-- Each turn of the loop over what follows a tree takes the same branch on either side. -/
theorem climb_alike (hR : Joins R) (hstop : R stop stop') (hinner : inner.Alike R inner')
    (floor : Nat) (lhs lhs' : Subtree) (hlhs : lhs.Alike R lhs') (ts ts' : List Token)
    (hts : List.Forall₂ (Token.Alike R) ts ts') :
    (climb stop inner floor lhs ts).Alike R (Subtree.Alike R)
      (climb stop' inner' floor lhs' ts') := by
  induction lhs, ts using climb_induction stop inner floor generalizing lhs' ts' with
  | tall lhs ts hheight =>
    rw [climb_of_tall hheight, climb_of_tall (hlhs.height ▸ hheight)]
    exact alike_fail _ hlhs.tree.loc hts
  | none lhs ts hheight hnone =>
    have hnone' : ∀ t ∈ ts'.head?, (inner'.reading stop').continuation floor lhs' t = none := by
      cases hts with
      | nil => simp
      | cons ht _ =>
        rintro _ ⟨⟩
        exact eq_none_of_rel (continuation_alike hR hstop hinner floor hlhs ht) (hnone _ rfl)
    rw [climb_of_none hheight hnone, climb_of_none (hlhs.height ▸ hheight) hnone']
    exact ⟨.some hlhs, hts, .nil⟩
  | some lhs t rest p hheight hp ih =>
    cases hts with
    | cons ht hrest =>
      obtain ⟨p', hp', hstep⟩ :=
        exists_of_rel (continuation_alike hR hstop hinner floor hlhs ht) hp
      rw [climb_of_some hheight hp, climb_of_some (hlhs.height ▸ hheight) hp']
      unfold andThen
      rcases rel_cases (hstep hrest).value with ⟨hvalue, hvalue'⟩ | ⟨s, s', hvalue, hvalue', hs⟩
      · simp only [hvalue, hvalue']
        exact ⟨.none, (hstep hrest).rest, (hstep hrest).errors⟩
      · have hout := ih s hvalue s' hs _ (hstep hrest).rest
        simp only [hvalue, hvalue']
        exact ⟨hout.value, hout.rest, List.rel_append (hstep hrest).errors hout.errors⟩

end Continuations

end Parser

namespace Nested

variable {R : Span → Span → Prop} {stop stop' : Span}

theorem alike_around (hR : Joins R) (hstop : R stop stop') {inner inner' : Nested}
    (hinner : inner.Alike R inner') : (around stop inner).Alike R (around stop' inner') := by
  intro floor
  apply (Parser.alike_operand hR hstop hinner).bind
  intro lhs lhs' hlhs ts ts' hts
  exact Parser.climb_alike hR hstop hinner floor lhs lhs' hlhs ts ts' hts

theorem alike_ofLevels (hR : Joins R) (hstop : R stop stop') (levels : Nat) :
    (ofLevels stop levels).Alike R (ofLevels stop' levels) := by
  induction levels with
  | zero => exact fun _ => Parser.alike_failHere hstop fun _ => .tooDeep
  | succ levels ih => exact alike_around hR hstop ih

end Nested

namespace Parsed

variable {R : Span → Span → Prop}

/-- What is found differs only in spans, which are related by `R`. -/
structure Alike (R : Span → Span → Prop) (found found' : Parsed) : Prop where
  tree : Option.Rel (Expr.Alike R) found.tree found'.tree
  errors : List.Forall₂ (SyntaxError.Alike R) found.errors found'.errors

theorem leftover_alike {t t' : Token} (ht : t.Alike R t') :
    (leftover t).Alike R (leftover t') := by
  unfold leftover
  rw [ht.lexeme]
  exact ⟨rfl, ht.span⟩

theorem head_leftover_alike {ts ts' : List Token} (hts : List.Forall₂ (Token.Alike R) ts ts') :
    List.Forall₂ (SyntaxError.Alike R) (ts.head?.map leftover).toList
      (ts'.head?.map leftover).toList := by
  cases hts with
  | nil => exact .nil
  | cons ht _ => exact .cons (leftover_alike ht) .nil

theorem ofOutcome_alike {out out' : Outcome Subtree} (h : out.Alike R (Subtree.Alike R) out') :
    (ofOutcome out).Alike R (ofOutcome out') := by
  unfold ofOutcome
  rcases rel_cases h.value with ⟨hs, hs'⟩ | ⟨s, s', hs, hs', halike⟩
  · rw [hs, hs']
    exact ⟨.none, List.rel_append h.errors .nil⟩
  · rw [hs, hs']
    exact ⟨.some halike.tree, List.rel_append h.errors (head_leftover_alike h.rest)⟩

end Parsed

/-- Sources whose tokens differ only in related spans are parsed alike, errors included. -/
theorem parse_alike {R : Span → Span → Prop} (hR : Joins R) {source source' : String}
    (hstop : R (Lexer.ofText source.toList).eof.span (Lexer.ofText source'.toList).eof.span)
    (htokens : List.Forall₂ (Token.Alike R) (Lexer.ofText source.toList).tokens
      (Lexer.ofText source'.toList).tokens) : (parse source).Alike R (parse source') :=
  Parsed.ofOutcome_alike (Nested.alike_ofLevels hR hstop maxDepth 0 htokens)

theorem map_fault_eq {R : Span → Span → Prop} {errors errors' : List SyntaxError}
    (h : List.Forall₂ (SyntaxError.Alike R) errors errors') :
    errors.map (·.fault) = errors'.map (·.fault) := by
  induction h with
  | nil => rfl
  | cons h _ ih => rw [List.map_cons, List.map_cons, h.fault, ih]

theorem overflows_iff (errors : List SyntaxError) :
    Overflows errors ↔ .tooDeep ∈ errors.map (·.fault) := by
  simp [Overflows]

theorem alike_of_lexemes {ts ts' : List Token}
    (h : ts.map (·.toLexeme) = ts'.map (·.toLexeme)) :
    List.Forall₂ (Token.Alike fun _ _ => True) ts ts' := by
  induction ts generalizing ts' with
  | nil =>
    obtain rfl := List.map_eq_nil_iff.mp h.symm
    exact .nil
  | cons t ts ih =>
    obtain ⟨t', us, rfl, ht, hus⟩ := List.map_eq_cons_iff.mp h.symm
    exact .cons ⟨ht.symm, trivial⟩ (ih hus.symm)

/-- Tokens with the lexemes of a phrase are read as a tree of the same shape, unless the phrase
nests too deeply. -/
theorem parse_of_lexemes {source : String} {ts : List Token} {e : Expr Span} {depth : Nat}
    (hderives : Grammar.Derives depth 0 ts e) (hheight : e.height ≤ maxDepth)
    (hlexemes : ts.map (·.toLexeme) = (Lexer.ofText source.toList).tokens.map (·.toLexeme)) :
    (∃ e', parse source = ⟨some e', []⟩ ∧ e'.bare = e.bare) ∨
      Overflows (parse source).errors ∧ maxDepth < depth := by
  have hjoins : Joins fun _ _ => True := fun _ _ _ _ _ _ => trivial
  have halike : (Parsed.ofOutcome ((Nested.ofLevels Span.origin maxDepth).run 0 ts)).Alike
      (fun _ _ => True) (parse source) :=
    Parsed.ofOutcome_alike
      (Nested.alike_ofLevels hjoins trivial maxDepth 0 (alike_of_lexemes hlexemes))
  have hread := (Grammar.ofLevels_complete Span.origin maxDepth depth).reads hderives
    (Grammar.stops_nil 0)
  rw [List.append_nil] at hread
  rcases hread with hread | ⟨hover, hexcess⟩
  · left
    rw [hread] at halike
    obtain ⟨e', htree, hshape⟩ := exists_of_rel halike.tree rfl
    have herrors : (parse source).errors = [] :=
      List.map_eq_nil_iff.mp (map_fault_eq halike.errors).symm
    have hparse : parse source = ⟨(parse source).tree, (parse source).errors⟩ := rfl
    rw [htree, herrors] at hparse
    exact ⟨e', hparse, hshape.shape.symm⟩
  · right
    refine ⟨?_, hexcess.resolve_right (Nat.not_lt.mpr hheight)⟩
    rw [overflows_iff, ← map_fault_eq halike.errors, ← overflows_iff]
    exact hover.append_left _

end SchemaExpr
