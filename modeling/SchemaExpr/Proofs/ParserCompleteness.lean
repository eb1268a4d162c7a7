import SchemaExpr.Proofs.ParserSoundness

/-!
# Phrases are read, unless they are too deep

A phrase that is followed by nothing that could extend it is read as its own tree, or the parser
reports that the expression is nested too deeply. The latter happens only if the phrase nests deeper
than the parser goes or its tree is taller than allowed, so that within the limits every phrase is
read.
-/
namespace SchemaExpr

def Overflows (errors : List SyntaxError) : Prop := ∃ error ∈ errors, error.fault = .tooDeep

theorem Overflows.append_left {errors : List SyntaxError} (h : Overflows errors)
    (more : List SyntaxError) : Overflows (errors ++ more) := by
  obtain ⟨error, hmem, hfault⟩ := h
  exact ⟨error, List.mem_append_left more hmem, hfault⟩

theorem Overflows.append_right {errors : List SyntaxError} (h : Overflows errors)
    (before : List SyntaxError) : Overflows (before ++ errors) := by
  obtain ⟨error, hmem, hfault⟩ := h
  exact ⟨error, List.mem_append_right before hmem, hfault⟩

/-- The outcome is the expected one, or it overflows, which takes an excess of some sort. -/
def Meets {α : Type} (out expected : Outcome α) (excess : Prop) : Prop :=
  out = expected ∨ Overflows out.errors ∧ excess

namespace Meets

variable {α β : Type} {excess excess' : Prop}

theorem trans {a b c : Outcome α} (hab : Meets a b excess) (hbc : Meets b c excess) :
    Meets a c excess := by
  rcases hab with rfl | h
  · exact hbc
  · exact .inr h

theorem mono {a b : Outcome α} (h : Meets a b excess) (himp : excess → excess') :
    Meets a b excess' :=
  h.imp id fun h => ⟨h.1, himp h.2⟩

theorem bind {p : Parser α} {f : α → Parser β} {ts rest : List Token} {a : α} {out : Outcome β}
    (hp : Meets (p ts) ⟨some a, rest, []⟩ excess) (hf : Meets (f a rest) out excess) :
    Meets (Parser.andThen p f ts) out excess := by
  rcases hp with hp | ⟨hover, hexcess⟩
  · have heq : Parser.andThen p f ts = f a rest := by simp [Parser.andThen, hp]
    rwa [heq]
  · refine .inr ⟨?_, hexcess⟩
    unfold Parser.andThen
    simp only
    split
    · exact hover
    · exact hover.append_left _

theorem pure (a : α) (ts : List Token) :
    Meets ((Pure.pure a : Parser α) ts) ⟨some a, ts, []⟩ excess :=
  .inl rfl

theorem expect (stop : Span) {kind : Kind} {t : Token} (h : t.kind = kind) (ts : List Token) :
    Meets (Parser.expect stop kind (t :: ts)) ⟨some t, ts, []⟩ excess :=
  .inl (by simp [Parser.expect, h])

end Meets

namespace Grammar

open Parser

def sized (e : Expr Span) : Subtree := ⟨e, e.height⟩

theorem tree_map_sized (es : List (Expr Span)) : (es.map sized).map (·.tree) = es := by
  simp [sized, Function.comp_def]

theorem maxHeight_map_sized (es : List (Expr Span)) :
    Subtree.maxHeight (es.map sized) = Expr.height.heightList es := by
  rw [maxHeight_eq (by simp [Measured, sized]), tree_map_sized]

/-- A phrase is not empty, and does not start with a closing bracket. -/
def StartsOpen (ts : List Token) : Prop :=
  ∃ t tail, ts = t :: tail ∧ t.kind ≠ .rparen ∧ t.kind ≠ .rbracket

theorem StartsOpen.append {ts : List Token} (h : StartsOpen ts) (more : List Token) :
    StartsOpen (ts ++ more) := by
  obtain ⟨t, tail, rfl, hkind⟩ := h
  exact ⟨t, tail ++ more, rfl, hkind⟩

/-- Every phrase of `g` is read by `inner` as its tree, or overflows if there is an excess: `short`,
or a tree that is too tall. -/
structure Complete (inner : Nested) (g : Language) (short : Prop) : Prop where
  starts : ∀ {k ts e}, g k ts e → StartsOpen ts
  reads : ∀ {floor ts e rest}, g floor ts e → Stops floor rest →
    Meets (inner.run floor (ts ++ rest)) ⟨some (sized e), rest, []⟩ (short ∨ maxDepth < e.height)

theorem stops_operandFloor {floor : Nat} {ts : List Token} (h : Stops floor ts) :
    Stops operandFloor ts := by
  intro t ht
  have hcontinues := h t ht
  unfold continues at *
  split at hcontinues
  · contradiction
  · contradiction
  · contradiction
  · rfl
  · split
    · next op _ => cases op <;> rfl
    · rfl

theorem le_ceiling (k : Nat) : k ≤ ceiling k := by
  unfold ceiling
  split <;> omega

theorem Primary.startsOpen {g : Language} {ts : List Token} {e : Expr Span}
    (h : Primary g ts e) : StartsOpen ts := by
  cases h with
  | @leaf t _ hleaf =>
    refine ⟨t, [], rfl, ?_, ?_⟩ <;> intro hkind <;> simp [leaf?, hkind] at hleaf
  | group hopen => exact ⟨_, _, rfl, by simp [hopen], by simp [hopen]⟩
  | array hopen => exact ⟨_, _, rfl, by simp [hopen], by simp [hopen]⟩
  | sizeof hword => exact ⟨_, _, rfl, by simp [hword], by simp [hword]⟩
  | alignof hword => exact ⟨_, _, rfl, by simp [hword], by simp [hword]⟩

theorem Chain.startsOpen {g : Language} {ts : List Token} {e : Expr Span}
    (h : Chain g ts e) : StartsOpen ts := by
  induction h with
  | primary h => exact h.startsOpen
  | member _ _ _ ih => exact ih.append _
  | cast _ _ _ _ _ _ _ _ ih => exact ih.append _
  | call _ _ _ _ _ ih => exact ih.append _
  | index _ _ _ _ ih => exact ih.append _

theorem Phrase.startsOpen {g : Language} {k : Nat} {ts : List Token} {e : Expr Span}
    (h : Phrase g k ts e) : StartsOpen ts := by
  induction h with
  | chain h => exact h.startsOpen
  | @unary op _ _ _ hsign =>
    refine ⟨_, _, rfl, ?_, ?_⟩ <;> rw [hsign] <;> cases op <;> decide
  | tighter _ _ ih => exact ih
  | binary _ _ _ ih => exact ih.append _
  | ternary _ _ _ _ _ ih => exact ih.append _

section Level

variable (stop : Span) {inner : Nested} {g : Language} {short : Prop}

theorem excess_mono {m n : Nat} (hle : m ≤ n) (h : short ∨ maxDepth < m) : short ∨ maxDepth < n :=
  h.imp_right fun hlt => Nat.lt_of_lt_of_le hlt hle

/-- Items in brackets are the elements of the list, or one of them overflows. -/
theorem elements_complete (hinner : Complete inner g short) {closer : Kind}
    (hcloser : closer = .rparen ∨ closer = .rbracket) {ts : List Token} {es : List (Expr Span)}
    (hitems : Items (g 0) ts es) {closing : Token} (hclose : closing.kind = closer)
    (rest : List Token) :
    elements stop inner closer (ts ++ closing :: rest) = ⟨es.map sized, closing :: rest, []⟩ ∨
      Overflows (elements stop inner closer (ts ++ closing :: rest)).errors ∧
        (short ∨ maxDepth < Expr.height.heightList es) := by
  have hcomma : closer ≠ .comma := by rcases hcloser with rfl | rfl <;> decide
  have hstops : Stops 0 (closing :: rest) := by
    rcases hcloser with rfl | rfl <;> simp [hclose, continues, BinaryOp.ofKind?]
  have hend : elements stop inner closer (closing :: rest) = ⟨[], closing :: rest, []⟩ := by
    simp [elements_cons_of_eq stop inner rest hclose]
  induction hitems with
  | nil => exact .inl hend
  | @last ts e hitem =>
    obtain ⟨t, tail, rfl, hparen, hbracket⟩ := hinner.starts hitem
    have hopen : t.kind ≠ closer := by rcases hcloser with rfl | rfl <;> assumption
    have hread := hinner.reads hitem hstops
    rw [List.cons_append] at hread ⊢
    rw [elements_cons_of_ne stop inner _ hopen]
    simp only
    rcases hread with hread | ⟨hover, hexcess⟩
    · left
      simp [hread, afterElement, separator, current, hclose, hcomma, hend]
    · exact .inr ⟨hover.append_left _, by simpa [Expr.height.heightList] using hexcess⟩
  | @cons ts comma more e es hitem hkind _ ih =>
    obtain ⟨t, tail, rfl, hparen, hbracket⟩ := hinner.starts hitem
    have hopen : t.kind ≠ closer := by rcases hcloser with rfl | rfl <;> assumption
    have hread : Meets (inner.run 0 (t :: tail ++ comma :: (more ++ closing :: rest)))
        ⟨some (sized e), comma :: (more ++ closing :: rest), []⟩ (short ∨ maxDepth < e.height) :=
      hinner.reads hitem (by simp [hkind, continues, BinaryOp.ofKind?])
    rw [List.append_assoc, List.cons_append, List.cons_append]
    rw [List.cons_append] at hread
    rw [elements_cons_of_ne stop inner _ hopen]
    simp only [Expr.height.heightList]
    rcases hread with hread | ⟨hover, hexcess⟩
    · have hafter : separator stop closer (afterElement closer
          (inner.run 0 (t :: (tail ++ comma :: (more ++ closing :: rest))))) =
          ⟨some (), more ++ closing :: rest, []⟩ := by
        simp [hread, afterElement, separator, current, hkind]
      rw [hafter]
      rcases ih with ih | ⟨hover, hexcess⟩
      · left
        simp [hread, ih]
      · exact .inr ⟨(hover.append_right _).append_right _,
          excess_mono (Nat.le_max_right _ _) hexcess⟩
    · exact .inr ⟨hover.append_left _, excess_mono (Nat.le_max_left _ _) hexcess⟩

theorem list_complete (hinner : Complete inner g short) {closer : Kind}
    (hcloser : closer = .rparen ∨ closer = .rbracket) {ts : List Token} {es : List (Expr Span)}
    (hitems : Items (g 0) ts es) {closing : Token} (hclose : closing.kind = closer)
    (rest : List Token) :
    Meets (list stop inner closer (ts ++ closing :: rest))
      ⟨some (es.map sized, some closing.span), rest, []⟩
      (short ∨ maxDepth < Expr.height.heightList es) := by
  have hexpect : expect stop closer (closing :: rest) = ⟨some closing, rest, []⟩ := by
    simp [expect, hclose]
  rcases elements_complete stop hinner hcloser hitems hclose rest with h | ⟨hover, hexcess⟩
  · exact .inl (by simp [list, h, hexpect])
  · exact .inr ⟨hover.append_left _, hexcess⟩

theorem leaf_complete {t : Token} {e : Expr Span} (h : leaf? t = some e) (rest : List Token) :
    (inner.reading stop).operand (t :: rest) = ⟨some (sized e), rest, []⟩ := by
  simp only [sized, height_of_leaf h, operand_cons, Reading.beginning]
  unfold leaf? at h
  split at h
  · next hkind =>
    simp only [hkind, Reading.number]
    split at h <;> cases h <;> next hread => simp only [hread]; rfl
  all_goals cases h
  all_goals next hkind => simp only [hkind]; rfl

theorem operand_complete (hinner : Complete inner g short) {ts : List Token} {e : Expr Span}
    (h : Primary g ts e) (rest : List Token) :
    Meets ((inner.reading stop).operand (ts ++ rest)) ⟨some (sized e), rest, []⟩
      (short ∨ maxDepth < e.height) := by
  have hparen {closing : Token} (hclose : closing.kind = .rparen) : Stops 0 (closing :: rest) := by
    simp [hclose, continues, BinaryOp.ofKind?]
  cases h with
  | leaf hleaf => exact .inl (leaf_complete stop hleaf rest)
  | @group opening ts closing e hopen hderives hclose =>
    have hoperand : (inner.reading stop).operand (opening :: (ts ++ [closing]) ++ rest) =
        (inner.reading stop).group opening (ts ++ closing :: rest) := by
      simp [operand_cons, Reading.beginning, hopen]
    have hattempt : Meets (attempt (expect stop .rparen) (closing :: rest))
        ⟨some (some closing), rest, []⟩ (short ∨ maxDepth < e.height) :=
      .inl (by simp [attempt, expect, hclose])
    rw [hoperand, sized, height_withLoc]
    exact (hinner.reads hderives (hparen hclose)).bind (hattempt.bind (.pure _ _))
  | @array opening ts closing es hopen hitems hclose =>
    have hoperand : (inner.reading stop).operand (opening :: (ts ++ [closing]) ++ rest) =
        (inner.reading stop).array opening (ts ++ closing :: rest) := by
      simp [operand_cons, Reading.beginning, hopen]
    rw [hoperand]
    unfold Reading.array
    refine ((list_complete stop hinner (.inr rfl) hitems hclose rest).mono
      (excess_mono (Nat.le_succ _))).bind (.inl ?_)
    simp only [Nested.reading_tree, Nested.reading_tallest, tree_map_sized, maxHeight_map_sized,
      Option.getD_some]
    rfl
  | @sizeof word opening ts closing e hword hopen hderives hclose =>
    have hoperand : (inner.reading stop).operand (word :: opening :: (ts ++ [closing]) ++ rest) =
        (inner.reading stop).measured .sizeof word (opening :: (ts ++ closing :: rest)) := by
      simp [operand_cons, Reading.beginning, hword]
    rw [hoperand]
    exact (Meets.expect stop hopen _).bind (((hinner.reads hderives (hparen hclose)).mono
      (excess_mono (Nat.le_succ _))).bind ((Meets.expect stop hclose _).bind (.pure _ _)))
  | @alignof word opening ts closing e hword hopen hderives hclose =>
    have hoperand : (inner.reading stop).operand (word :: opening :: (ts ++ [closing]) ++ rest) =
        (inner.reading stop).measured .alignof word (opening :: (ts ++ closing :: rest)) := by
      simp [operand_cons, Reading.beginning, hword]
    rw [hoperand]
    exact (Meets.expect stop hopen _).bind (((hinner.reads hderives (hparen hclose)).mono
      (excess_mono (Nat.le_succ _))).bind ((Meets.expect stop hclose _).bind (.pure _ _)))

theorem climb_step {floor : Nat} {lhs longer : Subtree} {t : Token} {rest rest' : List Token}
    {p : Parser Subtree} {excess : Prop}
    (hp : (inner.reading stop).continuation floor lhs t = some p)
    (hstep : Meets (p rest) ⟨some longer, rest', []⟩ excess)
    (htall : maxDepth < lhs.height → excess) :
    Meets (climb stop inner floor lhs (t :: rest)) (climb stop inner floor longer rest')
      excess := by
  by_cases hheight : maxDepth < lhs.height
  · refine .inr ⟨?_, htall hheight⟩
    rw [climb_of_tall hheight]
    exact ⟨_, List.mem_singleton_self _, rfl⟩
  · rw [climb_of_some hheight hp]
    exact hstep.bind (.inl rfl)

theorem member_complete {e : Expr Span} {name : Token}
    (hname : name.kind = .ident ∨ name.kind.isSpecial = true) (rest : List Token) :
    member stop (sized e) (name :: rest) =
      ⟨some (sized (.attr (e.loc.join name.span) e name.literal name.span)), rest, []⟩ := by
  rcases hname with hname | hname
  · simp [member, hname, sized, Expr.height]
  · obtain ⟨s, hs⟩ : ∃ s, name.kind = .special s := by
      unfold Kind.isSpecial Kind.special? at hname
      split at hname
      · next s hs => exact ⟨s, hs⟩
      · cases hname
    simp [member, hs, sized, Expr.height]

theorem cast_complete {e : Expr Span} {word less type greater opening closing : Token}
    (hword : word.kind = .asCast) (hless : less.kind = .lt) (htype : type.kind = .ident)
    (hgreater : greater.kind = .gt) (hopen : opening.kind = .lparen)
    (hclose : closing.kind = .rparen)
    (rest : List Token) :
    member stop (sized e) (word :: less :: type :: greater :: opening :: closing :: rest) =
      ⟨some (sized (.cast (e.loc.join closing.span) e type.literal type.span)), rest, []⟩ := by
  simp only [member, hword, hless, ↓reduceIte, castTail, htype, reduceCtorEq]
  have hread : Meets ((do
      let _ ← expect stop .gt
      let _ ← expect stop .lparen
      let closing ← expect stop .rparen
      pure ⟨.cast ((sized e).tree.loc.join closing.span) (sized e).tree type.literal type.span,
        (sized e).height + 1⟩ : Parser Subtree) (greater :: opening :: closing :: rest))
      ⟨some (sized (.cast (e.loc.join closing.span) e type.literal type.span)), rest, []⟩ False :=
    (Meets.expect stop hgreater _).bind ((Meets.expect stop hopen _).bind
      ((Meets.expect stop hclose _).bind (.pure _ _)))
  exact hread.resolve_right fun h => h.2

/-- Reading the tokens of a chain comes down to going on after its tree. -/
theorem chain_complete (hinner : Complete inner g short) {ts : List Token} {e : Expr Span}
    (h : Chain g ts e) (floor : Nat) (rest : List Token) :
    Meets ((Nested.around stop inner).run floor (ts ++ rest))
      (climb stop inner floor (sized e) rest) (short ∨ maxDepth < e.height) := by
  induction h generalizing rest with
  | primary h => exact (operand_complete stop hinner h rest).bind (.inl rfl)
  | member _ hdot hname ih =>
    rw [List.append_assoc]
    refine ((ih _).mono (excess_mono (Nat.le_succ _))).trans
      (climb_step stop ?_ (.inl (member_complete stop hname rest)) ?_)
    · simp [Reading.continuation, hdot]
    · exact fun h => .inr (Nat.lt_succ_of_lt h)
  | cast _ hdot hword hless htype hgreater hopen hclose ih =>
    rw [List.append_assoc]
    refine ((ih _).mono (excess_mono (Nat.le_succ _))).trans (climb_step stop ?_
      (.inl (cast_complete stop hword hless htype hgreater hopen hclose rest)) ?_)
    · simp [Reading.continuation, hdot]
    · exact fun h => .inr (Nat.lt_succ_of_lt h)
  | @call ts e opening us args closing _ hcallable hopen hitems hclose ih =>
    have hcheck (ts : List Token) : checkCallable (sized e) opening ts = ⟨some (), ts, []⟩ := by
      simp only [checkCallable, sized, hcallable, ↓reduceIte]
      rfl
    have hle : e.height ≤ (Expr.call (e.loc.join closing.span) e args).height ∧
        Expr.height.heightList args ≤ (Expr.call (e.loc.join closing.span) e args).height := by
      simp only [Expr.height]
      omega
    rw [List.append_assoc, List.cons_append, List.append_assoc, List.singleton_append]
    have hcontinue : (inner.reading stop).continuation floor (sized e) opening =
        some ((inner.reading stop).call (sized e) opening) := by simp [Reading.continuation, hopen]
    refine ((ih _).mono (excess_mono hle.1)).trans (climb_step stop hcontinue ?_ ?_)
    · have hlist := (list_complete stop hinner (.inl rfl) hitems hclose rest).mono
        (excess_mono hle.2)
      refine Meets.bind (.inl (hcheck _)) (hlist.bind (.inl ?_))
      simp only [Nested.reading_tree, Nested.reading_tallest, tree_map_sized, maxHeight_map_sized,
        Option.getD_some]
      rfl
    · exact fun h => .inr (Nat.lt_of_lt_of_le h hle.1)
  | @index ts e opening us place closing _ hopen hplace hclose ih =>
    have hle : e.height ≤ (Expr.index (e.loc.join closing.span) e place).height ∧
        place.height ≤ (Expr.index (e.loc.join closing.span) e place).height := by
      simp only [Expr.height]
      omega
    have hstops : Stops 0 (closing :: rest) := by simp [hclose, continues, BinaryOp.ofKind?]
    rw [List.append_assoc, List.cons_append, List.append_assoc, List.singleton_append]
    have hcontinue : (inner.reading stop).continuation floor (sized e) opening =
        some ((inner.reading stop).index (sized e)) := by simp [Reading.continuation, hopen]
    refine ((ih _).mono (excess_mono hle.1)).trans (climb_step stop hcontinue ?_ ?_)
    · exact ((hinner.reads hplace hstops).mono (excess_mono hle.2)).bind
        ((Meets.expect stop hclose _).bind (.pure _ _))
    · exact fun h => .inr (Nat.lt_of_lt_of_le h hle.1)

theorem continuation_of_operator {k : Nat} {op : BinaryOp} {symbol : Token}
    (hop : (symbol.kind, op) ∈ operators k) {floor : Nat} (hfloor : floor ≤ k) (lhs : Subtree) :
    (inner.reading stop).continuation floor lhs symbol =
      some ((inner.reading stop).binary op lhs) := by
  obtain ⟨hkind, rfl⟩ := mem_operators_iff.mp hop
  unfold Reading.continuation
  split
  case h_5 => simp [hkind, hfloor]
  all_goals
    next hother =>
    rw [hother] at hkind
    cases hkind

/-- Reading the tokens of a phrase comes down to going on after its tree, if nothing that follows
would have gone into the phrase. -/
theorem phrase_complete (hinner : Complete inner g short) {k : Nat} {ts : List Token}
    {e : Expr Span} (h : Phrase g k ts e) {floor : Nat} (hfloor : floor ≤ k) {rest : List Token}
    (hstops : Stops (ceiling k) rest) :
    Meets ((Nested.around stop inner).run floor (ts ++ rest))
      (climb stop inner floor (sized e) rest) (short ∨ maxDepth < e.height) := by
  induction h generalizing floor rest with
  | chain h => exact chain_complete stop hinner h floor rest
  | @unary op sign ts e hsign hderives =>
    have hoperand :
        (inner.reading stop).operand (sign :: (ts ++ rest)) =
          (inner.reading stop).unary op sign (ts ++ rest) := by
      cases op <;> simp [operand_cons, Reading.beginning, hsign, signKind]
    have hread : Meets ((inner.reading stop).operand (sign :: (ts ++ rest)))
        ⟨some (sized (.unary (sign.span.join e.loc) op e)), rest, []⟩
        (short ∨ maxDepth < e.height + 1) := by
      rw [hoperand]
      exact ((hinner.reads hderives (stops_operandFloor hstops)).mono
        (excess_mono (Nat.le_succ _))).bind (.pure _ _)
    exact hread.bind (.inl rfl)
  | @tighter k ts e hk _ ih =>
    refine ih (Nat.le_succ_of_le hfloor) (hstops.antitone ?_)
    unfold ceiling
    split <;> simp
  | @binary k op symbol ls lhs rs rhs hop _ hrhs ih =>
    obtain ⟨hkind, htier⟩ := mem_operators_iff.mp hop
    have hceiling : ceiling k = k + 1 := by
      rw [← htier]
      cases op <;> rfl
    rw [hceiling] at ih hstops
    have hle : lhs.height ≤ (Expr.binary (lhs.loc.join rhs.loc) op lhs rhs).height ∧
        rhs.height ≤ (Expr.binary (lhs.loc.join rhs.loc) op lhs rhs).height := by
      simp only [Expr.height]
      omega
    rw [List.append_assoc, List.cons_append]
    refine ((ih hfloor ?_).mono (excess_mono hle.1)).trans
      (climb_step stop (continuation_of_operator stop hop hfloor _) ?_ ?_)
    · simp [continues_of_operator hop]
    · rw [← htier] at hrhs hstops
      exact ((hinner.reads hrhs hstops).mono (excess_mono hle.2)).bind (.pure _ _)
    · exact fun h => .inr (Nat.lt_of_lt_of_le h hle.1)
  | @ternary question colon cs condition ys yes ns no _ hquestion hyes hcolon hno ih =>
    obtain rfl : floor = 0 := Nat.le_zero.mp hfloor
    have hle :
        condition.height ≤ (Expr.ternary (condition.loc.join no.loc) condition yes no).height ∧
        yes.height ≤ (Expr.ternary (condition.loc.join no.loc) condition yes no).height ∧
        no.height ≤ (Expr.ternary (condition.loc.join no.loc) condition yes no).height := by
      simp only [Expr.height]
      omega
    have hcontinue : (inner.reading stop).continuation 0 (sized condition) question =
        some ((inner.reading stop).ternary (sized condition)) := by
      simp [Reading.continuation, hquestion]
    have hcolonStops : Stops 0 (colon :: (ns ++ rest)) := by
      simp [hcolon, continues, BinaryOp.ofKind?]
    rw [List.append_assoc, List.cons_append, List.append_assoc, List.cons_append]
    refine ((ih (Nat.zero_le 1) ?_).mono (excess_mono hle.1)).trans
      (climb_step stop hcontinue ?_ ?_)
    · simp [hquestion, continues, ceiling]
    · exact ((hinner.reads hyes hcolonStops).mono (excess_mono hle.2.1)).bind
        ((Meets.expect stop hcolon _).bind
          (((hinner.reads hno hstops).mono (excess_mono hle.2.2)).bind (.pure _ _)))
    · exact fun h => .inr (Nat.lt_of_lt_of_le h hle.1)

theorem climb_of_stops {floor : Nat} {e : Expr Span} {rest : List Token}
    (hstops : Stops floor rest) :
    Meets (climb stop inner floor (sized e) rest) ⟨some (sized e), rest, []⟩
      (short ∨ maxDepth < e.height) := by
  by_cases hheight : maxDepth < (sized e).height
  · rw [climb_of_tall hheight]
    exact .inr ⟨⟨_, List.mem_singleton_self _, rfl⟩, .inr hheight⟩
  · exact .inl (climb_of_none hheight fun t ht => continuation_eq_none_iff.mpr (hstops t ht))

/-- If the nested phrases are read, so are the phrases around them. -/
theorem around_complete (hinner : Complete inner g short) :
    Complete (Nested.around stop inner) (Phrase g) short where
  starts := Phrase.startsOpen
  reads h hstops := (phrase_complete stop hinner h (Nat.le_refl _)
    (hstops.antitone (le_ceiling _))).trans (climb_of_stops stop hstops)

end Level

/-- A phrase is read at some level unless it nests deeper or its tree is too tall. -/
theorem ofLevels_complete (stop : Span) (levels depth : Nat) :
    Complete (Nested.ofLevels stop levels) (Derives depth) (levels < depth) := by
  induction depth generalizing levels with
  | zero => exact ⟨False.elim, fun h => h.elim⟩
  | succ depth ih =>
    cases levels with
    | zero =>
      refine ⟨Phrase.startsOpen, fun h _ => .inr ⟨?_, .inl (Nat.succ_pos depth)⟩⟩
      exact ⟨_, List.mem_singleton_self _, rfl⟩
    | succ levels =>
      obtain ⟨hstarts, hreads⟩ := around_complete stop (ih levels)
      refine ⟨hstarts, fun h hstops => (hreads h hstops).mono ?_⟩
      exact Or.imp_left Nat.succ_lt_succ

/-- A phrase that makes up the whole source is its tree, or is reported to be nested too deeply. -/
theorem parse_of_derives {source : String} {depth : Nat} {e : Expr Span}
    (h : Derives depth 0 (Lexer.ofText source.toList).tokens e) :
    parse source = ⟨some e, []⟩ ∨
      Overflows (parse source).errors ∧ (maxDepth < depth ∨ maxDepth < e.height) := by
  have hread := (ofLevels_complete (Lexer.ofText source.toList).eof.span maxDepth depth).reads h
    (stops_nil 0)
  rw [List.append_nil] at hread
  rcases hread with hread | ⟨hover, hexcess⟩
  · left
    simp [parse, hread, Parsed.ofOutcome, sized]
  · exact .inr ⟨hover.append_left _, hexcess⟩

/-- What is read without errors is a sentence with its tree. -/
theorem sentence_of_parse {source : String} (h : (parse source).errors = []) :
    ∃ e, (parse source).tree = some e ∧ Sentence (Lexer.ofText source.toList).tokens e := by
  simp only [parse, Parsed.ofOutcome, List.append_eq_nil_iff] at h
  obtain ⟨s, used, hvalue, hsplit, hderives, hmeasured, hheight, -⟩ :=
    ofLevels_sound (Lexer.ofText source.toList).eof.span maxDepth 0 (Nat.zero_le _) _ h.1
  have hrest := h.2
  simp only [hvalue, Option.isSome_some, ↓reduceIte, Option.toList_eq_nil_iff,
    Option.map_eq_none_iff, List.head?_eq_none_iff] at hrest
  rw [hrest, List.append_nil] at hsplit
  refine ⟨s.tree, by simp [parse, Parsed.ofOutcome, hvalue], hsplit ▸ hderives, ?_⟩
  rwa [← hmeasured]

/-- A source is read without errors exactly if its tokens are a sentence, and the trees of the
sentence are then the one tree that is built. -/
theorem parse_reads_exactly_sentences (source : String) :
    ((parse source).errors = [] ↔ ∃ e, Sentence (tokenize source).dropLast e) ∧
      ∀ e, Sentence (tokenize source).dropLast e ↔
        (parse source).errors = [] ∧ (parse source).tree = some e := by
  have htokens : (tokenize source).dropLast = (Lexer.ofText source.toList).tokens := by
    simp [tokenize]
  have hparse (e : Expr Span) (h : Sentence (Lexer.ofText source.toList).tokens e) :
      parse source = ⟨some e, []⟩ :=
    (parse_of_derives h.1).resolve_right fun hover =>
      hover.2.elim (Nat.lt_irrefl _) (Nat.not_lt.mpr h.2)
  rw [htokens]
  refine ⟨⟨fun h => ?_, fun ⟨e, he⟩ => by rw [hparse e he]⟩, fun e => ⟨fun he => ?_, ?_⟩⟩
  · obtain ⟨e, -, he⟩ := sentence_of_parse h
    exact ⟨e, he⟩
  · simp [hparse e he]
  · rintro ⟨herr, htree⟩
    obtain ⟨e', htree', he'⟩ := sentence_of_parse herr
    obtain rfl : e' = e := by simpa [htree'] using htree
    exact he'

end Grammar

end SchemaExpr
