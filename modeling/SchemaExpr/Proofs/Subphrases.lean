import SchemaExpr.Proofs.PhraseSpans

/-!
# The phrases inside a phrase

Every node of the tree of a phrase is the tree of a phrase of its own, whose tokens stand together
in the tokens of the whole. Parentheses around them leave the shape of the whole tree as it is, and
take at most one more level of nesting.
-/
namespace SchemaExpr

namespace Expr

theorem every_height_le {ι : Type} (e : Expr ι) : e.Every fun n => n.height ≤ e.height := by
  induction e using induction_children with
  | step e ih =>
    refine .node (Nat.le_refl _) fun x hx => (ih x hx).mono fun n hn => ?_
    exact Nat.le_trans hn (Nat.le_of_lt (height_lt_of_child hx))

end Expr

namespace Grammar

open Expr

variable {g g' : Language}

section Growth

theorem Items.mono (hsub : ∀ {ts e}, g 0 ts e → g' 0 ts e) {ts : List Token}
    {es : List (Expr Span)} (h : Items (g 0) ts es) : Items (g' 0) ts es := by
  induction h with
  | nil => exact .nil
  | last h => exact .last (hsub h)
  | cons h hcomma _ ih => exact .cons (hsub h) hcomma ih

variable (hsub : ∀ {k ts e}, g k ts e → g' k ts e)
include hsub

theorem Primary.mono {ts : List Token} {e : Expr Span} (h : Primary g ts e) : Primary g' ts e := by
  cases h with
  | leaf h => exact .leaf h
  | group hopen h hclose => exact .group hopen (hsub h) hclose
  | array hopen h hclose => exact .array hopen (h.mono hsub) hclose
  | sizeof hword hopen h hclose => exact .sizeof hword hopen (hsub h) hclose
  | alignof hword hopen h hclose => exact .alignof hword hopen (hsub h) hclose

theorem Chain.mono {ts : List Token} {e : Expr Span} (h : Chain g ts e) : Chain g' ts e := by
  induction h with
  | primary h => exact .primary (h.mono hsub)
  | member _ hdot hname ih => exact .member ih hdot hname
  | cast _ hdot hword hless htype hgreater hopen hclose ih =>
    exact .cast ih hdot hword hless htype hgreater hopen hclose
  | call _ hcallable hopen hargs hclose ih =>
    exact .call ih hcallable hopen (hargs.mono hsub) hclose
  | index _ hopen hplace hclose ih => exact .index ih hopen (hsub hplace) hclose

theorem Phrase.mono {k : Nat} {ts : List Token} {e : Expr Span} (h : Phrase g k ts e) :
    Phrase g' k ts e := by
  induction h with
  | chain h => exact .chain (h.mono hsub)
  | unary hsign h => exact .unary hsign (hsub h)
  | tighter hk _ ih => exact .tighter hk ih
  | binary hop _ hrhs ih => exact .binary hop ih (hsub hrhs)
  | ternary _ hquestion hyes hcolon hno ih =>
    exact .ternary ih hquestion (hsub hyes) hcolon (hsub hno)

end Growth

/-- The node `n` has tokens of its own among `ts`, and the tokens with parentheses around those are
as `wrapped` says. -/
def Located (own : List Token → Expr Span → Prop) (wrapped : List Token → Prop) (ts : List Token)
    (n : Expr Span) : Prop :=
  ∃ before mid after, ts = before ++ (mid ++ after) ∧ own mid n ∧
    ∀ opening closing : Token, opening.kind = .lparen → closing.kind = .rparen →
      wrapped (before ++ opening :: (mid ++ closing :: after))

def Reshapes (read : List Token → Expr Span → Prop) (e : Expr Span) (ts : List Token) : Prop :=
  ∃ e', read ts e' ∧ e'.bare = e.bare

def ReshapesAll (read : List Token → Expr Span → Prop) (es : List (Expr Span))
    (ts : List Token) : Prop :=
  ∃ es', Items read ts es' ∧ es'.map bare = es.map bare

section Located

variable {own own' : List Token → Expr Span → Prop} {wrapped wrapped' : List Token → Prop}
  {us : List Token} {n : Expr Span}

theorem Located.imp (h : Located own wrapped us n) (himp : ∀ vs, wrapped vs → wrapped' vs) :
    Located own wrapped' us n := by
  obtain ⟨before, mid, after, hsplit, hmid, hwrap⟩ := h
  refine ⟨before, mid, after, hsplit, hmid, ?_⟩
  intro opening closing hopen hclose
  exact himp _ (hwrap opening closing hopen hclose)

theorem Located.inside {ts : List Token} (h : Located own wrapped us n)
    (hown : ∀ {ts e}, own ts e → own' ts e) (before after : List Token)
    (hts : ts = before ++ (us ++ after))
    (hwrapped : ∀ vs, wrapped vs → wrapped' (before ++ (vs ++ after))) :
    Located own' wrapped' ts n := by
  obtain ⟨before', mid, after', rfl, hmid, hwrap⟩ := h
  refine ⟨before ++ before', mid, after' ++ after, by simp [hts], hown hmid, ?_⟩
  intro opening closing hopen hclose
  simpa using hwrapped _ (hwrap opening closing hopen hclose)

end Located

/-- A phrase in parentheses is a primary. -/
theorem located_root {ts : List Token} {e : Expr Span} (h : Phrase g 0 ts e) :
    Located (Phrase g 0) (Reshapes (Primary (Phrase g)) e) ts e := by
  refine ⟨[], ts, [], by simp, h, ?_⟩
  intro opening closing hopen hclose
  exact ⟨_, .group hopen h hclose, bare_withLoc _ _⟩

/-- One more level of nesting is room for parentheses around any node. -/
structure Roomy (g : Language) : Prop where
  grow : ∀ {k ts e}, g k ts e → Phrase g k ts e
  locate : ∀ {k ts e}, g k ts e → e.Every (Located (g 0) (Reshapes (Phrase g k) e) ts)

theorem Items.locate (hg : Roomy g) {ts : List Token} {es : List (Expr Span)}
    (h : Items (g 0) ts es) :
    ∀ x ∈ es, x.Every (Located (Phrase g 0) (ReshapesAll (Phrase g 0) es) ts) := by
  induction h with
  | nil => simp
  | @last ts e h =>
    intro x hx
    obtain rfl := List.mem_singleton.mp hx
    apply (hg.locate h).mono
    intro n hn
    apply hn.inside hg.grow [] [] (by simp)
    rintro vs ⟨e', he', hbare⟩
    exact ⟨[e'], by simpa using Items.last he', by simp [hbare]⟩
  | @cons ts comma rest e es h hcomma hes ih =>
    intro x hx
    rcases List.mem_cons.mp hx with rfl | hx
    · apply (hg.locate h).mono
      intro n hn
      apply hn.inside hg.grow [] (comma :: rest) rfl
      rintro vs ⟨e', he', hbare⟩
      exact ⟨e' :: es, .cons he' hcomma (hes.mono hg.grow), by simp [hbare]⟩
    · apply (ih x hx).mono
      intro n hn
      apply hn.inside id (ts ++ [comma]) [] (by simp)
      rintro vs ⟨es', hes', hbare⟩
      exact ⟨e :: es', by simpa using Items.cons (hg.grow h) hcomma hes', by simp [hbare]⟩

theorem Primary.locate (hg : Roomy g) {ts : List Token} {e : Expr Span} (h : Primary g ts e) :
    ∀ x ∈ e.children, x.Every (Located (Phrase g 0) (Reshapes (Primary (Phrase g)) e) ts) := by
  cases h with
  | leaf h => simp [(leaf_node h).2.1]
  | @group opening ts closing e hopen h hclose =>
    -- The root of the content is the node of the group itself, so only what is below it is inside.
    intro x hx
    rw [children_withLoc] at hx
    apply ((hg.locate h).of_child x hx).mono
    intro n hn
    apply hn.inside hg.grow [opening] [closing] rfl
    rintro vs ⟨e', he', hbare⟩
    exact ⟨_, .group hopen he' hclose, by rw [bare_withLoc, bare_withLoc, hbare]⟩
  | @array opening ts closing es hopen h hclose =>
    intro x hx
    apply (h.locate hg x hx).mono
    intro n hn
    apply hn.inside id [opening] [closing] rfl
    rintro vs ⟨es', hes', hbare⟩
    exact ⟨_, .array hopen hes' hclose, by rw [bare_array, bare_array, hbare]⟩
  | @sizeof word opening ts closing e hword hopen h hclose =>
    intro x hx
    obtain rfl := List.mem_singleton.mp hx
    apply (hg.locate h).mono
    intro n hn
    apply hn.inside hg.grow [word, opening] [closing] rfl
    rintro vs ⟨e', he', hbare⟩
    exact ⟨_, .sizeof hword hopen he' hclose, congrArg (Expr.sizeof ()) hbare⟩
  | @alignof word opening ts closing e hword hopen h hclose =>
    intro x hx
    obtain rfl := List.mem_singleton.mp hx
    apply (hg.locate h).mono
    intro n hn
    apply hn.inside hg.grow [word, opening] [closing] rfl
    rintro vs ⟨e', he', hbare⟩
    exact ⟨_, .alignof hword hopen he' hclose, congrArg (Expr.alignof ()) hbare⟩

theorem Chain.phrase {k : Nat} (hk : k ≤ operandFloor) {ts : List Token} {e : Expr Span}
    (h : Chain g ts e) : Phrase g k ts e :=
  (Phrase.chain h).of_le hk (Nat.le_refl _)

/-- The object of a chain is located like all nodes below it. -/
theorem Chain.every {ts : List Token} {e : Expr Span} (h : Chain g ts e)
    (hbelow : ∀ x ∈ e.children,
      x.Every (Located (Phrase g 0) (Reshapes (Chain (Phrase g)) e) ts)) :
    e.Every (Located (Phrase g 0) (Reshapes (Chain (Phrase g)) e) ts) := by
  refine .node ((located_root (h.phrase (Nat.zero_le _))).imp ?_) hbelow
  rintro vs ⟨e', he', hbare⟩
  exact ⟨e', .primary he', hbare⟩

theorem Chain.locate (hg : Roomy g) {ts : List Token} {e : Expr Span} (h : Chain g ts e) :
    ∀ x ∈ e.children, x.Every (Located (Phrase g 0) (Reshapes (Chain (Phrase g)) e) ts) := by
  induction h with
  | primary h =>
    intro x hx
    apply (h.locate hg x hx).mono
    intro n hn
    apply hn.imp
    rintro vs ⟨e', he', hbare⟩
    exact ⟨e', .primary he', hbare⟩
  | @member ts e dot name h hdot hname ih =>
    intro x hx
    obtain rfl := List.mem_singleton.mp hx
    apply (h.every ih).mono
    intro n hn
    apply hn.inside id [] [dot, name] rfl
    rintro vs ⟨e', he', hbare⟩
    exact ⟨_, .member he' hdot hname, congrArg (Expr.attr () · name.literal ()) hbare⟩
  | @cast ts e dot word less type greater opening closing h hdot hword hless htype hgreater hopen
      hclose ih =>
    intro x hx
    obtain rfl := List.mem_singleton.mp hx
    apply (h.every ih).mono
    intro n hn
    apply hn.inside id [] [dot, word, less, type, greater, opening, closing] rfl
    rintro vs ⟨e', he', hbare⟩
    exact ⟨_, .cast he' hdot hword hless htype hgreater hopen hclose,
      congrArg (Expr.cast () · type.literal ()) hbare⟩
  | @call ts e opening us args closing h hcallable hopen hargs hclose ih =>
    intro x hx
    rcases List.mem_cons.mp hx with rfl | hx
    · apply (h.every ih).mono
      intro n hn
      apply hn.inside id [] (opening :: (us ++ [closing])) rfl
      rintro vs ⟨e', he', hbare⟩
      have hcallable' : e'.isCallable = true := by
        rw [← isCallable_bare, hbare, isCallable_bare, hcallable]
      exact ⟨_, .call he' hcallable' hopen (hargs.mono hg.grow) hclose,
        by rw [bare_call, bare_call, hbare]⟩
    · apply (hargs.locate hg x hx).mono
      intro n hn
      apply hn.inside id (ts ++ [opening]) [closing] (by simp)
      rintro vs ⟨args', hargs', hbare⟩
      rw [List.append_assoc]
      exact ⟨_, .call (h.mono hg.grow) hcallable hopen hargs' hclose,
        by rw [bare_call, bare_call, hbare]⟩
  | @index ts e opening us place closing h hopen hplace hclose ih =>
    intro x hx
    have hx : x = e ∨ x = place := by simpa [children] using hx
    rcases hx with rfl | rfl
    · apply (h.every ih).mono
      intro n hn
      apply hn.inside id [] (opening :: (us ++ [closing])) rfl
      rintro vs ⟨e', he', hbare⟩
      exact ⟨_, .index he' hopen (hg.grow hplace) hclose,
        congrArg (Expr.index () · place.bare) hbare⟩
    · apply (hg.locate hplace).mono
      intro n hn
      apply hn.inside hg.grow (ts ++ [opening]) [closing] (by simp)
      rintro vs ⟨e', he', hbare⟩
      rw [List.append_assoc]
      exact ⟨_, .index (h.mono hg.grow) hopen he' hclose, congrArg (Expr.index () e.bare) hbare⟩

theorem Phrase.every {k : Nat} {ts : List Token} {e : Expr Span} (h : Phrase g k ts e)
    (hbelow : ∀ x ∈ e.children,
      x.Every (Located (Phrase g 0) (Reshapes (Phrase (Phrase g) k) e) ts)) :
    e.Every (Located (Phrase g 0) (Reshapes (Phrase (Phrase g) k) e) ts) := by
  refine .node ((located_root (h.of_le (Nat.zero_le k) h.stratum_le)).imp ?_) hbelow
  rintro vs ⟨e', he', hbare⟩
  exact ⟨e', (Chain.primary he').phrase h.stratum_le, hbare⟩

theorem Phrase.locate (hg : Roomy g) {k : Nat} {ts : List Token} {e : Expr Span}
    (h : Phrase g k ts e) : ∀ x ∈ e.children,
      x.Every (Located (Phrase g 0) (Reshapes (Phrase (Phrase g) k) e) ts) := by
  induction h with
  | chain h =>
    intro x hx
    apply (h.locate hg x hx).mono
    intro n hn
    apply hn.imp
    rintro vs ⟨e', he', hbare⟩
    exact ⟨e', .chain he', hbare⟩
  | @unary op sign ts e hsign h =>
    intro x hx
    obtain rfl := List.mem_singleton.mp hx
    apply (hg.locate h).mono
    intro n hn
    apply hn.inside hg.grow [sign] [] (by simp)
    rintro vs ⟨e', he', hbare⟩
    rw [List.append_nil]
    exact ⟨_, .unary hsign he', congrArg (Expr.unary () op) hbare⟩
  | tighter hk h ih =>
    intro x hx
    apply (ih x hx).mono
    intro n hn
    apply hn.imp
    rintro vs ⟨e', he', hbare⟩
    exact ⟨e', .tighter hk he', hbare⟩
  | @binary k op symbol ls lhs rs rhs hop h hrhs ih =>
    intro x hx
    have hx : x = lhs ∨ x = rhs := by simpa [children] using hx
    rcases hx with rfl | rfl
    · apply (h.every ih).mono
      intro n hn
      apply hn.inside id [] (symbol :: rs) rfl
      rintro vs ⟨e', he', hbare⟩
      exact ⟨_, .binary hop he' (hg.grow hrhs), congrArg (Expr.binary () op · rhs.bare) hbare⟩
    · apply (hg.locate hrhs).mono
      intro n hn
      apply hn.inside hg.grow (ls ++ [symbol]) [] (by simp)
      rintro vs ⟨e', he', hbare⟩
      rw [List.append_nil, List.append_assoc]
      exact ⟨_, .binary hop (h.mono hg.grow) he', congrArg (Expr.binary () op lhs.bare) hbare⟩
  | @ternary question colon cs condition ys yes ns no h hquestion hyes hcolon hno ih =>
    intro x hx
    have hx : x = condition ∨ x = yes ∨ x = no := by simpa [children] using hx
    rcases hx with rfl | rfl | rfl
    · apply (h.every ih).mono
      intro n hn
      apply hn.inside id [] (question :: (ys ++ colon :: ns)) rfl
      rintro vs ⟨e', he', hbare⟩
      exact ⟨_, .ternary he' hquestion (hg.grow hyes) hcolon (hg.grow hno),
        congrArg (Expr.ternary () · yes.bare no.bare) hbare⟩
    · apply (hg.locate hyes).mono
      intro n hn
      apply hn.inside hg.grow (cs ++ [question]) (colon :: ns) (by simp)
      rintro vs ⟨e', he', hbare⟩
      rw [List.append_assoc]
      exact ⟨_, .ternary (h.mono hg.grow) hquestion he' hcolon (hg.grow hno),
        congrArg (Expr.ternary () condition.bare · no.bare) hbare⟩
    · apply (hg.locate hno).mono
      intro n hn
      apply hn.inside hg.grow (cs ++ question :: (ys ++ [colon])) [] (by simp)
      rintro vs ⟨e', he', hbare⟩
      rw [List.append_nil, List.append_assoc, List.cons_append, List.append_assoc]
      exact ⟨_, .ternary (h.mono hg.grow) hquestion (hg.grow hyes) hcolon he',
        congrArg (Expr.ternary () condition.bare yes.bare) hbare⟩

theorem Derives.ne_nil {levels k : Nat} {ts : List Token} {e : Expr Span}
    (h : Derives levels k ts e) : ts ≠ [] := by
  obtain ⟨t, tail, rfl, -⟩ := (ofLevels_complete Span.origin 0 levels).starts h
  exact List.cons_ne_nil t tail

/-- Every node of a phrase is a phrase that nests no deeper, and parentheses around it take one more
level. -/
theorem Derives.roomy (levels : Nat) : Roomy (Derives levels) := by
  induction levels with
  | zero => exact ⟨False.elim, False.elim⟩
  | succ levels ih =>
    constructor
    · intro k ts e h
      exact Phrase.mono ih.grow h
    · intro k ts e h
      exact Phrase.every h (Phrase.locate ih h)

end Grammar

end SchemaExpr
