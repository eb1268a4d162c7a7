import SchemaExpr.Proofs.SourceTrees
import SchemaExpr.Proofs.TreeShapes

/-!
# The spans of a phrase

The span of a phrase reaches from its first token to its last one, and the spans of its parts are
those of groups of tokens that follow each other in it. So in tokens that stand one after the other,
the parts of a node lie inside the node, one after the other.
-/
namespace SchemaExpr

structure Ordered (ts : List Token) : Prop where
  forward : ∀ t ∈ ts, t.span.start ≤ t.span.stop
  increasing : ts.Pairwise fun t u => t.span.stop ≤ u.span.start

/-- The span from the first of some tokens to the last. -/
def extent : List Token → Span
  | [] => Span.origin
  | t :: ts => ⟨t.span.start, (ts.getLast?.getD t).span.stop, t.span.pos⟩

namespace Ordered

variable {t : Token} {us vs : List Token}

theorem left (h : Ordered (us ++ vs)) : Ordered us :=
  ⟨fun t ht => h.forward t (List.mem_append_left vs ht), (List.pairwise_append.mp h.increasing).1⟩

theorem right (h : Ordered (us ++ vs)) : Ordered vs :=
  ⟨fun t ht => h.forward t (List.mem_append_right us ht),
    (List.pairwise_append.mp h.increasing).2.1⟩

theorem tail (h : Ordered (t :: vs)) : Ordered vs := @right [t] vs h

theorem le (h : Ordered (us ++ vs)) {u v : Token} (hu : u ∈ us) (hv : v ∈ vs) :
    u.span.stop ≤ v.span.start :=
  (List.pairwise_append.mp h.increasing).2.2 u hu v hv

end Ordered

section Extent

variable {us vs ws : List Token}

theorem extent_append_left (hus : us ≠ []) (vs : List Token) :
    (extent (us ++ vs)).start = (extent us).start ∧ (extent (us ++ vs)).pos = (extent us).pos := by
  cases us with
  | nil => contradiction
  | cons t us => exact ⟨rfl, rfl⟩

theorem extent_concat (us : List Token) (t : Token) : (extent (us ++ [t])).stop = t.span.stop := by
  cases us with
  | nil => rfl
  | cons u us => simp [extent]

theorem extent_append_right (us : List Token) (hvs : vs ≠ []) :
    (extent (us ++ vs)).stop = (extent vs).stop := by
  obtain ⟨vs, t, rfl⟩ := List.eq_nil_or_concat vs |>.resolve_left hvs
  rw [List.concat_eq_append, ← List.append_assoc, extent_concat, extent_concat]

theorem extent_start_mem (hus : us ≠ []) : ∃ t ∈ us, (extent us).start = t.span.start := by
  cases us with
  | nil => contradiction
  | cons t us => exact ⟨t, List.mem_cons_self, rfl⟩

theorem extent_stop_mem (hus : us ≠ []) : ∃ t ∈ us, (extent us).stop = t.span.stop := by
  obtain ⟨us, t, rfl⟩ := List.eq_nil_or_concat us |>.resolve_left hus
  rw [List.concat_eq_append]
  exact ⟨t, by simp, extent_concat us t⟩

theorem Ordered.mem_extent {t : Token} (h : Ordered us) (ht : t ∈ us) :
    (extent us).start ≤ t.span.start ∧ t.span.stop ≤ (extent us).stop := by
  obtain ⟨before, after, rfl⟩ := List.append_of_mem ht
  have hforward := h.forward t ht
  constructor
  · cases before with
    | nil => exact Nat.le_refl _
    | cons u before =>
      have hu := h.forward u (by simp)
      have hle : u.span.stop ≤ t.span.start :=
        @Ordered.le (u :: before) (t :: after) h u t (by simp) (by simp)
      exact Nat.le_trans hu hle
  · rcases List.eq_nil_or_concat after with rfl | ⟨after, u, rfl⟩
    · exact Nat.le_of_eq (extent_concat before t).symm
    · rw [List.concat_eq_append, ← List.cons_append, ← List.append_assoc, extent_concat]
      have hu := h.forward u (by simp)
      have hle : t.span.stop ≤ u.span.start := by
        refine @Ordered.le (before ++ t :: after) [u] ?_ t u (by simp) (by simp)
        simpa using h
      exact Nat.le_trans hle hu

/-- Joining the spans of the two ends gives the span of the whole. -/
theorem Ordered.join_extent (h : Ordered (us ++ (vs ++ ws))) (hus : us ≠ []) (hws : ws ≠ []) :
    (extent us).join (extent ws) = extent (us ++ (vs ++ ws)) := by
  obtain ⟨hstart, hpos⟩ := extent_append_left hus (vs ++ ws)
  have hstop : (extent (us ++ (vs ++ ws))).stop = (extent ws).stop := by
    rw [← List.append_assoc, extent_append_right _ hws]
  have hmax : max (extent ws).stop (extent us).stop = (extent ws).stop := by
    apply Nat.max_eq_left
    rw [← hstop]
    obtain ⟨t, ht, hlast⟩ := extent_stop_mem hus
    rw [hlast]
    exact (h.mem_extent (List.mem_append_left _ ht)).2
  rw [Span.join, hmax, ← hstart, ← hstop, ← hpos]

end Extent

/-- The spans are the extents of groups of tokens that follow each other. -/
inductive Arranged : List Span → List Token → Prop
  | nil : Arranged [] []
  | skip {ss ts} (t) : Arranged ss ts → Arranged ss (t :: ts)
  | take {us ss ts} : us ≠ [] → Arranged ss ts → Arranged (extent us :: ss) (us ++ ts)

namespace Arranged

variable {ss ss' : List Span} {us ts : List Token}

theorem none (ts : List Token) : Arranged [] ts := by
  induction ts with
  | nil => exact .nil
  | cons t ts ih => exact .skip t ih

theorem one (hus : us ≠ []) : Arranged [extent us] us := by
  simpa using Arranged.take hus .nil

theorem append (h : Arranged ss us) (h' : Arranged ss' ts) : Arranged (ss ++ ss') (us ++ ts) := by
  induction h with
  | nil => exact h'
  | skip t _ ih => exact .skip t ih
  | take hus _ ih =>
    rw [List.append_assoc]
    exact .take hus ih

theorem extend (h : Arranged ss us) (ts : List Token) : Arranged ss (us ++ ts) := by
  simpa using h.append (none ts)

/-- Each of the spans starts and stops with a token. -/
theorem bounds (h : Arranged ss ts) : ∀ s ∈ ss,
    (∃ t ∈ ts, s.start = t.span.start) ∧ ∃ t ∈ ts, s.stop = t.span.stop := by
  induction h with
  | nil => simp
  | skip t _ ih =>
    intro s hs
    obtain ⟨⟨u, hu, hstart⟩, v, hv, hstop⟩ := ih s hs
    exact ⟨⟨u, List.mem_cons_of_mem t hu, hstart⟩, v, List.mem_cons_of_mem t hv, hstop⟩
  | @take us ss ts hus _ ih =>
    intro s hs
    rcases List.mem_cons.mp hs with rfl | hs
    · obtain ⟨u, hu, hstart⟩ := extent_start_mem hus
      obtain ⟨v, hv, hstop⟩ := extent_stop_mem hus
      exact ⟨⟨u, List.mem_append_left ts hu, hstart⟩, v, List.mem_append_left ts hv, hstop⟩
    · obtain ⟨⟨u, hu, hstart⟩, v, hv, hstop⟩ := ih s hs
      exact ⟨⟨u, List.mem_append_right us hu, hstart⟩, v, List.mem_append_right us hv, hstop⟩

theorem pairwise (h : Arranged ss ts) (hts : Ordered ts) :
    ss.Pairwise fun s s' => s.stop ≤ s'.start := by
  induction h with
  | nil => exact .nil
  | skip t _ ih => exact ih hts.tail
  | @take us ss ts hus h ih =>
    apply List.Pairwise.cons
    · intro s hs
      obtain ⟨t, ht, hstop⟩ := extent_stop_mem hus
      obtain ⟨⟨u, hu, hstart⟩, -⟩ := h.bounds s hs
      rw [hstop, hstart]
      exact hts.le ht hu
    · exact ih hts.right

end Arranged

namespace Expr

/-- The annotations of the direct subtrees and of a name after them, in the order of the source. -/
def parts {ι : Type} : Expr ι → List ι
  | attr _ object _ nameLoc => [object.loc, nameLoc]
  | cast _ operand _ typeLoc => [operand.loc, typeLoc]
  | e => e.children.map loc

/-- The parts of the node lie inside it, one after the other. -/
structure Nests (e : Expr Span) : Prop where
  inside : ∀ s ∈ e.parts, e.loc.start ≤ s.start ∧ s.stop ≤ e.loc.stop
  increasing : e.parts.Pairwise fun s t => s.stop ≤ t.start

theorem parts_withLoc {ι : Type} (l : ι) (e : Expr ι) : (e.withLoc l).parts = e.parts := by
  cases e <;> rfl

end Expr

namespace Grammar

open Expr

structure Laid (ts : List Token) (e : Expr Span) : Prop where
  ne_nil : ts ≠ []
  loc_eq : e.loc = extent ts
  parts : Arranged e.parts ts
  below : ∀ x ∈ e.children, x.Every Nests

theorem Laid.every {ts : List Token} {e : Expr Span} (h : Laid ts e) (hts : Ordered ts) :
    e.Every Nests := by
  refine .node ⟨fun s hs => ?_, h.parts.pairwise hts⟩ h.below
  obtain ⟨⟨t, ht, hstart⟩, u, hu, hstop⟩ := h.parts.bounds s hs
  rw [h.loc_eq, hstart, hstop]
  exact ⟨(hts.mem_extent ht).1, (hts.mem_extent hu).2⟩

def LaidOut (g : Language) : Prop :=
  ∀ {k : Nat} {ts : List Token} {e : Expr Span}, g k ts e → Ordered ts → Laid ts e

variable {g : Language}

theorem leaf_node {t : Token} {e : Expr Span} (h : leaf? t = some e) :
    e.loc = t.span ∧ e.children = [] ∧ e.parts = [] := by
  unfold leaf? at h
  split at h
  · split at h <;> cases h <;> exact ⟨rfl, rfl, rfl⟩
  all_goals cases h <;> exact ⟨rfl, rfl, rfl⟩

theorem laid_of_leaf {t : Token} {e : Expr Span} (h : leaf? t = some e) : Laid [t] e := by
  obtain ⟨hloc, hchildren, hparts⟩ := leaf_node h
  constructor
  · exact List.cons_ne_nil t []
  · exact hloc
  · rw [hparts]
    exact .none [t]
  · simp [hchildren]

theorem Items.laid (hg : LaidOut g) {ts : List Token} {es : List (Expr Span)}
    (h : Items (g 0) ts es) (hts : Ordered ts) :
    Arranged (es.map loc) ts ∧ ∀ e ∈ es, e.Every Nests := by
  induction h with
  | nil => exact ⟨.nil, by simp⟩
  | @last ts e h =>
    have he := hg h hts
    constructor
    · simpa [he.loc_eq] using Arranged.one he.ne_nil
    · simpa using he.every hts
  | @cons ts comma rest e es h _ _ ih =>
    have he := hg h hts.left
    obtain ⟨harranged, hevery⟩ := ih hts.right.tail
    constructor
    · rw [List.map_cons, he.loc_eq]
      exact .take he.ne_nil (.skip comma harranged)
    · exact List.forall_mem_cons.mpr ⟨he.every hts.left, hevery⟩

theorem Primary.laid (hg : LaidOut g) {ts : List Token} {e : Expr Span} (h : Primary g ts e)
    (hts : Ordered ts) : Laid ts e := by
  cases h with
  | leaf h => exact laid_of_leaf h
  | @group opening ts closing e _ h _ =>
    have he := hg h hts.tail.left
    constructor
    · simp
    · rw [loc_withLoc]
      exact @Ordered.join_extent [opening] ts [closing] hts (by simp) (by simp)
    · rw [parts_withLoc]
      exact .skip opening (he.parts.extend [closing])
    · rw [children_withLoc]
      exact he.below
  | @array opening ts closing es _ h _ =>
    obtain ⟨harranged, hevery⟩ := h.laid hg hts.tail.left
    constructor
    · simp
    · exact @Ordered.join_extent [opening] ts [closing] hts (by simp) (by simp)
    · exact .skip opening (harranged.extend [closing])
    · exact hevery
  | @sizeof word opening ts closing e _ _ h _ =>
    have he := hg h hts.tail.tail.left
    constructor
    · simp
    · exact @Ordered.join_extent [word] (opening :: ts) [closing] hts (by simp) (by simp)
    · change Arranged [e.loc] _
      rw [he.loc_eq]
      exact .skip word (.skip opening ((Arranged.one he.ne_nil).extend [closing]))
    · simpa [children] using he.every hts.tail.tail.left
  | @alignof word opening ts closing e _ _ h _ =>
    have he := hg h hts.tail.tail.left
    constructor
    · simp
    · exact @Ordered.join_extent [word] (opening :: ts) [closing] hts (by simp) (by simp)
    · change Arranged [e.loc] _
      rw [he.loc_eq]
      exact .skip word (.skip opening ((Arranged.one he.ne_nil).extend [closing]))
    · simpa [children] using he.every hts.tail.tail.left

theorem Chain.laid (hg : LaidOut g) {ts : List Token} {e : Expr Span} (h : Chain g ts e)
    (hts : Ordered ts) : Laid ts e := by
  induction h with
  | primary h => exact h.laid hg hts
  | @member ts e dot name _ _ _ ih =>
    have he := ih hts.left
    constructor
    · simp
    · rw [Expr.loc, he.loc_eq]
      exact @Ordered.join_extent ts [dot] [name] hts he.ne_nil (by simp)
    · rw [Expr.parts, he.loc_eq]
      exact .take he.ne_nil (.skip dot (.one (List.cons_ne_nil name [])))
    · simpa [children] using he.every hts.left
  | @cast ts e dot word less type greater opening closing _ _ _ _ _ _ _ _ ih =>
    have he := ih hts.left
    constructor
    · simp
    · rw [Expr.loc, he.loc_eq]
      exact @Ordered.join_extent ts [dot, word, less, type, greater, opening] [closing] hts
        he.ne_nil (by simp)
    · rw [Expr.parts, he.loc_eq]
      refine .take he.ne_nil (.skip dot (.skip word (.skip less ?_)))
      exact .take (List.cons_ne_nil type []) (.none [greater, opening, closing])
    · simpa [children] using he.every hts.left
  | @call ts e opening us args closing _ _ _ hargs _ ih =>
    have he := ih hts.left
    obtain ⟨harranged, hevery⟩ := hargs.laid hg hts.right.tail.left
    constructor
    · simp
    · rw [Expr.loc, he.loc_eq]
      exact @Ordered.join_extent ts (opening :: us) [closing] hts he.ne_nil (by simp)
    · change Arranged (e.loc :: args.map loc) _
      rw [he.loc_eq]
      exact .take he.ne_nil (.skip opening (harranged.extend [closing]))
    · exact List.forall_mem_cons.mpr ⟨he.every hts.left, hevery⟩
  | @index ts e opening us place closing _ _ h _ ih =>
    have he := ih hts.left
    have hplace := hg h hts.right.tail.left
    constructor
    · simp
    · rw [Expr.loc, he.loc_eq]
      exact @Ordered.join_extent ts (opening :: us) [closing] hts he.ne_nil (by simp)
    · change Arranged [e.loc, place.loc] _
      rw [he.loc_eq, hplace.loc_eq]
      exact .take he.ne_nil (.skip opening ((Arranged.one hplace.ne_nil).extend [closing]))
    · simpa [children] using ⟨he.every hts.left, hplace.every hts.right.tail.left⟩

theorem Phrase.laid (hg : LaidOut g) : LaidOut (Phrase g) := by
  intro k ts e h hts
  induction h with
  | chain h => exact h.laid hg hts
  | @unary op sign ts e _ h =>
    have he := hg h hts.tail
    constructor
    · simp
    · rw [Expr.loc, he.loc_eq]
      exact @Ordered.join_extent [sign] [] ts hts (by simp) he.ne_nil
    · change Arranged [e.loc] _
      rw [he.loc_eq]
      exact .skip sign (.one he.ne_nil)
    · simpa [children] using he.every hts.tail
  | tighter _ _ ih => exact ih hts
  | @binary k op symbol ls lhs rs rhs _ _ h ih =>
    have hlhs := ih hts.left
    have hrhs := hg h hts.right.tail
    constructor
    · simp
    · rw [Expr.loc, hlhs.loc_eq, hrhs.loc_eq]
      exact @Ordered.join_extent ls [symbol] rs hts hlhs.ne_nil hrhs.ne_nil
    · change Arranged [lhs.loc, rhs.loc] _
      rw [hlhs.loc_eq, hrhs.loc_eq]
      exact .take hlhs.ne_nil (.skip symbol (.one hrhs.ne_nil))
    · simpa [children] using ⟨hlhs.every hts.left, hrhs.every hts.right.tail⟩
  | @ternary question colon cs condition ys yes ns no _ _ hyes _ hno ih =>
    have hcondition := ih hts.left
    have hyes := hg hyes hts.right.tail.left
    have hno := hg hno hts.right.tail.right.tail
    constructor
    · simp
    · rw [Expr.loc, hcondition.loc_eq, hno.loc_eq]
      have hsplit : question :: (ys ++ colon :: ns) = (question :: (ys ++ [colon])) ++ ns := by simp
      rw [hsplit] at hts ⊢
      exact hts.join_extent hcondition.ne_nil hno.ne_nil
    · change Arranged [condition.loc, yes.loc, no.loc] _
      rw [hcondition.loc_eq, hyes.loc_eq, hno.loc_eq]
      refine .take hcondition.ne_nil (.skip question ?_)
      exact .take hyes.ne_nil (.skip colon (.one hno.ne_nil))
    · simpa [children] using ⟨hcondition.every hts.left, hyes.every hts.right.tail.left,
        hno.every hts.right.tail.right.tail⟩

/-- The span of a phrase is that of its tokens, and so are the spans of its parts. -/
theorem Derives.laid (levels : Nat) : LaidOut (Derives levels) := by
  induction levels with
  | zero => exact fun h => h.elim
  | succ levels ih => exact Phrase.laid ih

end Grammar

end SchemaExpr
