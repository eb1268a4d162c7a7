import Mathlib.Data.List.Forall2
import SchemaExpr.Expr.Walk

/-!
# Shapes and annotations of trees

A tree is its shape together with the list of its annotations. So two trees with different
annotations are compared in two parts: they have the same shape, and their annotations are related
one by one.
-/
namespace SchemaExpr.Expr

variable {ι κ : Type}

theorem induction_children {motive : Expr ι → Prop}
    (step : ∀ e, (∀ x ∈ e.children, motive x) → motive e) (e : Expr ι) : motive e :=
  step e fun x _ => induction_children step x
termination_by sizeOf e
decreasing_by exact sizeOf_lt_of_mem_children ‹_›

section Bare

theorem mapList_eq_map (f : ι → κ) (es : List (Expr ι)) :
    map.mapList f es = es.map (map f) := by
  induction es with
  | nil => rfl
  | cons e es ih => simp [map.mapList, ih]

theorem bare_withLoc (l : ι) (e : Expr ι) : (e.withLoc l).bare = e.bare := by
  cases e <;> rfl

theorem bare_call (l : ι) (callee : Expr ι) (es : List (Expr ι)) :
    (call l callee es).bare = call () callee.bare (es.map bare) := by
  simp [bare, map, mapList_eq_map]

theorem bare_array (l : ι) (es : List (Expr ι)) :
    (array l es).bare = array () (es.map bare) := by
  simp [bare, map, mapList_eq_map]

theorem isCallable_bare (e : Expr ι) : e.bare.isCallable = e.isCallable := by
  cases e <;> rfl

theorem height_le_heightList {es : List (Expr ι)} {e : Expr ι} (h : e ∈ es) :
    e.height ≤ height.heightList es := by
  induction es with
  | nil => cases h
  | cons x es ih =>
    rw [height.heightList]
    rcases List.mem_cons.mp h with rfl | h
    · exact Nat.le_max_left ..
    · exact Nat.le_trans (ih h) (Nat.le_max_right ..)

theorem height_lt_of_child {e x : Expr ι} (h : x ∈ e.children) : x.height < e.height := by
  cases e with
  | call l callee args =>
    rw [height]
    rcases List.mem_cons.mp h with rfl | h
    · omega
    · have hle := height_le_heightList h
      omega
  | array l elements =>
    have hle : x.height ≤ height.heightList elements := height_le_heightList h
    rw [height]
    omega
  | binary l op lhs rhs =>
    have hx : x = lhs ∨ x = rhs := by simpa [children] using h
    rw [height]
    rcases hx with rfl | rfl <;> omega
  | ternary l condition yes no =>
    have hx : x = condition ∨ x = yes ∨ x = no := by simpa [children] using h
    rw [height]
    rcases hx with rfl | rfl | rfl <;> omega
  | index l object place =>
    have hx : x = object ∨ x = place := by simpa [children] using h
    rw [height]
    rcases hx with rfl | rfl <;> omega
  | _ => simp_all [children, height]

theorem heightList_map {es : List (Expr ι)} (h : ∀ e ∈ es, e.bare.height = e.height) :
    height.heightList (es.map bare) = height.heightList es := by
  induction es with
  | nil => rfl
  | cons e es ih =>
    rw [List.map_cons, height.heightList, height.heightList, h e (by simp),
      ih fun x hx => h x (by simp [hx])]

theorem height_bare (e : Expr ι) : e.bare.height = e.height := by
  induction e using induction_children with
  | step e ih =>
  cases e with
  | call l callee args =>
    rw [bare_call, height, height, ih callee List.mem_cons_self,
      heightList_map fun x hx => ih x (List.mem_cons_of_mem _ hx)]
  | array l elements =>
    have helements : ∀ x ∈ elements, x.bare.height = x.height := ih
    rw [bare_array, height, height, heightList_map helements]
  | _ => simp_all [bare, map, height, children]

end Bare

/-- All annotations of a tree: those of its nodes, member names and type names. -/
def locs : Expr ι → List ι
  | bool l _ | int l _ | float l _ | text l _ | null l | ident l _ | special l _ => [l]
  | unary l _ operand | sizeof l operand | alignof l operand => l :: operand.locs
  | binary l _ lhs rhs => l :: (lhs.locs ++ rhs.locs)
  | ternary l condition yes no => l :: (condition.locs ++ (yes.locs ++ no.locs))
  | attr l object _ nameLoc => l :: (object.locs ++ [nameLoc])
  | call l callee args => l :: (callee.locs ++ locsList args)
  | index l object place => l :: (object.locs ++ place.locs)
  | array l elements => l :: locsList elements
  | cast l operand _ typeLoc => l :: (operand.locs ++ [typeLoc])
where
  /-- All annotations of some trees. -/
  locsList : List (Expr ι) → List ι
    | [] => []
    | e :: es => e.locs ++ locsList es

theorem locs_eq_cons (e : Expr ι) : ∃ below, ∀ l, (e.withLoc l).locs = l :: below := by
  cases e <;> exact ⟨_, fun l => rfl⟩

theorem withLoc_loc (e : Expr ι) : e.withLoc e.loc = e := by cases e <;> rfl

/-- The trees have one shape, and their annotations are related by `R`. -/
structure Alike (R : ι → κ → Prop) (e : Expr ι) (e' : Expr κ) : Prop where
  shape : e.bare = e'.bare
  marks : List.Forall₂ R e.locs e'.locs

namespace Alike

variable {R : ι → κ → Prop} {l m : ι} {l' m' : κ} {a b c : Expr ι} {a' b' c' : Expr κ}

theorem loc (h : Alike R a a') : R a.loc a'.loc := by
  obtain ⟨below, hbelow⟩ := a.locs_eq_cons
  obtain ⟨below', hbelow'⟩ := a'.locs_eq_cons
  have hmarks := h.marks
  rw [← a.withLoc_loc, ← a'.withLoc_loc, hbelow, hbelow'] at hmarks
  exact (List.forall₂_cons.mp hmarks).1

theorem isCallable_eq (h : Alike R a a') : a.isCallable = a'.isCallable := by
  rw [← isCallable_bare, h.shape, isCallable_bare]

theorem withLoc (hl : R l l') (h : Alike R a a') : Alike R (a.withLoc l) (a'.withLoc l') := by
  obtain ⟨below, hbelow⟩ := a.locs_eq_cons
  obtain ⟨below', hbelow'⟩ := a'.locs_eq_cons
  have hmarks := h.marks
  rw [← a.withLoc_loc, ← a'.withLoc_loc, hbelow, hbelow'] at hmarks
  constructor
  · rw [bare_withLoc, bare_withLoc, h.shape]
  · rw [hbelow, hbelow']
    exact .cons hl (List.forall₂_cons.mp hmarks).2

theorem unary (hl : R l l') (op : UnaryOp) (ha : Alike R a a') :
    Alike R (.unary l op a) (.unary l' op a') :=
  ⟨congrArg (Expr.unary () op) ha.shape, .cons hl ha.marks⟩

theorem sizeof (hl : R l l') (ha : Alike R a a') : Alike R (.sizeof l a) (.sizeof l' a') :=
  ⟨congrArg (Expr.sizeof ()) ha.shape, .cons hl ha.marks⟩

theorem alignof (hl : R l l') (ha : Alike R a a') : Alike R (.alignof l a) (.alignof l' a') :=
  ⟨congrArg (Expr.alignof ()) ha.shape, .cons hl ha.marks⟩

theorem binary (hl : R l l') (op : BinaryOp) (ha : Alike R a a') (hb : Alike R b b') :
    Alike R (.binary l op a b) (.binary l' op a' b') :=
  ⟨congrArg₂ (Expr.binary () op) ha.shape hb.shape, .cons hl (List.rel_append ha.marks hb.marks)⟩

theorem index (hl : R l l') (ha : Alike R a a') (hb : Alike R b b') :
    Alike R (.index l a b) (.index l' a' b') :=
  ⟨congrArg₂ (Expr.index ()) ha.shape hb.shape, .cons hl (List.rel_append ha.marks hb.marks)⟩

theorem ternary (hl : R l l') (ha : Alike R a a') (hb : Alike R b b') (hc : Alike R c c') :
    Alike R (.ternary l a b c) (.ternary l' a' b' c') := by
  constructor
  · change Expr.ternary () a.bare b.bare c.bare = .ternary () a'.bare b'.bare c'.bare
    rw [ha.shape, hb.shape, hc.shape]
  · exact .cons hl (List.rel_append ha.marks (List.rel_append hb.marks hc.marks))

theorem attr (hl : R l l') (ha : Alike R a a') (name : String) (hm : R m m') :
    Alike R (.attr l a name m) (.attr l' a' name m') :=
  ⟨congrArg (Expr.attr () · name ()) ha.shape,
    .cons hl (List.rel_append ha.marks (.cons hm .nil))⟩

theorem cast (hl : R l l') (ha : Alike R a a') (type : String) (hm : R m m') :
    Alike R (.cast l a type m) (.cast l' a' type m') :=
  ⟨congrArg (Expr.cast () · type ()) ha.shape,
    .cons hl (List.rel_append ha.marks (.cons hm .nil))⟩

variable {es : List (Expr ι)} {es' : List (Expr κ)}

theorem map_bare (h : List.Forall₂ (Alike R) es es') : es.map Expr.bare = es'.map Expr.bare := by
  induction h with
  | nil => rfl
  | cons h _ ih => rw [List.map_cons, List.map_cons, h.shape, ih]

theorem locsList (h : List.Forall₂ (Alike R) es es') :
    List.Forall₂ R (locs.locsList es) (locs.locsList es') := by
  induction h with
  | nil => exact .nil
  | cons h _ ih => exact List.rel_append h.marks ih

theorem call (hl : R l l') (ha : Alike R a a') (hes : List.Forall₂ (Alike R) es es') :
    Alike R (.call l a es) (.call l' a' es') := by
  constructor
  · rw [bare_call, bare_call, ha.shape, map_bare hes]
  · exact .cons hl (List.rel_append ha.marks (locsList hes))

theorem array (hl : R l l') (hes : List.Forall₂ (Alike R) es es') :
    Alike R (.array l es) (.array l' es') := by
  constructor
  · rw [bare_array, bare_array, map_bare hes]
  · exact .cons hl (locsList hes)

end Alike

end SchemaExpr.Expr
