import SchemaExpr.Proofs.Lowering
import SchemaExpr.Proofs.SourceTrees

/-!
# The form of target trees

A target tree that comes from a source has a form of its own: its numbers are unsigned and finite,
its names are words, and only native operators remain. The form is strict if the tree groups as its
text does, and it is if the tree that it comes from is plain.
-/
namespace SchemaExpr

namespace Expr

variable {ι : Type}

def visited (cut : Expr ι → Bool) (e : Expr ι) : List (Expr ι) :=
  (e.walk cut).filterMap fun
    | .node x => some x
    | _ => none

/-- The nodes that are read as values, each before those below it. -/
def values (e : Expr ι) : List (Expr ι) := e.visited fun _ => false

def literal? : Expr ι → Option (Bool × Nat)
  | int _ n => some (false, n)
  | unary _ .neg (int _ n) => some (true, n)
  | _ => none

/-- The integer literals of a tree, each with whether a minus stands directly before it. -/
def literals (e : Expr ι) : List (Bool × Nat) :=
  match e.literal? with
  | some literal => [literal]
  | none => e.children.attach.flatMap fun x => literals x.1
termination_by sizeOf e
decreasing_by exact sizeOf_lt_of_mem_children x.2

def isSigned : Expr ι → Bool
  | unary _ .neg _ | unary _ .not _ => true
  | _ => false

/-- A member access that stays one in the target text, of a signed operand. -/
def dotsSigned : Expr ι → Bool
  | attr _ object name _ => (Target.attribute? object name).isNone && object.isSigned
  | _ => false

def isLeaf : Expr ι → Bool
  | bool .. | int .. | float .. | text .. | null .. | ident .. | special .. => true
  | _ => false

/-- A node that some function of the host engine stands for, if it has no native form. -/
def applies : Expr ι → Bool
  | unary _ .bitNot _ | binary .. | ternary .. | attr .. | call .. | index .. | cast .. => true
  | _ => false

/-- The name of the function or the method that a node calls. -/
def calledName? : Expr ι → Option String
  | call _ (attr _ _ name _) _ | call _ (ident _ name) _ => some name
  | _ => none

/-- A method call by the name of a special variable. -/
def callsSpecial : Expr ι → Bool
  | call _ (attr _ _ name _) _ => (Scan.wordKind name.toList).isSpecial
  | _ => false

theorem visited_eq (cut : Expr ι → Bool) (e : Expr ι) :
    e.visited cut = e :: if cut e then [] else e.operands.flatMap (visited cut) := by
  unfold visited
  rw [walk_eq]
  split
  · rfl
  · cases e <;> simp [variableEvent, List.filterMap_flatMap]

theorem values_eq (e : Expr ι) : e.values = e :: e.operands.flatMap values :=
  visited_eq _ e

theorem literals_eq (e : Expr ι) :
    e.literals = match e.literal? with
      | some literal => [literal]
      | none => e.children.flatMap literals := by
  rw [literals]
  simp [List.flatMap_subtype]

theorem literals_subset {e x : Expr ι} (he : e.literal? = none) (hx : x ∈ e.children) :
    x.literals ⊆ e.literals := by
  intro p hp
  rw [literals_eq e, he]
  exact List.mem_flatMap.mpr ⟨x, hx, hp⟩

theorem literals_operand_subset {e x : Expr ι} (he : e.literal? = none) (hx : x ∈ e.operands) :
    x.literals ⊆ e.literals := by
  unfold operands at hx
  split at hx
  · exact literals_subset he (List.mem_cons_of_mem _ hx)
  · next l object name nameLoc args =>
    rcases List.mem_cons.mp hx with rfl | hx
    · have hcallee : x ∈ (attr l x name nameLoc).children := List.mem_singleton_self x
      exact fun p hp => literals_subset he List.mem_cons_self (literals_subset rfl hcallee hp)
    · exact literals_subset he (List.mem_cons_of_mem _ hx)
  · cases hx
  · cases hx
  · exact literals_subset he hx

theorem Every.operand {p : Expr ι → Prop} {e x : Expr ι} (h : e.Every p) (hx : x ∈ e.operands) :
    x.Every p := by
  unfold operands at hx
  split at hx
  · exact h.of_child x (List.mem_cons_of_mem _ hx)
  · rcases List.mem_cons.mp hx with rfl | hx
    · exact (h.of_child _ List.mem_cons_self).of_child x (List.mem_singleton_self x)
    · exact h.of_child x (List.mem_cons_of_mem _ hx)
  · cases hx
  · cases hx
  · exact h.of_child x hx

def InSignedRange (e : Expr ι) : Prop :=
  ∀ literal ∈ e.literals, literal.2 < Target.signedLimit ∨ literal = (true, Target.signedLimit)

instance (e : Expr ι) : Decidable e.InSignedRange := inferInstanceAs (Decidable (∀ _ ∈ _, _))

theorem InSignedRange.operand {e x : Expr ι} (h : e.InSignedRange) (he : e.literal? = none)
    (hx : x ∈ e.operands) : x.InSignedRange :=
  fun p hp => h p (literals_operand_subset he hx hp)

/-- A tree whose target text groups as the tree does: its integers are signed, no member of a signed
operand stays one, and no method has the name of a special variable. -/
structure Plain (e : Expr ι) : Prop where
  range : e.InSignedRange
  dots : ∀ x ∈ e.values, x.dotsSigned = false
  calls : ∀ x ∈ e.values, x.callsSpecial = false

theorem values_operand_subset {e x : Expr ι} (hx : x ∈ e.operands) : x.values ⊆ e.values := by
  intro y hy
  rw [values_eq e]
  exact List.mem_cons_of_mem _ (List.mem_flatMap.mpr ⟨x, hx, hy⟩)

theorem Plain.operand {e x : Expr ι} (h : e.Plain) (he : e.literal? = none) (hx : x ∈ e.operands) :
    x.Plain where
  range := h.range.operand he hx
  dots y hy := h.dots y (values_operand_subset hx hy)
  calls y hy := h.calls y (values_operand_subset hx hy)

theorem mem_values (e : Expr ι) : e ∈ e.values := by
  rw [values_eq]
  exact List.mem_cons_self

end Expr

namespace Target

/-- The form of target trees. A strict form is one that groups as its text does. -/
inductive Form (strict : Prop) : Expr Unit → Prop
  | bool {value} : Form strict (.bool () value)
  | int {n} : n < UInt64.size → (strict → n < signedLimit) → Form strict (.int () n)
  | float {value : Decimal.Double} : value.isFinite = true → value.negative = false →
      Form strict (.float () value)
  | text {value} : Form strict (.text () value)
  | null : Form strict (.null ())
  | ident {name} : IsName name → Form strict (.ident () name)
  | special {name} : Form strict (.special () name)
  | negated {n} : n ≤ signedLimit → Form strict (.unary () .neg (.int () n))
  | unary {op symbol operand} : unaryForm op = .native symbol → negated? op operand = none →
      Form strict operand → Form strict (.unary () op operand)
  | binary {op symbol lhs rhs} : binaryForm op = .native symbol → Form strict lhs →
      Form strict rhs → Form strict (.binary () op lhs rhs)
  | attr {object name} : IsMember name → (strict → object.isSigned = false) → Form strict object →
      Form strict (.attr () object name ())
  | call {name args} : IsMember name → (strict → IsName name) → (∀ x ∈ args, Form strict x) →
      Form strict (callOf name args)
  | array {elements} : (∀ x ∈ elements, Form strict x) → Form strict (.array () elements)

theorem isName_of_mem_table :
    ∀ table ∈ [streamAttributes, valueAttributes, streamMethods, functions, castFunctions],
      ∀ p ∈ table, IsName p.2 := by decide +kernel

theorem isName_of_lookup {table : List (String × String)} {name function : String}
    (htable : table ∈ [streamAttributes, valueAttributes, streamMethods, functions, castFunctions])
    (h : table.lookup name = some function) : IsName function :=
  isName_of_mem_table table htable _ (mem_of_lookup h)

theorem isName_function {name function : String} (h : function? name = some function) :
    IsName function :=
  isName_of_lookup (by simp) h

theorem isName_castFunction {type function : String} (h : castFunction? type = some function) :
    IsName function :=
  isName_of_lookup (by simp) h

theorem isName_attribute {ι : Type} {object : Expr ι} {name function : String}
    (h : attribute? object name = some function) : IsName function := by
  have hvalue : valueAttribute? name = some function → IsName function :=
    isName_of_lookup (by simp)
  unfold attribute? at h
  split at h
  · cases hstream : streamAttribute? name with
    | some f =>
      rw [hstream] at h
      cases h
      exact isName_of_lookup (by simp) hstream
    | none =>
      rw [hstream] at h
      exact hvalue h
  · exact hvalue h

/-- A method that no table has keeps its name. -/
theorem method_cases {ι : Type} (object : Expr ι) (name : String) :
    IsName (method object name) ∨ method object name = name := by
  have hfunction : IsName ((function? name).getD name) ∨ (function? name).getD name = name := by
    cases h : function? name with
    | some f => exact .inl (isName_function h)
    | none => exact .inr rfl
  unfold method
  split
  · cases h : streamMethod? name with
    | some f => exact .inl (isName_of_lookup (by simp) h)
    | none => exact hfunction
  · exact hfunction

theorem isName_unaryForm {op : UnaryOp} {name : String} (h : unaryForm op = .function name) :
    IsName name := by
  cases op <;> cases h
  decide +kernel

theorem isName_binaryForm {op : BinaryOp} {name : String} (h : binaryForm op = .function name) :
    IsName name := by
  cases op <;> cases h <;> decide +kernel

theorem Form.function {strict : Prop} {name : String} {args : List (Expr Unit)}
    (hname : IsName name) (h : ∀ x ∈ args, Form strict x) : Form strict (callOf name args) :=
  .call hname.isMember (fun _ => hname) h

theorem isSigned_lowered (e : Expr Span) : (lowered e).isSigned = e.isSigned := by
  cases e with
  | unary loc op operand => cases op <;> rfl
  | binary loc op lhs rhs => cases op <;> rfl
  | attr loc object name nameLoc => rw [lowered]; split <;> rfl
  | call loc callee args => cases callee <;> rfl
  | cast loc operand type typeLoc => rw [lowered]; split <;> rfl
  | _ => rfl

theorem negated_of_literal {ι : Type} {loc : ι} {op : UnaryOp} {operand : Expr ι}
    (h : (Expr.unary loc op operand).literal? = none) : negated? op operand = none := by
  cases op with
  | neg =>
    cases operand with
    | int => cases h
    | _ => rfl
  | _ => rfl

/-- What is known of a tree: a source spells it, and for a strict form it is plain. -/
structure Admissible (strict : Prop) (e : Expr Span) : Prop where
  spelled : e.Every Expr.Spellable
  plain : strict → e.Plain

theorem Admissible.operand {strict : Prop} {e x : Expr Span} (h : Admissible strict e)
    (he : e.literal? = none) (hx : x ∈ e.operands) : Admissible strict x :=
  ⟨h.spelled.operand hx, fun hs => (h.plain hs).operand he hx⟩

theorem Lowerable.operand {e x : Expr Span} (h : Lowerable e) (hx : x ∈ e.operands) :
    Lowerable x := by
  cases h with
  | bool | int | float | text | null | ident | special => cases hx
  | unary _ hoperand | attr hoperand | cast _ hoperand =>
    rw [List.mem_singleton.mp hx]
    exact hoperand
  | sizeof hoperand =>
    unfold Expr.operands at hx
    split at hx <;> simp_all [Expr.children]
  | binary hlhs hrhs | index hlhs hrhs =>
    simp only [Expr.operands, Expr.children, List.mem_cons, List.not_mem_nil, or_false] at hx
    rcases hx with rfl | rfl
    · exact hlhs
    · exact hrhs
  | ternary hcondition hyes hno =>
    simp only [Expr.operands, Expr.children, List.mem_cons, List.not_mem_nil, or_false] at hx
    rcases hx with rfl | rfl | rfl
    · exact hcondition
    · exact hyes
    · exact hno
  | method hobject hargs =>
    rcases List.mem_cons.mp hx with rfl | hx
    · exact hobject
    · exact hargs x hx
  | function hargs => exact hargs x hx
  | array helements => exact helements x hx

/-- How a node that can be lowered stands in the target tree, above the target trees of its
operands. -/
inductive Shape : Expr Span → Expr Unit → Prop
  | leaf {e} : e.isLeaf = true → Shape e e.bare
  | unary {loc op operand symbol} : unaryForm op = .native symbol →
      Shape (.unary loc op operand) (.unary () op (lowered operand))
  | binary {loc op lhs rhs symbol} : binaryForm op = .native symbol →
      Shape (.binary loc op lhs rhs) (.binary () op (lowered lhs) (lowered rhs))
  | attr {loc object name nameLoc} : attribute? object name = none →
      Shape (.attr loc object name nameLoc) (.attr () (lowered object) name ())
  | array {loc elements} : Shape (.array loc elements) (.array () (elements.map lowered))
  | call {e name} : e.applies = true → IsName name ∨ e.calledName? = some name →
      Shape e (callOf name (e.operands.map lowered))
  | sizeof {loc operand} :
      Shape (.sizeof loc operand) (callOf sizeofFunction [.text () (typeText operand)])

theorem Lowerable.shape {e : Expr Span} (h : Lowerable e) : Shape e (lowered e) := by
  cases h with
  | bool | int | float | text | null | ident | special => exact .leaf rfl
  | @unary loc op operand =>
    rw [lowered]
    cases hform : unaryForm op with
    | native symbol => exact .unary hform
    | function name =>
      have happlies : (Expr.unary loc op operand).applies = true := by
        cases op <;> cases hform
        rfl
      exact .call happlies (.inl (isName_unaryForm hform))
  | @binary loc op lhs rhs =>
    rw [lowered]
    cases hform : binaryForm op with
    | native symbol => exact .binary hform
    | function name => exact .call rfl (.inl (isName_binaryForm hform))
  | ternary => exact .call rfl (.inl (by decide +kernel))
  | @attr loc object name nameLoc =>
    rw [lowered]
    cases hname : attribute? object name with
    | none => exact .attr hname
    | some function => exact .call rfl (.inl (isName_attribute hname))
  | @method loc attrLoc object name nameLoc args =>
    rw [lowered, loweredList_eq_map]
    apply Shape.call rfl
    rcases method_cases object name with hname | hname
    · exact .inl hname
    · exact .inr (congrArg some hname.symm)
  | @function loc nameLoc name args =>
    rw [lowered, loweredList_eq_map]
    apply Shape.call rfl
    cases hname : function? name with
    | none => exact .inr rfl
    | some function => exact .inl (isName_function hname)
  | index => exact .call rfl (.inl (by decide +kernel))
  | array =>
    rw [lowered, loweredList_eq_map]
    exact .array
  | cast hcast =>
    rw [lowered]
    simp only [hcast]
    exact .call rfl (.inl (isName_castFunction hcast))
  | sizeof => exact .sizeof

theorem form_of_literal {strict : Prop} {e : Expr Span} {literal : Bool × Nat} (h : Lowerable e)
    (hadmissible : Admissible strict e) (hliteral : e.literal? = some literal) :
    Form strict (lowered e) := by
  unfold Expr.literal? at hliteral
  split at hliteral
  · apply Form.int hadmissible.spelled.here
    intro hs
    have hrange := (hadmissible.plain hs).range
    simpa [Expr.InSignedRange, Expr.literals_eq, Expr.literal?] using hrange
  · cases h with
    | unary hrange => exact .negated (hrange _ rfl)
  · cases hliteral

theorem isMember_calledName {e : Expr Span} {name : String} (hspelled : e.Every Expr.Spellable)
    (h : e.calledName? = some name) :
    IsMember name ∧ (e.callsSpecial = false → IsName name) := by
  unfold Expr.calledName? at h
  split at h
  · cases h
    have hmember : IsMember name := (hspelled.of_child _ List.mem_cons_self).here
    refine ⟨hmember, fun hcalls => ⟨hmember.1, hmember.2.resolve_right ?_⟩⟩
    simpa [Expr.callsSpecial] using hcalls
  · cases h
    have hname : IsName name := (hspelled.of_child _ List.mem_cons_self).here
    exact ⟨hname.isMember, fun _ => hname⟩
  · cases h

theorem Lowerable.form {strict : Prop} {e : Expr Span} (h : Lowerable e)
    (hadmissible : Admissible strict e) : Form strict (lowered e) := by
  induction e using Expr.induction_operands with
  | step e ih =>
  cases hliteral : e.literal? with
  | some literal => exact form_of_literal h hadmissible hliteral
  | none =>
    have hoperands (x : Expr Span) (hx : x ∈ e.operands) : Form strict (lowered x) :=
      ih x hx (h.operand hx) (hadmissible.operand hliteral hx)
    have hspelled := hadmissible.spelled
    have hshape := h.shape
    generalize lowered e = t at hshape
    cases hshape with
    | leaf hleaf =>
      cases e with
      | bool => exact .bool
      | int => cases hliteral
      | float => exact .float hspelled.here.1 hspelled.here.2
      | text => exact .text
      | null => exact .null
      | ident => exact .ident hspelled.here
      | special => exact .special
      | _ => cases hleaf
    | @unary loc op operand symbol hform =>
      have hnone := (negated_lowered op operand).trans (negated_of_literal hliteral)
      exact .unary hform hnone (hoperands operand List.mem_cons_self)
    | binary hform =>
      exact .binary hform (hoperands _ List.mem_cons_self)
        (hoperands _ (List.mem_cons_of_mem _ List.mem_cons_self))
    | @attr loc object name nameLoc hname =>
      apply Form.attr hspelled.here _ (hoperands object List.mem_cons_self)
      intro hs
      rw [isSigned_lowered]
      simpa [Expr.dotsSigned, hname] using (hadmissible.plain hs).dots _ (Expr.mem_values _)
    | array => exact .array (List.forall_mem_map.mpr hoperands)
    | call _ hname =>
      rcases hname with hname | hname
      · exact .function hname (List.forall_mem_map.mpr hoperands)
      · obtain ⟨hmember, hplain⟩ := isMember_calledName hspelled hname
        apply Form.call hmember _ (List.forall_mem_map.mpr hoperands)
        intro hs
        exact hplain ((hadmissible.plain hs).calls _ (Expr.mem_values _))
    | sizeof => exact .function (by decide +kernel) (by simpa using Form.text)

end Target

end SchemaExpr
