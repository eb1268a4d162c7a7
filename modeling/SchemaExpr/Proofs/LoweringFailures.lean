import Mathlib.Algebra.Group.Nat.Defs
import SchemaExpr.Proofs.TargetForm

/-!
# Where lowering fails

Four kinds of nodes have no form in the host engine, and each has an error of its own. An emission
either succeeds on every buffer or fails with one error on every buffer, and one that follows
another adds its failure only if the first has none. So the failure of a tree is that of the first
refused node that is reached when the tree is read from its root.
-/
namespace SchemaExpr

/-- What an error names: a type, or a construct in words. -/
def LowerError.payload : LowerError → String
  | unsupportedCast type _ => type
  | unsupported what _ => what.text

namespace Target

/-- A node that has no form in the host engine, with its error and what the error names. -/
inductive Refused : Expr Span → LowerError → String → Prop
  | alignof {loc operand} : Refused (.alignof loc operand) (.unsupported .alignof loc) "alignof"
  | cast {loc operand type typeLoc} : castFunction? type = none →
      Refused (.cast loc operand type typeLoc) (.unsupportedCast type typeLoc) type
  | negated {loc literalLoc n} : 2 ^ 63 < n →
      Refused (.unary loc .neg (.int literalLoc n)) (.unsupported (.negativeLiteral n) loc)
        ("negative literal -" ++ toString n)
  | call {loc callee args} : callee.isCallable = false →
      Refused (.call loc callee args) (.unsupported .call callee.loc)
        "call of a non-callable expression"

def refusal? : Expr Span → Option LowerError
  | .alignof loc _ => some (.unsupported .alignof loc)
  | .cast _ _ type typeLoc =>
    if castFunction? type = none then some (.unsupportedCast type typeLoc) else none
  | .unary loc op operand =>
    match negated? op operand with
    | some n => if signedLimit < n then some (.unsupported (.negativeLiteral n) loc) else none
    | none => none
  | .call _ callee _ =>
    if callee.isCallable then none else some (.unsupported .call callee.loc)
  | _ => none

theorem signedLimit_eq : signedLimit = 2 ^ 63 := rfl

theorem refused_iff {e : Expr Span} {error : LowerError} {payload : String} :
    Refused e error payload ↔ refusal? e = some error ∧ error.payload = payload := by
  constructor
  · intro h
    cases h with
    | alignof => exact ⟨rfl, rfl⟩
    | cast hcast => exact ⟨by rw [refusal?, if_pos hcast], rfl⟩
    | negated hlimit => exact ⟨if_pos hlimit, rfl⟩
    | call hcallee => exact ⟨by simp [refusal?, hcallee], rfl⟩
  · rintro ⟨h, rfl⟩
    unfold refusal? at h
    split at h
    · cases h
      exact .alignof
    · split at h
      · next hcast =>
        cases h
        exact .cast hcast
      · cases h
    · split at h
      · next hnegated =>
        obtain ⟨rfl, literalLoc, rfl⟩ := eq_of_negated hnegated
        split at h
        · next hlimit =>
          cases h
          exact .negated hlimit
        · cases h
      · cases h
    · split at h
      · cases h
      · next hcallee =>
        cases h
        exact .call (Bool.eq_false_iff.mpr hcallee)
    · cases h

theorem refusal_eq_none_iff {e : Expr Span} :
    refusal? e = none ↔ ∀ error payload, ¬ Refused e error payload := by
  simp only [refused_iff]
  constructor
  · rintro h error payload ⟨herror, -⟩
    simp [h] at herror
  · intro h
    exact Option.eq_none_iff_forall_ne_some.mpr fun error herror => h error _ ⟨herror, rfl⟩

def sizesNamedType {ι : Type} : Expr ι → Bool
  | .sizeof _ operand => (typeName? operand).isSome
  | _ => false

def stopsReading (e : Expr Span) : Bool := (refusal? e).isSome || sizesNamedType e

/-- The nodes that are reached when a tree is read from its root, each before those below it and
operands from left to right. The callee of a call is not read, except for the object of a method. -/
def reached (e : Expr Span) : List (Expr Span) := e.visited stopsReading

theorem reached_eq (e : Expr Span) :
    reached e = e :: if stopsReading e then [] else e.operands.flatMap reached :=
  Expr.visited_eq _ e

def firstRefusal? (e : Expr Span) : Option LowerError := (reached e).findSome? refusal?

theorem findSome?_cons_or {α β : Type} (f : α → Option β) (a : α) (as : List α) :
    (a :: as).findSome? f = (f a).or (as.findSome? f) := by
  rw [List.findSome?_cons]
  cases f a <;> rfl

theorem findSome?_flatMap {α β γ : Type} (f : β → Option γ) (g : α → List β) (as : List α) :
    (as.flatMap g).findSome? f = as.findSome? fun a => (g a).findSome? f := by
  induction as with
  | nil => rfl
  | cons a as ih => rw [List.flatMap_cons, List.findSome?_append, ih, findSome?_cons_or]

theorem firstRefusal_eq (e : Expr Span) : firstRefusal? e =
    (refusal? e).or (if sizesNamedType e then none else e.operands.findSome? firstRefusal?) := by
  unfold firstRefusal?
  rw [reached_eq, findSome?_cons_or]
  cases hrefusal : refusal? e with
  | some error => rfl
  | none =>
    cases hsize : sizesNamedType e with
    | true => simp [stopsReading, hsize]
    | false => simp [stopsReading, hrefusal, hsize, findSome?_flatMap]

namespace Emission

variable {p q : Emission} {a b : Option LowerError} {name : String}

/-- Whatever the buffer, the emission fails with this error, or succeeds if there is none. -/
def Reports (p : Emission) (failure : Option LowerError) : Prop :=
  ∀ buffer, (p buffer).failure = failure

theorem reports_write (s : String) : Reports (write s) none := fun _ => rfl

theorem reports_fail (error : LowerError) : Reports (fail error) (some error) := fun _ => rfl

theorem Reports.append (hp : Reports p a) (hq : Reports q b) : Reports (p ++ q) (a.or b) := by
  intro buffer
  change ((andThen p q) buffer).failure = _
  unfold andThen
  cases a with
  | none => simpa [hp buffer] using hq _
  | some error => simp [hp buffer]

theorem Reports.after (hp : Reports p a) (s : String) : Reports (write s ++ p) a :=
  (reports_write s).append hp

theorem Reports.before (hp : Reports p a) (s : String) : Reports (p ++ write s) a := by
  simpa using hp.append (reports_write s)

theorem Reports.between (hp : Reports p a) (s : String) (hq : Reports q b) :
    Reports (p ++ write s ++ q) (a.or b) :=
  (hp.before s).append hq

theorem Reports.call (hp : Reports p a) : Reports (Emission.call name p) a := by
  have hopen : Reports (write name ++ write "(" ++ p) a :=
    ((reports_write name).append (reports_write "(")).append hp
  exact hopen.before ")"

theorem Reports.callQuoting (hp : Reports p a) : Reports (callQuoting name p) a := by
  intro buffer
  unfold Emission.callQuoting
  cases a with
  | none =>
    simp only [hp buffer]
    exact (reports_write _).call _
  | some error => simp [hp buffer]

end Emission

open Emission

theorem reports_emitMore {es : List (Expr Span)} {f : Expr Span → Option LowerError}
    (h : ∀ x ∈ es, Reports (emit x) (f x)) : Reports (emit.emitMore es) (es.findSome? f) := by
  induction es with
  | nil => exact reports_write ""
  | cons e es ih =>
    rw [emit.emitMore, findSome?_cons_or]
    have hfirst := (h e List.mem_cons_self).after ", "
    exact hfirst.append (ih fun x hx => h x (List.mem_cons_of_mem e hx))

theorem reports_emitList {es : List (Expr Span)} {f : Expr Span → Option LowerError}
    (h : ∀ x ∈ es, Reports (emit x) (f x)) : Reports (emit.emitList es) (es.findSome? f) := by
  cases es with
  | nil => exact reports_write ""
  | cons e es =>
    rw [emit.emitList, findSome?_cons_or]
    exact (h e List.mem_cons_self).append
      (reports_emitMore fun x hx => h x (List.mem_cons_of_mem e hx))

/-- A node with a form fails as its operands do: with the failure of the first that has one. -/
theorem reports_of_operands {e : Expr Span} (hrefusal : refusal? e = none)
    (hsize : sizesNamedType e = false)
    (h : ∀ x ∈ e.operands, Reports (emit x) (firstRefusal? x)) :
    Reports (emit e) (e.operands.findSome? firstRefusal?) := by
  cases e with
  | bool | int | float | text | null | ident | special => exact reports_write _
  | unary loc op operand =>
    have hoperand : Reports (emit operand) (firstRefusal? operand) := h operand List.mem_cons_self
    simp only [Expr.operands, Expr.children, findSome?_cons_or, List.findSome?_nil, Option.or_none]
    cases hnegated : negated? op operand with
    | some n =>
      obtain ⟨rfl, literalLoc, rfl⟩ := eq_of_negated hnegated
      have hlimit : ¬ signedLimit < n := by simpa [refusal?, negated?] using hrefusal
      have hliteral : firstRefusal? (.int literalLoc n) = none := firstRefusal_eq _
      rw [emit, if_neg hlimit, hliteral]
      split
      · exact reports_write _
      · exact (reports_write _).after "-"
    | none =>
      rw [emit_unary hnegated]
      split
      · exact hoperand.after _
      · exact hoperand.call
  | binary loc op lhs rhs =>
    have hlhs : Reports (emit lhs) (firstRefusal? lhs) := h lhs List.mem_cons_self
    have hrhs : Reports (emit rhs) (firstRefusal? rhs) :=
      h rhs (List.mem_cons_of_mem _ List.mem_cons_self)
    simp only [Expr.operands, Expr.children, findSome?_cons_or, List.findSome?_nil, Option.or_none]
    rw [emit]
    split
    · exact ((hlhs.after "(").between _ hrhs).before ")"
    · exact (hlhs.between ", " hrhs).call
  | ternary loc condition yes no =>
    have hcondition : Reports (emit condition) (firstRefusal? condition) :=
      h condition List.mem_cons_self
    have hyes : Reports (emit yes) (firstRefusal? yes) :=
      h yes (List.mem_cons_of_mem _ List.mem_cons_self)
    have hno : Reports (emit no) (firstRefusal? no) :=
      h no (List.mem_cons_of_mem _ (List.mem_cons_of_mem _ List.mem_cons_self))
    simp only [Expr.operands, Expr.children, findSome?_cons_or, List.findSome?_nil, Option.or_none]
    rw [emit, ← Option.or_assoc]
    exact ((hcondition.between ", " hyes).between ", " hno).call
  | attr loc object name nameLoc =>
    have hobject : Reports (emit object) (firstRefusal? object) := h object List.mem_cons_self
    simp only [Expr.operands, Expr.children, findSome?_cons_or, List.findSome?_nil, Option.or_none]
    rw [emit]
    split
    · exact hobject.call
    · exact (hobject.before ".").before name
  | call loc callee args =>
    cases callee with
    | attr attrLoc object name nameLoc =>
      rw [emit, Expr.operands, findSome?_cons_or]
      have hobject : Reports (emit object) (firstRefusal? object) := h object List.mem_cons_self
      have hargs := reports_emitMore fun x hx => h x (List.mem_cons_of_mem object hx)
      exact (hobject.append hargs).call
    | ident nameLoc name =>
      rw [emit]
      exact (reports_emitList h).call
    | _ => cases hrefusal
  | index loc object place =>
    have hobject : Reports (emit object) (firstRefusal? object) := h object List.mem_cons_self
    have hplace : Reports (emit place) (firstRefusal? place) :=
      h place (List.mem_cons_of_mem _ List.mem_cons_self)
    simp only [Expr.operands, Expr.children, findSome?_cons_or, List.findSome?_nil, Option.or_none]
    rw [emit]
    exact (hobject.between ", " hplace).call
  | array loc elements =>
    rw [emit]
    exact ((reports_emitList h).after "[").before "]"
  | cast loc operand type typeLoc =>
    have hoperand : Reports (emit operand) (firstRefusal? operand) := h operand List.mem_cons_self
    simp only [Expr.operands, Expr.children, findSome?_cons_or, List.findSome?_nil, Option.or_none]
    rw [emit]
    split
    · exact hoperand.call
    · next hcast => simp [refusal?, hcast] at hrefusal
  | sizeof loc operand =>
    have hname : typeName? operand = none := by simpa [sizesNamedType] using hsize
    have hoperand := h operand (mem_operands_sizeof hname)
    have hoperands : (Expr.sizeof loc operand).operands = [operand] := by
      cases operand with
      | ident => cases hname
      | _ => rfl
    rw [emit_sizeof, hname, hoperands, findSome?_cons_or, List.findSome?_nil, Option.or_none]
    exact hoperand.callQuoting
  | alignof loc operand => cases hrefusal

theorem reports_of_refusal {e : Expr Span} {error : LowerError} (h : refusal? e = some error) :
    Reports (emit e) (some error) := by
  cases refused_iff.mpr ⟨h, rfl⟩ with
  | alignof => exact reports_fail _
  | cast hcast =>
    rw [emit]
    simp only [hcast]
    exact reports_fail _
  | negated hlimit =>
    rw [← signedLimit_eq] at hlimit
    rw [emit, if_neg (Nat.ne_of_gt hlimit), if_pos hlimit]
    exact reports_fail _
  | @call loc callee args hcallee =>
    cases callee with
    | attr | ident => cases hcallee
    | _ => exact reports_fail _

/-- The emitter fails with the error of the first refused node, and only with that. -/
theorem reports_emit (e : Expr Span) : Reports (emit e) (firstRefusal? e) := by
  induction e using Expr.induction_operands with
  | step e ih =>
  rw [firstRefusal_eq]
  cases hrefusal : refusal? e with
  | some error => exact reports_of_refusal hrefusal
  | none =>
    cases hsize : sizesNamedType e with
    | false => exact reports_of_operands hrefusal hsize ih
    | true =>
      cases e with
      | sizeof loc operand =>
        obtain ⟨name, hname⟩ := Option.isSome_iff_exists.mp hsize
        rw [emit_sizeof, hname]
        exact (reports_write _).call
      | _ => cases hsize

theorem lower_eq_error_iff {e : Expr Span} {error : LowerError} :
    lower e = .error error ↔ firstRefusal? e = some error := by
  rw [← reports_emit e ""]
  simp only [lower, Emitter.lower, Emitter.new, Emitter.clear]
  cases (emit e "").failure with
  | none => simp
  | some failure => simp

theorem exists_lower_eq_ok_iff {e : Expr Span} :
    (∃ text, lower e = .ok text) ↔ firstRefusal? e = none := by
  rw [← reports_emit e ""]
  simp only [lower, Emitter.lower, Emitter.new, Emitter.clear]
  cases (emit e "").failure with
  | none => simp
  | some failure => simp

/-- A tree is lowered just if no refused node is reached, and otherwise the error is that of the
first one. -/
theorem lowering_fails_at_first_refused_node (e : Expr Span) :
    ((∃ text, lower e = .ok text) ↔ ∀ x ∈ reached e, ∀ error payload, ¬ Refused x error payload) ∧
      ∀ error, lower e = .error error ↔ ∃ before x after, reached e = before ++ x :: after ∧
        (∀ y ∈ before, ∀ error payload, ¬ Refused y error payload) ∧
        Refused x error error.payload := by
  constructor
  · simp only [exists_lower_eq_ok_iff, firstRefusal?, List.findSome?_eq_none_iff,
      refusal_eq_none_iff]
  · intro error
    rw [lower_eq_error_iff, firstRefusal?, List.findSome?_eq_some_iff]
    simp only [refusal_eq_none_iff, refused_iff, and_true]
    constructor
    · rintro ⟨before, x, after, hreached, hx, hbefore⟩
      exact ⟨before, x, after, hreached, hbefore, hx⟩
    · rintro ⟨before, x, after, hreached, hbefore, hx⟩
      exact ⟨before, x, after, hreached, hx, hbefore⟩

end Target

end SchemaExpr
