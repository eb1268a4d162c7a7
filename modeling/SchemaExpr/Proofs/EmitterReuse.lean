import SchemaExpr.Proofs.Lowering

/-!
# Emission and what the buffer holds

Trees are emitted by four operations: writing, failing, emitting one thing after another, and
quoting what was emitted. Only the last takes text out of the buffer, and it takes no more than it
has put there. So an emission adds one text to all buffers and ends alike on all of them, and an
emitter that has lowered other trees before, or has failed on them and kept a part of their text,
lowers the next tree as a new one does.
-/
namespace SchemaExpr.Target

namespace Emission

/-- Emissions that reach the buffer through the four operations only. -/
inductive Composed : Emission → Prop
  | write (s : String) : Composed (write s)
  | fail (error : LowerError) : Composed (fail error)
  | append {p q : Emission} : Composed p → Composed q → Composed (p ++ q)
  | callQuoting {p : Emission} (name : String) : Composed p → Composed (callQuoting name p)

variable {p q : Emission}

theorem Composed.call (hp : Composed p) (name : String) : Composed (Emission.call name p) :=
  (((write name).append (write "(")).append hp).append (write ")")

theorem Composed.between (hp : Composed p) (s : String) (hq : Composed q) :
    Composed (p ++ Emission.write s ++ q) :=
  (hp.append (write s)).append hq

/-- The emission adds the same text to every buffer and ends in the same way. -/
def Appends (p : Emission) : Prop :=
  ∀ buffer, p buffer = ⟨buffer ++ (p "").buffer, (p "").failure⟩

theorem appends_write (s : String) : Appends (write s) := by
  intro buffer
  simp [write]

theorem appends_fail (error : LowerError) : Appends (fail error) := by
  intro buffer
  simp [fail]

theorem Appends.append (hp : Appends p) (hq : Appends q) : Appends (p ++ q) := by
  intro buffer
  change andThen p q buffer = ⟨buffer ++ (andThen p q "").buffer, (andThen p q "").failure⟩
  simp only [andThen]
  rw [hp buffer]
  cases hfailure : (p "").failure with
  | none =>
    have hafter := hq (buffer ++ (p "").buffer)
    have halone := hq (p "").buffer
    simp only [hafter, halone, String.append_assoc]
  | some error => simp only [hfailure]

theorem Appends.call (hp : Appends p) (name : String) : Appends (Emission.call name p) :=
  (((appends_write name).append (appends_write "(")).append hp).append (appends_write ")")

/-- The text to be quoted is cut off where the emission began, so the same text is quoted whatever
stands before it. -/
theorem Appends.callQuoting (hp : Appends p) (name : String) :
    Appends (Emission.callQuoting name p) := by
  intro buffer
  have hcut : cut (p "").buffer "".utf8ByteSize = ("", (p "").buffer) := by
    simpa using cut_append "" (p "").buffer
  simp only [Emission.callQuoting]
  rw [hp buffer]
  cases hfailure : (p "").failure with
  | none =>
    simp only [cut_append, hcut]
    exact (appends_write _).call name buffer
  | some error => simp only [hfailure]

theorem Composed.appends (h : Composed p) : Appends p := by
  induction h with
  | write s => exact appends_write s
  | fail error => exact appends_fail error
  | append _ _ hp hq => exact hp.append hq
  | callQuoting name _ hp => exact hp.callQuoting name

end Emission

open Emission

theorem composed_emitMore {es : List (Expr Span)} (h : ∀ x ∈ es, Composed (emit x)) :
    Composed (emit.emitMore es) := by
  induction es with
  | nil => exact .write ""
  | cons e es ih =>
    have hfirst := (Composed.write ", ").append (h e List.mem_cons_self)
    exact hfirst.append (ih fun x hx => h x (List.mem_cons_of_mem e hx))

theorem composed_emitList {es : List (Expr Span)} (h : ∀ x ∈ es, Composed (emit x)) :
    Composed (emit.emitList es) := by
  cases es with
  | nil => exact .write ""
  | cons e es =>
    exact (h e List.mem_cons_self).append
      (composed_emitMore fun x hx => h x (List.mem_cons_of_mem e hx))

theorem composed_emit (e : Expr Span) : Composed (emit e) := by
  induction e using Expr.induction_operands with
  | step e ih =>
  cases e with
  | bool | int | float | text | null | ident | special => exact .write _
  | unary loc op operand =>
    have hoperand := ih operand List.mem_cons_self
    cases hnegated : negated? op operand with
    | some n =>
      obtain ⟨rfl, literalLoc, rfl⟩ := eq_of_negated hnegated
      rw [emit]
      split_ifs
      · exact .write _
      · exact .fail _
      · exact (Composed.write "-").append (.write _)
    | none =>
      rw [emit_unary hnegated]
      split
      · exact (Composed.write _).append hoperand
      · exact hoperand.call _
  | binary loc op lhs rhs =>
    have hlhs := ih lhs List.mem_cons_self
    have hrhs := ih rhs (List.mem_cons_of_mem _ List.mem_cons_self)
    rw [emit]
    split
    · exact (((Composed.write "(").append hlhs).between _ hrhs).append (.write ")")
    · exact (hlhs.between ", " hrhs).call _
  | ternary loc condition yes no =>
    have hcondition := ih condition List.mem_cons_self
    have hyes := ih yes (List.mem_cons_of_mem _ List.mem_cons_self)
    have hno := ih no (List.mem_cons_of_mem _ (List.mem_cons_of_mem _ List.mem_cons_self))
    rw [emit]
    exact ((hcondition.between ", " hyes).between ", " hno).call _
  | attr loc object name nameLoc =>
    have hobject := ih object List.mem_cons_self
    rw [emit]
    split
    · exact hobject.call _
    · exact (hobject.append (.write ".")).append (.write name)
  | call loc callee args =>
    cases callee with
    | attr attrLoc object name nameLoc =>
      have hobject := ih object List.mem_cons_self
      have hargs := composed_emitMore fun x hx => ih x (List.mem_cons_of_mem object hx)
      rw [emit]
      exact (hobject.append hargs).call _
    | ident nameLoc name =>
      rw [emit]
      exact (composed_emitList ih).call _
    | _ => exact .fail _
  | index loc object place =>
    have hobject := ih object List.mem_cons_self
    have hplace := ih place (List.mem_cons_of_mem _ List.mem_cons_self)
    rw [emit]
    exact (hobject.between ", " hplace).call _
  | array loc elements =>
    rw [emit]
    exact ((Composed.write "[").append (composed_emitList ih)).append (.write "]")
  | cast loc operand type typeLoc =>
    have hoperand := ih operand List.mem_cons_self
    rw [emit]
    split
    · exact hoperand.call _
    · exact .fail _
  | sizeof loc operand =>
    rw [emit_sizeof]
    split
    · exact (Composed.write _).call _
    · next hname => exact (ih operand (mem_operands_sizeof hname)).callQuoting _
  | alignof loc operand => exact .fail _

theorem appends_emit (e : Expr Span) : Appends (emit e) := (composed_emit e).appends

/-- Of a size in a size, the inner call is quoted with all its quotes, and what stands before the
outer call stays. -/
example : emit (.sizeof .origin (.sizeof .origin (.attr .origin (.ident .origin "a") "b" .origin)))
    "é" = ⟨"ésizeof_type(\"sizeof_type(\\\"a.b\\\")\")", none⟩ := by rfl

/-- What a buffer held stays before the text that is added, so that a mark at its end never falls
inside a character. -/
theorem isBoundary_emit (e : Expr Span) (buffer : String) :
    IsBoundary (emit e buffer).buffer buffer.utf8ByteSize := by
  rw [appends_emit e buffer, ← String.utf8Len_toList]
  exact isBoundary_of_split String.toList_append

namespace Emitter

/-- A new emitter gives out the text that the emission adds to any buffer, or fails as the emission
does and keeps that text. -/
theorem new_lower_cases (e : Expr Span) (buffer : String) :
    (∃ text, new.lower e = (.ok text, new) ∧ emit e buffer = ⟨buffer ++ text, none⟩) ∨
      ∃ error rest, new.lower e = (.error error, ⟨rest⟩) ∧
        emit e buffer = ⟨buffer ++ rest, some error⟩ := by
  have hemit := appends_emit e buffer
  cases hfailure : (emit e "").failure with
  | none =>
    rw [hfailure] at hemit
    refine .inl ⟨_, ?_, hemit⟩
    simp only [lower, clear, new, hfailure]
  | some error =>
    rw [hfailure] at hemit
    refine .inr ⟨error, _, ?_, hemit⟩
    simp only [lower, clear, new, hfailure]

/-- A failure inside a size leaves the text before it behind. -/
example : (new.lower (.sizeof .origin (.index .origin (.ident .origin "x")
    (.alignof .origin (.ident .origin "y"))))).2 = ⟨"at(x, "⟩ := by rfl

def results (m : Emitter) : List (Expr Span) → List (Except LowerError String)
  | [] => []
  | e :: es => (m.lower e).1 :: (m.lower e).2.results es

/-- Neither the result nor what is left in the buffer depends on what the buffer held. -/
theorem lower_eq_new_lower (m : Emitter) (e : Expr Span) : m.lower e = new.lower e := rfl

theorem results_eq_map (m : Emitter) (trees : List (Expr Span)) :
    m.results trees = trees.map fun e => (new.lower e).1 := by
  induction trees generalizing m with
  | nil => rfl
  | cons e es ih => rw [results, ih, lower_eq_new_lower, List.map_cons]

end Emitter

/-- Whatever a buffer holds, emitting a tree keeps it and adds after it the text that a new emitter
gives out, or fails with the error of a new emitter after adding the text that this one is left
with; and an emitter with anything in its buffer lowers tree after tree as new emitters would. -/
theorem emission_appends_without_memory (e : Expr Span) (buffer : String) (m : Emitter)
    (trees : List (Expr Span)) :
    IsBoundary (emit e buffer).buffer buffer.utf8ByteSize ∧
      ((∃ text, Emitter.new.lower e = (.ok text, .new) ∧
          emit e buffer = ⟨buffer ++ text, none⟩) ∨
        ∃ error rest, Emitter.new.lower e = (.error error, ⟨rest⟩) ∧
          emit e buffer = ⟨buffer ++ rest, some error⟩) ∧
      m.results trees = trees.map fun e => (Emitter.new.lower e).1 :=
  ⟨isBoundary_emit e buffer, Emitter.new_lower_cases e buffer, m.results_eq_map trees⟩

end SchemaExpr.Target
