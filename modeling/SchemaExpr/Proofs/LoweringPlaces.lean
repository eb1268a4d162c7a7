import SchemaExpr.Proofs.Lowering

/-!
# Lowering without places

The emitter copies the spans of nodes into its errors and uses them for nothing else. So trees of
one shape are lowered to the same text, or they fail with errors that differ only in their spans.
-/
namespace SchemaExpr

namespace Expr

variable {ι κ μ : Type}

theorem map_map (g : κ → μ) (f : ι → κ) (e : Expr ι) :
    (e.map f).map g = e.map fun l => g (f l) := by
  induction e using induction_children with
  | step e ih =>
  cases e with
  | call l callee args =>
    have hargs : (args.map (map f)).map (map g) = args.map (map fun l => g (f l)) := by
      rw [List.map_map]
      exact List.map_congr_left fun x hx => ih x (List.mem_cons_of_mem callee hx)
    rw [map, map, map, ih callee List.mem_cons_self]
    simp only [mapList_eq_map, hargs]
  | array l elements =>
    have helements : (elements.map (map f)).map (map g) = elements.map (map fun l => g (f l)) := by
      rw [List.map_map]
      exact List.map_congr_left ih
    rw [map, map, map]
    simp only [mapList_eq_map, helements]
  | _ => simp_all [map, children]

/-- Trees of one shape become equal if all annotations become equal. -/
theorem map_const_eq_of_bare {e e' : Expr ι} (h : e.bare = e'.bare) (l : κ) :
    (e.map fun _ => l) = e'.map fun _ => l := by
  have hbare (x : Expr ι) : x.bare.map (fun _ => l) = x.map fun _ => l := x.map_map _ _
  rw [← hbare e, h, hbare e']

end Expr

def LowerError.unplaced : LowerError → LowerError
  | unsupportedCast type _ => unsupportedCast type Span.origin
  | unsupported what _ => unsupported what Span.origin

namespace Target

open Expr (mapList_eq_map map_const_eq_of_bare)

section Parts

variable {ι κ : Type} (f : ι → κ)

theorem negated_map (op : UnaryOp) (e : Expr ι) : negated? op (e.map f) = negated? op e := by
  cases op <;> cases e <;> rfl

theorem typeName_map (e : Expr ι) : typeName? (e.map f) = typeName? e := by
  cases e <;> rfl

theorem attribute_map (object : Expr ι) (name : String) :
    attribute? (object.map f) name = attribute? object name := by
  cases object with
  | special l s => cases s <;> rfl
  | _ => rfl

theorem method_map (object : Expr ι) (name : String) :
    method (object.map f) name = method object name := by
  cases object with
  | special l s => cases s <;> rfl
  | _ => rfl

end Parts

namespace Emission

/-- The emissions write the same and fail alike, up to the places of their errors. -/
def Alike (p q : Emission) : Prop :=
  ∀ buffer, (p buffer).buffer = (q buffer).buffer ∧
    (p buffer).failure.map LowerError.unplaced = (q buffer).failure.map LowerError.unplaced

variable {p p' q q' : Emission}

theorem Alike.refl (p : Emission) : Alike p p := fun _ => ⟨rfl, rfl⟩

theorem alike_fail {error error' : LowerError} (h : error.unplaced = error'.unplaced) :
    Alike (fail error) (fail error') :=
  fun _ => ⟨rfl, congrArg some h⟩

/-- Either both emissions succeed, with one buffer, or both fail. -/
theorem Alike.cases (h : Alike p q) (buffer : String) :
    (∃ after, p buffer = ⟨after, none⟩ ∧ q buffer = ⟨after, none⟩) ∨
      ∃ error error', (p buffer).failure = some error ∧ (q buffer).failure = some error' := by
  obtain ⟨hbuffer, hfailure⟩ := h buffer
  cases hp : p buffer with
  | mk after failure =>
  cases hq : q buffer with
  | mk after' failure' =>
  rw [hp, hq] at hbuffer hfailure
  obtain rfl : after = after' := hbuffer
  cases failure with
  | none =>
    obtain rfl : failure' = none := Option.map_eq_none_iff.mp hfailure.symm
    exact .inl ⟨after, rfl, rfl⟩
  | some error =>
    obtain ⟨error', rfl, -⟩ := Option.map_eq_some_iff.mp hfailure.symm
    exact .inr ⟨error, error', rfl, rfl⟩

theorem Alike.append (hp : Alike p p') (hq : Alike q q') : Alike (p ++ q) (p' ++ q') := by
  intro buffer
  have hfirst := hp buffer
  change (andThen p q buffer).buffer = (andThen p' q' buffer).buffer ∧
    (andThen p q buffer).failure.map _ = (andThen p' q' buffer).failure.map _
  unfold andThen
  rcases hp.cases buffer with ⟨after, h, h'⟩ | ⟨error, error', h, h'⟩
  · simp only [h, h']
    exact hq after
  · simp only [h, h'] at hfirst ⊢
    exact hfirst

theorem Alike.call (hp : Alike p p') (name : String) :
    Alike (Emission.call name p) (Emission.call name p') :=
  ((Alike.refl _).append hp).append (.refl _)

theorem Alike.callQuoting (hp : Alike p p') (name : String) :
    Alike (Emission.callQuoting name p) (Emission.callQuoting name p') := by
  intro buffer
  have hcontent := hp buffer
  unfold Emission.callQuoting
  rcases hp.cases buffer with ⟨after, h, h'⟩ | ⟨error, error', h, h'⟩
  · simp only [h, h', and_self]
  · simp only [h, h'] at hcontent ⊢
    exact hcontent

end Emission

open Emission

theorem alike_emitMore {f : Span → Span} {es : List (Expr Span)}
    (h : ∀ x ∈ es, Alike (emit x) (emit (x.map f))) :
    Alike (emit.emitMore es) (emit.emitMore (es.map (Expr.map f))) := by
  induction es with
  | nil => exact .refl _
  | cons e es ih =>
    have hfirst := (Alike.refl (write ", ")).append (h e List.mem_cons_self)
    exact hfirst.append (ih fun x hx => h x (List.mem_cons_of_mem e hx))

theorem alike_emitList {f : Span → Span} {es : List (Expr Span)}
    (h : ∀ x ∈ es, Alike (emit x) (emit (x.map f))) :
    Alike (emit.emitList es) (emit.emitList (es.map (Expr.map f))) := by
  cases es with
  | nil => exact .refl _
  | cons e es =>
    exact (h e List.mem_cons_self).append
      (alike_emitMore fun x hx => h x (List.mem_cons_of_mem e hx))

/-- Moving the nodes of a tree moves the error of its emission and changes nothing else. -/
theorem alike_emit_map (f : Span → Span) (e : Expr Span) : Alike (emit e) (emit (e.map f)) := by
  induction e using Expr.induction_operands with
  | step e ih =>
  cases e with
  | bool | int | float | text | null | ident | special => exact .refl _
  | unary loc op operand =>
    have hoperand := ih operand List.mem_cons_self
    cases hnegated : negated? op operand with
    | some n =>
      obtain ⟨rfl, literalLoc, rfl⟩ := eq_of_negated hnegated
      rw [Expr.map, Expr.map, emit, emit]
      split_ifs
      · exact .refl _
      · exact alike_fail rfl
      · exact .refl _
    | none =>
      rw [Expr.map, emit_unary hnegated, emit_unary ((negated_map f op operand).trans hnegated)]
      split
      · exact (Alike.refl _).append hoperand
      · exact hoperand.call _
  | binary loc op lhs rhs =>
    have hlhs := ih lhs List.mem_cons_self
    have hrhs := ih rhs (List.mem_cons_of_mem _ List.mem_cons_self)
    rw [Expr.map, emit, emit]
    split
    · exact ((((Alike.refl _).append hlhs).append (.refl _)).append hrhs).append (.refl _)
    · exact ((hlhs.append (.refl _)).append hrhs).call _
  | ternary loc condition yes no =>
    have hcondition := ih condition List.mem_cons_self
    have hyes := ih yes (List.mem_cons_of_mem _ List.mem_cons_self)
    have hno := ih no (List.mem_cons_of_mem _ (List.mem_cons_of_mem _ List.mem_cons_self))
    rw [Expr.map, emit, emit]
    exact ((((hcondition.append (.refl _)).append hyes).append (.refl _)).append hno).call _
  | attr loc object name nameLoc =>
    have hobject := ih object List.mem_cons_self
    rw [Expr.map, emit, emit, attribute_map]
    split
    · exact hobject.call _
    · exact (hobject.append (.refl _)).append (.refl _)
  | call loc callee args =>
    cases callee with
    | attr attrLoc object name nameLoc =>
      have hobject := ih object List.mem_cons_self
      have hargs := alike_emitMore fun x hx => ih x (List.mem_cons_of_mem object hx)
      rw [Expr.map, Expr.map, mapList_eq_map, emit, emit, method_map]
      exact (hobject.append hargs).call _
    | ident nameLoc name =>
      rw [Expr.map, Expr.map, mapList_eq_map, emit, emit]
      exact (alike_emitList ih).call _
    | _ => exact alike_fail rfl
  | index loc object place =>
    have hobject := ih object List.mem_cons_self
    have hplace := ih place (List.mem_cons_of_mem _ List.mem_cons_self)
    rw [Expr.map, emit, emit]
    exact ((hobject.append (.refl _)).append hplace).call _
  | array loc elements =>
    rw [Expr.map, mapList_eq_map, emit, emit]
    exact ((Alike.refl _).append (alike_emitList ih)).append (.refl _)
  | cast loc operand type typeLoc =>
    have hoperand := ih operand List.mem_cons_self
    rw [Expr.map, emit, emit]
    split
    · exact hoperand.call _
    · exact alike_fail rfl
  | sizeof loc operand =>
    rw [Expr.map, emit_sizeof, emit_sizeof, typeName_map]
    cases hname : typeName? operand with
    | some name => exact .refl _
    | none => exact (ih operand (mem_operands_sizeof hname)).callQuoting _
  | alignof loc operand => exact alike_fail rfl

theorem lower_map (f : Span → Span) (e : Expr Span) :
    (lower (e.map f)).mapError LowerError.unplaced = (lower e).mapError LowerError.unplaced := by
  obtain ⟨hbuffer, hfailure⟩ := alike_emit_map f e ""
  simp only [lower, Emitter.lower, Emitter.new, Emitter.clear]
  cases h : (emit e "").failure with
  | none =>
    rw [h] at hfailure
    rw [Option.map_eq_none_iff.mp hfailure.symm]
    exact congrArg Except.ok hbuffer.symm
  | some error =>
    rw [h] at hfailure
    obtain ⟨error', herror', hunplaced⟩ := Option.map_eq_some_iff.mp hfailure.symm
    rw [herror']
    exact congrArg Except.error hunplaced

/-- Trees of one shape have the same target text, or fail alike up to the places of the errors. -/
theorem lower_eq_of_bare {e e' : Expr Span} (h : e.bare = e'.bare) :
    (lower e).mapError LowerError.unplaced = (lower e').mapError LowerError.unplaced := by
  rw [← lower_map (fun _ => Span.origin) e, map_const_eq_of_bare h, lower_map]

end Target

end SchemaExpr
