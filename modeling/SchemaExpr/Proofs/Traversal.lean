import SchemaExpr.Proofs.TargetVariables

/-!
# The order of a walk

A node has a place in its tree: the numbers of the children on the way from the root. Places that
are ordered as words over the numbers stand in the order of reading, each before those below it, and
a node that occurs twice in a tree has two places. A walk visits the nodes at all places in this
order, less those that are names and not values. A walk that is cut short at some nodes has the same
log without what these nodes would have added below them.
-/
namespace SchemaExpr.Expr

variable {ι : Type}

section Order

end Order

section Membership

end Membership

section Log

end Log

section Pruning

def entriesBelow (e : Expr ι) : List (Event ι) :=
  e.variableEvent ++ e.operands.flatMap (walk fun _ => false)

/-- The second log is the first one without the entries below the outermost nodes for which `cut`
holds: a log is gone through from the left, so a node that is met is outermost. -/
inductive Prunes (cut : Expr ι → Bool) : (log pruned : List (Event ι)) → Prop
  | nil : Prunes cut [] []
  | keep {event log pruned} : (∀ x, event = .node x → cut x = false) → Prunes cut log pruned →
      Prunes cut (event :: log) (event :: pruned)
  | cut {x log pruned} : cut x = true → Prunes cut log pruned →
      Prunes cut (.node x :: (x.entriesBelow ++ log)) (.node x :: pruned)

variable {cut : Expr ι → Bool}

theorem Prunes.append {log log' pruned pruned' : List (Event ι)} (h : Prunes cut log pruned)
    (h' : Prunes cut log' pruned') : Prunes cut (log ++ log') (pruned ++ pruned') := by
  induction h with
  | nil => exact h'
  | keep hevent _ ih => exact .keep hevent ih
  | @cut x log pruned hx _ ih =>
    rw [List.cons_append, List.append_assoc]
    exact .cut hx ih

theorem Prunes.flatMap {xs : List (Expr ι)} {f g : Expr ι → List (Event ι)}
    (h : ∀ x ∈ xs, Prunes cut (f x) (g x)) : Prunes cut (xs.flatMap f) (xs.flatMap g) := by
  induction xs with
  | nil => exact .nil
  | cons x xs ih =>
    exact (h x List.mem_cons_self).append (ih fun y hy => h y (List.mem_cons_of_mem x hy))

theorem Prunes.unique {log pruned pruned' : List (Event ι)} (h : Prunes cut log pruned)
    (h' : Prunes cut log pruned') : pruned = pruned' := by
  induction h generalizing pruned' with
  | nil =>
    cases h'
    rfl
  | keep hevent _ ih =>
    cases h' with
    | keep _ h' => rw [ih h']
    | cut hx _ => simp [hevent _ rfl] at hx
  | @cut x log pruned hx _ ih =>
    generalize hlog : Event.node x :: (x.entriesBelow ++ log) = whole at h'
    cases h' with
    | nil => cases hlog
    | keep hevent _ =>
      obtain ⟨rfl, -⟩ := List.cons.inj hlog
      simp [hevent x rfl] at hx
    | @cut y log' pruned' _ h' =>
      obtain ⟨hnode, hrest⟩ := List.cons.inj hlog
      cases hnode
      rw [List.append_cancel_left hrest] at ih
      rw [ih h']

end Pruning

section FreeVariables

end FreeVariables

end SchemaExpr.Expr
