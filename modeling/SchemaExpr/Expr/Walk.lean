import SchemaExpr.Expr

/-!
# Walking a tree

A walk visits the nodes of a tree that are read as values, each before the nodes below it. The name
of a called function or method is not read as a value, nor is the name of a type. A walk may be cut
short below chosen nodes.
-/
namespace SchemaExpr.Expr

variable {ι : Type}

/-- The subtrees that are read as values, in the order of the source. -/
def operands : Expr ι → List (Expr ι)
  | call _ (ident _ _) args => args
  | call _ (attr _ object _ _) args => object :: args
  | sizeof _ (ident _ _) => []
  | alignof _ (ident _ _) => []
  | e => e.children

theorem sizeOf_lt_of_mem_children {e x : Expr ι} (h : x ∈ e.children) : sizeOf x < sizeOf e := by
  cases e with
  | call loc callee args =>
    rcases List.mem_cons.mp h with rfl | h
    · simp
      omega
    · have := List.sizeOf_lt_of_mem h
      simp
      omega
  | array loc elements =>
    have : sizeOf x < sizeOf elements := List.sizeOf_lt_of_mem h
    simp
    omega
  | _ => simp_all [children] <;> grind

theorem sizeOf_lt_of_mem_operands {e x : Expr ι} (h : x ∈ e.operands) : sizeOf x < sizeOf e := by
  unfold operands at h
  split at h
  · have := List.sizeOf_lt_of_mem h
    simp
    omega
  · rcases List.mem_cons.mp h with rfl | h
    · simp
      omega
    · have := List.sizeOf_lt_of_mem h
      simp
      omega
  · cases h
  · cases h
  · exact sizeOf_lt_of_mem_children h

inductive Event (ι : Type) where
  | node (e : Expr ι)
  | ident (loc : ι) (name : String)
  | special (loc : ι) (name : Special)

/-- The event that a variable adds to the visit of its node. -/
def variableEvent : Expr ι → List (Event ι)
  | ident loc name => [.ident loc name]
  | special loc name => [.special loc name]
  | _ => []

/-- The events of a walk that does not go below the nodes for which `cut` holds. -/
def walk (cut : Expr ι → Bool) (e : Expr ι) : List (Event ι) :=
  .node e :: if cut e then [] else
    e.variableEvent ++ e.operands.attach.flatMap fun x => walk cut x.1
termination_by sizeOf e
decreasing_by exact sizeOf_lt_of_mem_operands x.2

theorem walk_eq (cut : Expr ι → Bool) (e : Expr ι) :
    e.walk cut = .node e ::
      if cut e then [] else e.variableEvent ++ e.operands.flatMap (walk cut) := by
  rw [walk]
  simp [List.flatMap_subtype]

/-- The name of a variable event, as the host engine knows it. -/
def Event.variable? : Event ι → Option String
  | node _ => none
  | ident _ name => some name
  | special _ name => some name.targetName

def insertName (name : String) : List String → List String
  | [] => [name]
  | n :: ns =>
    if name < n then name :: n :: ns
    else if name = n then n :: ns
    else n :: insertName name ns

/-- The names of the variables that a tree reads, in increasing order. -/
def freeVariables (e : Expr ι) : List String :=
  ((e.walk fun _ => false).filterMap Event.variable?).foldr insertName []

end SchemaExpr.Expr
