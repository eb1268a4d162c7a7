import SchemaExpr.Proofs.TargetMeaning

/-!
# Which target trees share a text

In a target text a sign reaches over the members that follow it, so a member of a signed operand
reads as the sign of a member. Moving members inside signs gives every target tree one grouping that
its text determines: the lexemes can be read back as that grouping and nothing else. The least
signed integer is the exception, since its literal exists only with its sign.
-/
namespace SchemaExpr.Target

/-- The member `name` of a tree, inside the signs before it. -/
def dotted (name : String) : Expr Unit → Expr Unit
  | .unary _ op operand =>
    if negated? op operand = some signedLimit then .attr () (.unary () op operand) name ()
    else .unary () op (dotted name operand)
  | t => .attr () t name ()

/-- The tree with all members inside the signs before them. -/
def regroup : Expr Unit → Expr Unit
  | .unary _ op operand => .unary () op (regroup operand)
  | .binary _ op lhs rhs => .binary () op (regroup lhs) (regroup rhs)
  | .attr _ object name _ => dotted name (regroup object)
  | .call _ callee args => .call () callee (regroupList args)
  | .array _ elements => .array () (regroupList elements)
  | t => t
where
  regroupList : List (Expr Unit) → List (Expr Unit)
    | [] => []
    | t :: ts => regroup t :: regroupList ts

theorem regroupList_eq_map (ts : List (Expr Unit)) : regroup.regroupList ts = ts.map regroup := by
  induction ts with
  | nil => rfl
  | cons t ts ih => simp [regroup.regroupList, ih]

/-- Only an integer literal is regrouped to one. -/
theorem negated_dotted (op : UnaryOp) (name : String) (t : Expr Unit) :
    negated? op (dotted name t) = none := by
  cases t with
  | unary l op' operand =>
    rw [dotted]
    split <;> cases op <;> rfl
  | _ => cases op <;> rfl

theorem negated_regroup (op : UnaryOp) (t : Expr Unit) :
    negated? op (regroup t) = negated? op t := by
  cases t with
  | attr l object name nameLoc =>
    rw [regroup, negated_dotted]
    cases op <;> rfl
  | _ => cases op <;> rfl

def dottedAll (t : Expr Unit) (names : List String) : Expr Unit :=
  names.foldl (fun t name => dotted name t) t

theorem dottedAll_unary {op : UnaryOp} {t : Expr Unit} (h : negated? op t ≠ some signedLimit)
    (names : List String) :
    dottedAll (.unary () op t) names = .unary () op (dottedAll t names) := by
  induction names generalizing t with
  | nil => rfl
  | cons name names ih =>
    have hstep : dotted name (.unary () op t) = .unary () op (dotted name t) := by
      rw [dotted, if_neg h]
    rw [dottedAll, List.foldl_cons, hstep]
    exact ih (by simp [negated_dotted])

/-- A tree whose members are written after the whole of it. -/
def Solid (t : Expr Unit) : Prop := ∀ name, dotted name t = .attr () t name ()

theorem Solid.dottedAll {t : Expr Unit} (h : Solid t) (names : List String) :
    dottedAll t names = names.foldl (fun t name => .attr () t name ()) t := by
  induction names generalizing t with
  | nil => rfl
  | cons name names ih =>
    rw [Target.dottedAll, List.foldl_cons, List.foldl_cons, h name]
    exact ih fun _ => rfl

/-! ## Reading a grouping back -/

abbrev Reader := List Lexeme → Option (Expr Unit × List Lexeme)

def readMembers (t : Expr Unit) : List Lexeme → Expr Unit × List Lexeme
  | dot :: name :: rest =>
    if dot.kind = .dot then readMembers (.attr () t name.literal ()) rest
    else (t, dot :: name :: rest)
  | rest => (t, rest)

def readMore (inner : Reader) : Nat → List Lexeme → Option (List (Expr Unit) × List Lexeme)
  | count + 1, l :: rest =>
    if l.kind = .comma then
      (inner rest).bind fun (t, rest) =>
        (readMore inner count rest).map fun (ts, rest) => (t :: ts, rest)
    else some ([], rest)
  | _, _ => none

/-- Trees with commas between them, up to the mark that closes the list. -/
def readItems (inner : Reader) (ls : List Lexeme) : Option (List (Expr Unit) × List Lexeme) :=
  match inner ls with
  | some (t, rest) => (readMore inner rest.length rest).map fun (ts, rest) => (t :: ts, rest)
  | none => some ([], ls.tail)

/-- What follows the digits of the least signed integer. -/
def leastSigned? : List Lexeme → Option (List Lexeme)
  | l :: rest =>
    if l = .number (toString signedLimit) ∧ ∀ u ∈ rest.head?, u.kind ≠ .ident then some rest
    else none
  | [] => none

/-- Reads one tree, with `inner` for the trees below it. -/
def readStep (inner : Reader) : Reader
  | [] => none
  | l :: rest =>
    match l.kind with
    | .minus =>
      match leastSigned? rest with
      | some rest => some (readMembers (.unary () .neg (.int () signedLimit)) rest)
      | none => (inner rest).map fun (t, rest) => (.unary () .neg t, rest)
    | .bang => (inner rest).map fun (t, rest) => (.unary () .not t, rest)
    | .number =>
      match Literal.readNumber l.literal.toList with
      | .ok (.int n) => some (readMembers (.int () n) (if n < signedLimit then rest else rest.tail))
      | .ok (.float value) => some (readMembers (.float () value) rest)
      | .error _ => none
    | .string => some (readMembers (.text () l.literal) rest)
    | .boolean => some (readMembers (.bool () (l.literal == "true")) rest)
    | .null => some (readMembers (.null ()) rest)
    | .lparen =>
      (inner rest).bind fun (lhs, rest) =>
        (rest.head?.bind fun operator => BinaryOp.ofKind? operator.kind).bind fun op =>
          (inner rest.tail).map fun (rhs, rest) => readMembers (.binary () op lhs rhs) rest.tail
    | .lbracket => (readItems inner rest).map fun (ts, rest) => readMembers (.array () ts) rest
    | .ident => readName (.ident () l.literal) l rest
    | .special name => readName (.special () name) l rest
    | _ => none
where
  /-- A name before an opening parenthesis is that of a function. -/
  readName (leaf : Expr Unit) (l : Lexeme) (rest : List Lexeme) :
      Option (Expr Unit × List Lexeme) :=
    if rest.head?.map (·.kind) = some .lparen then
      (readItems inner rest.tail).map fun (ts, rest) => readMembers (callOf l.literal ts) rest
    else some (readMembers leaf rest)

def reader : Nat → Reader
  | 0 => fun _ => none
  | levels + 1 => readStep (reader levels)

def members (names : List String) : List Lexeme :=
  names.flatMap fun name => [.symbol .dot, .word name]

def Ends (rest : List Lexeme) : Prop :=
  ∀ l ∈ rest.head?, l.kind ≠ .dot ∧ l.kind ≠ .lparen ∧ l.kind ≠ .ident

theorem ends_cons {kind : Kind} (h : kind ≠ .dot ∧ kind ≠ .lparen ∧ kind ≠ .ident)
    (rest : List Lexeme) : Ends (.symbol kind :: rest) := by
  intro l hl
  cases hl
  exact h

theorem Ends.head_members {rest : List Lexeme} (h : Ends rest) (names : List String) :
    ∀ l ∈ (members names ++ rest).head?, l.kind ≠ .lparen ∧ l.kind ≠ .ident := by
  intro l hl
  cases names with
  | nil => exact (h l hl).2
  | cons name names =>
    cases hl
    exact ⟨by decide, by decide⟩

theorem readMembers_members {rest : List Lexeme} (hrest : Ends rest) (t : Expr Unit)
    (names : List String) : readMembers t (members names ++ rest) =
      (names.foldl (fun t name => .attr () t name ()) t, rest) := by
  induction names generalizing t with
  | nil =>
    match rest with
    | [] => rfl
    | [l] => rfl
    | l :: m :: rest =>
      have hdot := (hrest l rfl).1
      simp [members, readMembers, hdot]
  | cons name names ih => exact ih _

/-- The reader gives a tree back in its one grouping, with the members that follow it. -/
def ReadBack (levels : Nat) (t : Expr Unit) : Prop :=
  ∀ (names : List String) {rest : List Lexeme}, Ends rest →
    reader levels (code t ++ (members names ++ rest)) = some (dottedAll (regroup t) names, rest)

/-- A tree without signs is read by reading its lexemes and then its members. -/
theorem readBack_of_solid {levels : Nat} {t : Expr Unit} (hsolid : Solid (regroup t))
    (h : ∀ ls : List Lexeme, (∀ l ∈ ls.head?, l.kind ≠ .lparen ∧ l.kind ≠ .ident) →
      readStep (reader levels) (code t ++ ls) = some (readMembers (regroup t) ls)) :
    ReadBack (levels + 1) t := by
  intro names rest hrest
  rw [reader, h _ (hrest.head_members names), readMembers_members hrest, hsolid.dottedAll]

theorem readBack_leaf {levels : Nat} {t : Expr Unit} (hlevels : 0 < levels)
    (hsolid : Solid (regroup t))
    (h : ∀ (inner : Reader) (ls : List Lexeme),
      (∀ l ∈ ls.head?, l.kind ≠ .lparen ∧ l.kind ≠ .ident) →
        readStep inner (code t ++ ls) = some (readMembers (regroup t) ls)) :
    ReadBack levels t := by
  obtain ⟨l, rfl⟩ := Nat.exists_eq_add_of_lt hlevels
  rw [Nat.zero_add]
  exact readBack_of_solid hsolid (h (reader l))

theorem readName_leaf {inner : Reader} {leaf : Expr Unit} {l : Lexeme} {ls : List Lexeme}
    (h : ∀ l ∈ ls.head?, l.kind ≠ .lparen ∧ l.kind ≠ .ident) :
    readStep.readName inner leaf l ls = some (readMembers leaf ls) := by
  unfold readStep.readName
  rw [if_neg]
  intro hhead
  obtain ⟨m, hm, hkind⟩ := Option.map_eq_some_iff.mp hhead
  exact (h m hm).1 hkind

theorem toString_injective {m n : Nat} (h : toString m = toString n) : m = n := by
  have hdigits := congrArg (fun s : String => Literal.positional 10 s.toList) h
  simpa [Literal.positional_toDigits] using hdigits

theorem leastSigned_of_ne {l : Lexeme} (h : l ≠ .number (toString signedLimit)) (ls : List Lexeme) :
    leastSigned? (l :: ls) = none := by
  rw [leastSigned?, if_neg fun hl => h hl.1]

theorem leastSigned_of_kind {l : Lexeme} (h : l.kind ≠ .number) (ls : List Lexeme) :
    leastSigned? (l :: ls) = none :=
  leastSigned_of_ne (fun heq => h (congrArg Lexeme.kind heq)) ls

theorem kind_word_ne_number (name : String) : (Lexeme.word name).kind ≠ .number :=
  Scan.wordKind_ne (by decide) (by decide) name.toList

/-- The least signed integer is no tree without its sign. -/
theorem Form.leastSigned {strict : Prop} {t : Expr Unit} (h : Form strict t) (ls : List Lexeme) :
    leastSigned? (code t ++ ls) = none := by
  induction h generalizing ls with
  | bool => exact leastSigned_of_kind (kind_word_ne_number _) ls
  | @int n =>
    rw [code, glyphs]
    split
    · next hlt =>
      refine leastSigned_of_ne (fun heq => ?_) ls
      exact Nat.ne_of_lt hlt (toString_injective (congrArg Lexeme.literal heq))
    · change leastSigned? (.number (toString n) :: .word "u" :: ls) = none
      rw [leastSigned?, if_neg]
      rintro ⟨-, hnext⟩
      exact hnext (.word "u") rfl rfl
  | @float value hfinite hsign =>
    refine leastSigned_of_ne (fun heq => ?_) ls
    obtain ⟨d, htext, hread⟩ := Decimal.display_decimal hfinite hsign
    have hliteral : Decimal.display.text value = toString signedLimit := congrArg Lexeme.literal heq
    rw [← htext, hliteral, readNumber_toString (by decide)] at hread
    cases hread
  | text => exact leastSigned_of_kind (by simp) ls
  | null => exact leastSigned_of_kind (kind_word_ne_number _) ls
  | ident => exact leastSigned_of_kind (kind_word_ne_number _) ls
  | special => exact leastSigned_of_kind (kind_word_ne_number _) ls
  | negated => exact leastSigned_of_kind (l := .symbol .minus) (by decide) _
  | @unary op _ _ hform hnone =>
    rw [code_unary _ hnone]
    exact leastSigned_of_kind (by cases op <;> decide) _
  | binary =>
    rw [code_binary]
    exact leastSigned_of_kind (by decide) _
  | attr _ _ _ ih =>
    rw [code_attr, List.append_assoc]
    exact ih _
  | call =>
    rw [code_callOf]
    exact leastSigned_of_kind (kind_word_ne_number _) _
  | array =>
    rw [code_array]
    exact leastSigned_of_kind (by decide) _

def Closes (closing : Kind) : Prop := closing = .rparen ∨ closing = .rbracket

theorem ReadBack.tree {levels : Nat} {t : Expr Unit} (h : ReadBack levels t) {rest : List Lexeme}
    (hrest : Ends rest) : reader levels (code t ++ rest) = some (regroup t, rest) :=
  h [] hrest

section Lists

variable {levels : Nat} {ts : List (Expr Unit)} {closing : Kind}

theorem ends_codeMore (hclosing : Closes closing) (ts : List (Expr Unit)) (rest : List Lexeme) :
    Ends (codeMore ts ++ .symbol closing :: rest) := by
  cases ts with
  | nil =>
    refine ends_cons ?_ rest
    rcases hclosing with rfl | rfl <;> decide
  | cons t ts =>
    rw [codeMore_cons]
    exact ends_cons (by decide) _

theorem readMore_codeMore (hclosing : Closes closing) (h : ∀ t ∈ ts, ReadBack levels t)
    {count : Nat} (hcount : ts.length < count) (rest : List Lexeme) :
    readMore (reader levels) count (codeMore ts ++ .symbol closing :: rest) =
      some (ts.map regroup, rest) := by
  induction ts generalizing count with
  | nil =>
    obtain ⟨count, rfl⟩ := Nat.exists_eq_add_of_lt hcount
    rcases hclosing with rfl | rfl <;> rfl
  | cons t ts ih =>
    obtain ⟨count, rfl⟩ := Nat.exists_eq_add_of_lt hcount
    have hfirst := (h t (by simp)).tree (ends_codeMore hclosing ts rest)
    have hlength : ts.length < (t :: ts).length + count := by
      rw [List.length_cons]
      omega
    have hmore := ih (fun u hu => h u (by simp [hu])) hlength
    have hcomma : (Lexeme.symbol .comma).kind = .comma := rfl
    rw [codeMore_cons, List.cons_append, List.append_assoc, readMore, if_pos hcomma, hfirst,
      Option.bind_some]
    dsimp only
    rw [hmore]
    rfl

theorem length_le_codeMore (ts : List (Expr Unit)) : ts.length ≤ (codeMore ts).length := by
  induction ts with
  | nil => exact Nat.le_refl 0
  | cons t ts ih =>
    rw [codeMore_cons]
    simp only [List.length_cons, List.length_append]
    omega

theorem readItems_codeItems (hclosing : Closes closing) (h : ∀ t ∈ ts, ReadBack levels t)
    (rest : List Lexeme) :
    readItems (reader levels) (codeItems ts ++ .symbol closing :: rest) =
      some (ts.map regroup, rest) := by
  cases ts with
  | nil =>
    have hnone : reader levels (.symbol closing :: rest) = none := by
      cases levels with
      | zero => rfl
      | succ levels => rcases hclosing with rfl | rfl <;> rfl
    rw [codeItems_nil, List.nil_append, readItems, hnone]
    rfl
  | cons t ts =>
    have hfirst := (h t (by simp)).tree (ends_codeMore hclosing ts rest)
    have hcount : ts.length < (codeMore ts ++ .symbol closing :: rest).length := by
      have := length_le_codeMore ts
      simp only [List.length_append, List.length_cons]
      omega
    have hmore := readMore_codeMore hclosing (fun u hu => h u (by simp [hu])) hcount rest
    rw [codeItems_cons, List.append_assoc, readItems, hfirst]
    dsimp only
    rw [hmore]
    rfl

end Lists

theorem ofKind_operatorKind (op : BinaryOp) : BinaryOp.ofKind? (operatorKind op) = some op := by
  cases op <;> rfl

theorem ends_operator (op : BinaryOp) (rest : List Lexeme) :
    Ends (.symbol (operatorKind op) :: rest) :=
  ends_cons (by cases op <;> decide) rest

section Steps

variable (inner : Reader) {text : String} (ls : List Lexeme)

theorem readStep_int {n : Nat} (h : Literal.readNumber text.toList = .ok (.int n)) :
    readStep inner (.number text :: ls) =
      some (readMembers (.int () n) (if n < signedLimit then ls else ls.tail)) := by
  unfold readStep
  dsimp only [Lexeme.number]
  rw [h]

theorem readStep_float {value : Decimal.Double}
    (h : Literal.readNumber text.toList = .ok (.float value)) :
    readStep inner (.number text :: ls) = some (readMembers (.float () value) ls) := by
  unfold readStep
  dsimp only [Lexeme.number]
  rw [h]

theorem readStep_sign {op : UnaryOp} {symbol : String} (hop : unaryForm op = .native symbol)
    (hleast : leastSigned? ls = none) : readStep inner (.symbol (Grammar.signKind op) :: ls) =
      (inner ls).map fun (t, rest) => (.unary () op t, rest) := by
  cases op <;> cases hop
  · rfl
  · change (match leastSigned? ls with
      | some rest => some (readMembers (.unary () .neg (.int () signedLimit)) rest)
      | none => (inner ls).map fun (t, rest) => (.unary () .neg t, rest)) = _
    rw [hleast]

theorem readStep_group {op : BinaryOp} {lhs rhs : Expr Unit} {opened rest : List Lexeme}
    (hlhs : inner opened = some (lhs, .symbol (operatorKind op) :: rest))
    (hrhs : inner rest = some (rhs, .symbol .rparen :: ls)) :
    readStep inner (.symbol .lparen :: opened) = some (readMembers (.binary () op lhs rhs) ls) := by
  change (inner opened).bind _ = _
  rw [hlhs]
  change (BinaryOp.ofKind? (operatorKind op)).bind _ = _
  rw [ofKind_operatorKind]
  change (inner rest).map _ = _
  rw [hrhs]
  rfl

theorem readStep_array {ts : List (Expr Unit)} {opened : List Lexeme}
    (h : readItems inner opened = some (ts, ls)) :
    readStep inner (.symbol .lbracket :: opened) = some (readMembers (.array () ts) ls) := by
  change (readItems inner opened).map _ = _
  rw [h]
  rfl

theorem readStep_call {name : String} (hname : IsMember name) {ts : List (Expr Unit)}
    {opened : List Lexeme} (h : readItems inner opened = some (ts, ls)) :
    readStep inner (.word name :: .symbol .lparen :: opened) =
      some (readMembers (callOf name ts) ls) := by
  have hcall (leaf : Expr Unit) :
      readStep.readName inner leaf (.word name) (.symbol .lparen :: opened) =
        some (readMembers (callOf name ts) ls) := by
    change (readItems inner opened).map _ = _
    rw [h]
    rfl
  obtain ⟨-, hkind | hkind⟩ := hname
  · have hword : (Lexeme.word name).kind = .ident := hkind
    rw [readStep, hword]
    exact hcall _
  · obtain ⟨special, hword⟩ : ∃ special, (Lexeme.word name).kind = .special special :=
      Kind.exists_special hkind
    rw [readStep, hword]
    exact hcall _

end Steps

theorem readBack_int {levels n : Nat} (hlevels : 0 < levels) (hsize : n < UInt64.size) :
    ReadBack levels (.int () n) := by
  refine readBack_leaf hlevels (fun _ => rfl) fun inner ls _ => ?_
  have hread := readNumber_toString hsize
  by_cases hlt : n < signedLimit
  · rw [code_signed hlt, List.singleton_append, readStep_int inner ls hread, if_pos hlt]
    rfl
  · have hcode : code (.int () n) = [.number (toString n), .word "u"] := by
      rw [code, glyphs, if_neg hlt]
      rfl
    rw [hcode, List.cons_append, List.singleton_append, readStep_int inner _ hread, if_neg hlt]
    rfl

theorem readBack_negated {levels n : Nat} (hlevels : 1 < levels) (hn : n ≤ signedLimit) :
    ReadBack levels (.unary () .neg (.int () n)) := by
  obtain ⟨l, rfl⟩ : ∃ l, levels = l + 1 := ⟨levels - 1, by omega⟩
  rcases Nat.lt_or_eq_of_le hn with hlt | rfl
  · intro names rest hrest
    have hne : n ≠ signedLimit := Nat.ne_of_lt hlt
    have hleast (ls : List Lexeme) : leastSigned? (.number (toString n) :: ls) = none :=
      leastSigned_of_ne (fun heq => hne (toString_injective (congrArg Lexeme.literal heq))) ls
    have hsize : n < UInt64.size := Nat.lt_trans hlt (by decide)
    have hint := readBack_int (Nat.lt_of_succ_lt_succ hlevels) hsize names hrest
    rw [code_signed hlt, List.singleton_append] at hint
    have hunary : negated? .neg (.int () n) ≠ some signedLimit :=
      fun heq => hne (Option.some.inj heq)
    change readStep (reader l)
      (.symbol (Grammar.signKind .neg) :: .number (toString n) :: (members names ++ rest)) = _
    rw [readStep_sign (reader l) _ rfl (hleast _), hint]
    exact congrArg (fun t => some (t, rest)) (dottedAll_unary hunary names).symm
  · refine readBack_of_solid (fun _ => if_pos rfl) fun ls hls => ?_
    have hleast : leastSigned? (.number (toString signedLimit) :: ls) = some ls :=
      if_pos ⟨rfl, fun l hl => (hls l hl).2⟩
    change (match leastSigned? (.number (toString signedLimit) :: ls) with
      | some rest => some (readMembers (.unary () .neg (.int () signedLimit)) rest)
      | none => (reader l _).map fun (t, rest) => (.unary () .neg t, rest)) = _
    rw [hleast]
    rfl

/-- Every target tree is read back in its one grouping. -/
theorem Form.readBack {strict : Prop} {t : Expr Unit} (h : Form strict t) (levels : Nat)
    (hlevels : t.height ≤ levels) : ReadBack levels t := by
  induction h generalizing levels with
  | @bool value =>
    refine readBack_leaf hlevels (fun _ => rfl) fun inner ls _ => ?_
    cases value <;> rfl
  | int hsize => exact readBack_int hlevels hsize
  | @float value hfinite hsign =>
    refine readBack_leaf hlevels (fun _ => rfl) fun inner ls _ => ?_
    obtain ⟨d, htext, hread⟩ := Decimal.display_decimal hfinite hsign
    exact readStep_float inner ls (htext ▸ hread)
  | text => exact readBack_leaf hlevels (fun _ => rfl) fun inner ls _ => rfl
  | null => exact readBack_leaf hlevels (fun _ => rfl) fun inner ls _ => rfl
  | @ident name hname =>
    refine readBack_leaf hlevels (fun _ => rfl) fun inner ls hls => ?_
    have hkind : (Lexeme.word name).kind = .ident := hname.2
    change readStep inner (.word name :: ls) = _
    rw [readStep, hkind]
    exact readName_leaf hls
  | @special name =>
    refine readBack_leaf hlevels (fun _ => rfl) fun inner ls hls => ?_
    cases name <;> exact readName_leaf hls
  | negated hn => exact readBack_negated hlevels hn
  | @unary op symbol operand hform hnone hoperand ih =>
    intro names rest hrest
    rw [Expr.height] at hlevels
    obtain ⟨l, rfl⟩ : ∃ l, levels = l + 1 := ⟨levels - 1, by omega⟩
    have hregroup : negated? op (regroup operand) ≠ some signedLimit := by
      simp [negated_regroup, hnone]
    rw [code_unary operand hnone, List.cons_append, reader,
      readStep_sign (reader l) _ hform (hoperand.leastSigned _), ih l (by omega) names hrest,
      regroup, dottedAll_unary hregroup]
    rfl
  | @binary op symbol lhs rhs hform _ _ ihl ihr =>
    rw [Expr.height] at hlevels
    obtain ⟨l, rfl⟩ : ∃ l, levels = l + 1 := ⟨levels - 1, by omega⟩
    refine readBack_of_solid (fun _ => rfl) fun ls _ => ?_
    have hlhs := (ihl l (by omega)).tree (ends_operator op (code rhs ++ .symbol .rparen :: ls))
    have hends : Ends (.symbol .rparen :: ls) := ends_cons (by decide) ls
    have hrhs := (ihr l (by omega)).tree hends
    have hcode : code (.binary () op lhs rhs) ++ ls = .symbol .lparen ::
        (code lhs ++ .symbol (operatorKind op) :: (code rhs ++ .symbol .rparen :: ls)) := by
      simp [code_binary]
    rw [hcode]
    exact readStep_group (reader l) ls hlhs hrhs
  | @attr object name hname hsigned _ ih =>
    intro names rest hrest
    rw [Expr.height] at hlevels
    have hread := ih levels (by omega) (name :: names) hrest
    rw [code_attr, List.append_assoc, regroup]
    exact hread
  | @call name args hmember hname _ ih =>
    rw [callOf, Expr.height] at hlevels
    obtain ⟨l, rfl⟩ : ∃ l, levels = l + 1 := ⟨levels - 1, by omega⟩
    refine readBack_of_solid (fun _ => rfl) fun ls _ => ?_
    have hargs (x : Expr Unit) (hx : x ∈ args) : ReadBack l x := by
      have hheight := Expr.height_le_heightList hx
      exact ih x hx l (by omega)
    have hitems := readItems_codeItems (.inl rfl) hargs ls
    have hcode : code (callOf name args) ++ ls =
        .word name :: .symbol .lparen :: (codeItems args ++ .symbol .rparen :: ls) := by
      simp [code_callOf]
    rw [hcode, callOf, regroup, regroupList_eq_map]
    exact readStep_call (reader l) ls hmember hitems
  | @array elements _ ih =>
    rw [Expr.height] at hlevels
    obtain ⟨l, rfl⟩ : ∃ l, levels = l + 1 := ⟨levels - 1, by omega⟩
    refine readBack_of_solid (fun _ => rfl) fun ls _ => ?_
    have helements (x : Expr Unit) (hx : x ∈ elements) : ReadBack l x := by
      have hheight := Expr.height_le_heightList hx
      exact ih x hx l (by omega)
    have hitems := readItems_codeItems (.inr rfl) helements ls
    rw [code_array, List.cons_append, List.append_assoc, regroup, regroupList_eq_map]
    exact readStep_array (reader l) ls hitems

/-! ## The text of a grouping -/

/-- Inside the signs or after them, a member is written in the same place. -/
theorem Form.dotted {t : Expr Unit} (h : Form False t) {name : String} (hname : IsMember name) :
    Form False (dotted name t) ∧ glyphs (dotted name t) = glyphs (.attr () t name ()) := by
  have hafter : Form False (.attr () t name ()) := .attr hname False.elim h
  induction h with
  | @negated n hn =>
    unfold Target.dotted
    split
    · exact ⟨hafter, rfl⟩
    · next hne =>
      have hlt : n < signedLimit := Nat.lt_of_le_of_ne hn fun heq => hne (congrArg some heq)
      have hint : Form False (.int () n) := .int (Nat.lt_trans hlt (by decide)) False.elim
      refine ⟨.unary rfl rfl (.attr hname False.elim hint), ?_⟩
      simp [Target.dotted, glyphs, hlt, Grammar.signKind]
  | @unary op symbol operand hop hnone hoperand ih =>
    obtain ⟨hform, hglyphs⟩ := ih (.attr hname False.elim hoperand)
    have hne : ¬ negated? op operand = some signedLimit := by simp [hnone]
    have hdotted := negated_dotted op name operand
    rw [Target.dotted, if_neg hne]
    refine ⟨.unary hop hdotted hform, ?_⟩
    rw [glyphs_unary hdotted, hglyphs, glyphs, glyphs, glyphs_unary hnone, List.cons_append]
  | _ => exact ⟨hafter, rfl⟩

theorem glyphs_lists {f : Expr Unit → Expr Unit} {ts : List (Expr Unit)}
    (h : ∀ t ∈ ts, glyphs (f t) = glyphs t) :
    glyphs.more (ts.map f) = glyphs.more ts ∧ glyphs.items (ts.map f) = glyphs.items ts := by
  induction ts with
  | nil => exact ⟨rfl, rfl⟩
  | cons t ts ih =>
    obtain ⟨hmore, -⟩ := ih fun u hu => h u (List.mem_cons_of_mem t hu)
    have hfirst := h t List.mem_cons_self
    simp [glyphs.more, glyphs.items, hfirst, hmore]

/-- A tree and its grouping have one text. -/
theorem Form.regroup {strict : Prop} {t : Expr Unit} (h : Form strict t) :
    Form False (regroup t) ∧ glyphs (regroup t) = glyphs t := by
  induction h with
  | int hsize => exact ⟨.int hsize False.elim, rfl⟩
  | bool => exact ⟨.bool, rfl⟩
  | float hfinite hsign => exact ⟨.float hfinite hsign, rfl⟩
  | text => exact ⟨.text, rfl⟩
  | null => exact ⟨.null, rfl⟩
  | ident hname => exact ⟨.ident hname, rfl⟩
  | special => exact ⟨.special, rfl⟩
  | negated hn => exact ⟨.negated hn, rfl⟩
  | @unary op symbol operand hop hnone _ ih =>
    have hregroup := (negated_regroup op operand).trans hnone
    refine ⟨.unary hop hregroup ih.1, ?_⟩
    rw [Target.regroup, glyphs_unary hregroup, glyphs_unary hnone, ih.2]
  | binary hop _ _ ihl ihr =>
    refine ⟨.binary hop ihl.1 ihr.1, ?_⟩
    rw [Target.regroup, glyphs, glyphs, ihl.2, ihr.2]
  | attr hname _ _ ih =>
    obtain ⟨hform, hglyphs⟩ := ih.1.dotted hname
    refine ⟨hform, ?_⟩
    rw [Target.regroup, hglyphs, glyphs, glyphs, ih.2]
  | @call name args hname _ _ ih =>
    obtain ⟨-, hitems⟩ := glyphs_lists fun x hx => (ih x hx).2
    rw [callOf, Target.regroup, regroupList_eq_map]
    refine ⟨.call hname False.elim (List.forall_mem_map.mpr fun x hx => (ih x hx).1), ?_⟩
    simp only [glyphs, hitems]
  | @array elements _ ih =>
    obtain ⟨-, hitems⟩ := glyphs_lists fun x hx => (ih x hx).2
    rw [Target.regroup, regroupList_eq_map]
    refine ⟨.array (List.forall_mem_map.mpr fun x hx => (ih x hx).1), ?_⟩
    rw [glyphs, glyphs, hitems]

theorem dotted_lowered {e : Expr Span} (h : e.isSigned = false) (name : String) :
    dotted name (lowered e) = .attr () (lowered e) name () := by
  cases e with
  | unary loc op operand =>
    cases op with
    | bitNot => rfl
    | _ => cases h
  | binary loc op lhs rhs => cases op <;> rfl
  | attr loc object name nameLoc => rw [lowered]; split <;> rfl
  | call loc callee args => cases callee <;> rfl
  | cast loc operand type typeLoc => rw [lowered]; split <;> rfl
  | _ => rfl

/-- A tree that takes no member of a signed operand is grouped as its text is. -/
theorem Lowerable.regroup {e : Expr Span} (h : Lowerable e)
    (hdots : ∀ x ∈ e.values, x.dotsSigned = false) : regroup (lowered e) = lowered e := by
  induction e using Expr.induction_operands with
  | step e ih =>
  have hoperands (x : Expr Span) (hx : x ∈ e.operands) :
      Target.regroup (lowered x) = lowered x := by
    apply ih x hx (h.operand hx)
    intro y hy
    exact hdots y (Expr.values_operand_subset hx hy)
  have hlist : regroup.regroupList (e.operands.map lowered) = e.operands.map lowered := by
    rw [regroupList_eq_map, List.map_map]
    exact List.map_congr_left hoperands
  have hshape := h.shape
  generalize lowered e = t at hshape
  cases hshape with
  | leaf hleaf =>
    cases e with
    | bool | int | float | text | null | ident | special => rfl
    | _ => cases hleaf
  | unary => rw [Target.regroup, hoperands _ List.mem_cons_self]
  | @binary loc op lhs rhs =>
    rw [Target.regroup, hoperands lhs List.mem_cons_self,
      hoperands rhs (List.mem_cons_of_mem lhs List.mem_cons_self)]
  | @attr loc object name nameLoc hname =>
    have hsigned := hdots _ (Expr.mem_values _)
    rw [Target.regroup, hoperands object List.mem_cons_self]
    exact dotted_lowered (by simpa [Expr.dotsSigned, hname] using hsigned) name
  | array => exact congrArg (Expr.array ()) hlist
  | call => exact congrArg (Expr.call () _) hlist
  | sizeof => rfl

/-- Trees have the same text just if they have the same grouping. -/
theorem print_eq_print_iff {strict : Prop} {t u : Expr Unit} (ht : Form strict t)
    (hu : Form strict u) : print t = print u ↔ regroup t = regroup u := by
  constructor
  · intro hprint
    have hcode : code t = code u := by
      rw [← map_toLexeme_tokens_print ht, ← map_toLexeme_tokens_print hu, hprint]
    have hends : Ends [] := by
      intro l hl
      cases hl
    have htree := (ht.readBack _ (Nat.le_max_left t.height u.height)).tree hends
    have hother := (hu.readBack _ (Nat.le_max_right t.height u.height)).tree hends
    rw [hcode, hother] at htree
    exact (Prod.mk.inj (Option.some.inj htree)).1.symm
  · intro hregroup
    rw [print, print, ← ht.regroup.2, ← hu.regroup.2, hregroup]

/-- Two sources have one target text just if their target trees differ in nothing but whether a
member is taken inside or outside the signs before it. Where neither tree takes a member of a signed
operand, one text is one tree. -/
theorem target_texts_eq_iff_regroup_eq {source₁ source₂ target₁ target₂ : String}
    {e₁ e₂ : Expr Span} (hread₁ : readExpr source₁ = .ok e₁) (hread₂ : readExpr source₂ = .ok e₂)
    (htarget₁ : compileToTarget source₁ = .ok target₁)
    (htarget₂ : compileToTarget source₂ = .ok target₂) :
    (target₁ = target₂ ↔ regroup (lowered e₁) = regroup (lowered e₂)) ∧
      ((∀ x ∈ e₁.values, x.dotsSigned = false) → (∀ x ∈ e₂.values, x.dotsSigned = false) →
        target₁ = target₂ → lowered e₁ = lowered e₂) := by
  obtain ⟨hlowerable₁, rfl⟩ := compileToTarget_eq_ok hread₁ htarget₁
  obtain ⟨hlowerable₂, rfl⟩ := compileToTarget_eq_ok hread₂ htarget₂
  have hform₁ : Form False (lowered e₁) :=
    hlowerable₁.form ⟨spellable_of_readExpr hread₁, False.elim⟩
  have hform₂ : Form False (lowered e₂) :=
    hlowerable₂.form ⟨spellable_of_readExpr hread₂, False.elim⟩
  have htexts : String.ofList (print (lowered e₁)) = String.ofList (print (lowered e₂)) ↔
      regroup (lowered e₁) = regroup (lowered e₂) := by
    rw [String.ofList_inj, print_eq_print_iff hform₁ hform₂]
  refine ⟨htexts, fun hdots₁ hdots₂ htarget => ?_⟩
  rw [← hlowerable₁.regroup hdots₁, ← hlowerable₂.regroup hdots₂]
  exact htexts.mp htarget

theorem target_texts_eq_iff_regroup_eq_ternary : ∃ source₁ source₂ target e₁ e₂,
    readExpr source₁ = .ok e₁ ∧ readExpr source₂ = .ok e₂ ∧
    compileToTarget source₁ = .ok target ∧ compileToTarget source₂ = .ok target ∧
    (∀ x ∈ e₁.values, x.dotsSigned = false) ∧ (∀ x ∈ e₂.values, x.dotsSigned = false) ∧
    regroup (lowered e₁) = regroup (lowered e₂) ∧ lowered e₁ = lowered e₂ := by
  obtain ⟨e₁, hread₁, htarget₁, he₁⟩ := exists_tree_of_compile "-x.y ? [1, 2.5] : ~z[\"k\"]"
    "ternary(-x.y, [1, 2.5], bitNot(at(z, \"k\")))" (fun e => e.values.all fun x => !x.dotsSigned)
    (by decide +kernel) (by decide +kernel)
  obtain ⟨e₂, hread₂, htarget₂, he₂⟩ := exists_tree_of_compile
    "ternary(-(x.y), [1, 2.5,], bitNot(at(z, 'k')))"
    "ternary(-x.y, [1, 2.5], bitNot(at(z, \"k\")))" (fun e => e.values.all fun x => !x.dotsSigned)
    (by decide +kernel) (by decide +kernel)
  simp only [List.all_eq_true, Bool.not_eq_true'] at he₁ he₂
  obtain ⟨htexts, htrees⟩ := target_texts_eq_iff_regroup_eq hread₁ hread₂ htarget₁ htarget₂
  exact ⟨_, _, _, e₁, e₂, hread₁, hread₂, htarget₁, htarget₂, he₁, he₂, htexts.mp rfl,
    htrees he₁ he₂ rfl⟩

/-- A member of a negation and the negation of a member have one target text. -/
theorem target_text_merges_signed_member : ∃ source₁ source₂ target e₁ e₂,
    readExpr source₁ = .ok e₁ ∧ readExpr source₂ = .ok e₂ ∧
    compileToTarget source₁ = .ok target ∧ compileToTarget source₂ = .ok target ∧
    lowered e₁ ≠ lowered e₂ := by
  obtain ⟨e₁, hread₁, htarget₁, he₁⟩ := exists_tree_of_compile "(-x).y" "-x.y"
    (fun e => !e.isSigned) (by decide +kernel) (by decide +kernel)
  obtain ⟨e₂, hread₂, htarget₂, he₂⟩ := exists_tree_of_compile "-(x.y)" "-x.y"
    (fun e => e.isSigned) (by decide +kernel) (by decide +kernel)
  refine ⟨_, _, _, e₁, e₂, hread₁, hread₂, htarget₁, htarget₂, fun heq => ?_⟩
  rw [← isSigned_lowered, heq, isSigned_lowered, he₂] at he₁
  cases he₁

end SchemaExpr.Target
