import SchemaExpr.Proofs.Grammar

/-!
# What is read without errors is a phrase

A parser that reports nothing has read a phrase of the grammar and yields its tree and height. The
invariant of the loop over operators is `Stage`: the tree so far is a chain, or a phrase of some
stratum after which nothing comes that binds tighter. The latter is what the right operand of the
last operator leaves behind, and it is why an operator that is found next never has to reach into
the tree that is already built.
-/
namespace SchemaExpr

namespace Parser

variable {α β : Type}

/-- When `p` reports nothing, it yields a value for which `post` holds of the tokens that were read,
the value, and the tokens that are left. -/
def Yields (p : Parser α) (post : List Token → α → List Token → Prop) : Prop :=
  ∀ ts, (p ts).errors = [] →
    ∃ a used, (p ts).value = some a ∧ ts = used ++ (p ts).rest ∧ post used a (p ts).rest

theorem Yields.mono {p : Parser α} {post post' : List Token → α → List Token → Prop}
    (hp : p.Yields post) (himp : ∀ used a rest, post used a rest → post' used a rest) :
    p.Yields post' := by
  intro ts herr
  obtain ⟨a, used, hvalue, hsplit, hpost⟩ := hp ts herr
  exact ⟨a, used, hvalue, hsplit, himp _ _ _ hpost⟩

theorem yields_pure (a : α) :
    (pure a : Parser α).Yields fun used b _ => used = [] ∧ b = a :=
  fun _ _ => ⟨a, [], rfl, rfl, rfl, rfl⟩

theorem yields_fail (fault : Fault) (span : Span) (post : List Token → α → List Token → Prop) :
    (fail fault span : Parser α).Yields post := by
  intro ts herr
  cases herr

/-- The rule for a second parser that needs to know what the first one left. -/
theorem Yields.bind_of {p : Parser α} {f : α → Parser β}
    {first : List Token → α → List Token → Prop} {post : List Token → β → List Token → Prop}
    (hp : p.Yields first)
    (hf : ∀ us a ts, first us a ts → (f a ts).errors = [] →
      ∃ b vs, (f a ts).value = some b ∧ ts = vs ++ (f a ts).rest ∧
        post (us ++ vs) b (f a ts).rest) :
    (p >>= f).Yields post := by
  change (andThen p f).Yields _
  intro ts herr
  unfold andThen at *
  cases hvalue : (p ts).value with
  | none =>
    simp only [hvalue] at herr
    obtain ⟨a, used, hsome, -⟩ := hp ts herr
    simp [hvalue] at hsome
  | some a =>
    simp only [hvalue, List.append_eq_nil_iff] at herr ⊢
    obtain ⟨a', us, hsome, hsplit, hfirst⟩ := hp ts herr.1
    obtain rfl : a = a' := by simpa [hvalue] using hsome
    obtain ⟨b, vs, hb, hrest, hpost⟩ := hf us a (p ts).rest hfirst herr.2
    refine ⟨b, us ++ vs, hb, ?_, hpost⟩
    rw [List.append_assoc, ← hrest, ← hsplit]

theorem Yields.bind {p : Parser α} {f : α → Parser β}
    {first : List Token → α → List Token → Prop} {second : α → List Token → β → List Token → Prop}
    (hp : p.Yields first) (hf : ∀ a, (f a).Yields (second a)) :
    (p >>= f).Yields fun used b rest =>
      ∃ us a vs, used = us ++ vs ∧ first us a (vs ++ rest) ∧ second a vs b rest := by
  refine hp.bind_of fun us a ts hfirst herr => ?_
  obtain ⟨b, vs, hb, hrest, hsecond⟩ := hf a ts herr
  exact ⟨b, vs, hb, hrest, us, a, vs, rfl, hrest ▸ hfirst, hsecond⟩

theorem yields_expect (stop : Span) (kind : Kind) :
    (expect stop kind).Yields fun used t _ => used = [t] ∧ t.kind = kind := by
  intro ts herr
  cases ts with
  | nil => cases herr
  | cons t ts =>
    simp only [expect] at herr ⊢
    split at herr
    · next hkind =>
      simp only [hkind, ↓reduceIte]
      exact ⟨t, [t], rfl, rfl, rfl, hkind⟩
    · cases herr

/-- A parser that reports nothing when it fails to read does not hide a failure behind `attempt`. -/
theorem Yields.attempt {p : Parser α} {post : List Token → α → List Token → Prop}
    (hp : p.Yields post) :
    p.attempt.Yields fun used o rest => ∃ a, o = some a ∧ post used a rest := by
  intro ts herr
  obtain ⟨a, used, hvalue, hsplit, hpost⟩ := hp ts herr
  exact ⟨some a, used, congrArg some hvalue, hsplit, a, rfl, hpost⟩

end Parser

namespace Grammar

open Parser

def continues (floor : Nat) (kind : Kind) : Bool :=
  match kind with
  | .dot | .lparen | .lbracket => true
  | .question => floor == 0
  | kind =>
    match BinaryOp.ofKind? kind with
    | some op => floor ≤ op.tier
    | none => false

def Stops (floor : Nat) (ts : List Token) : Prop :=
  ∀ t ∈ ts.head?, continues floor t.kind = false

theorem stops_nil (floor : Nat) : Stops floor [] := by simp [Stops]

@[simp] theorem stops_cons {floor : Nat} {t : Token} {ts : List Token} :
    Stops floor (t :: ts) ↔ continues floor t.kind = false := by
  simp [Stops]

theorem continues_of_operator {floor k : Nat} {kind : Kind} {op : BinaryOp}
    (hop : (kind, op) ∈ operators k) : continues floor kind = decide (floor ≤ k) := by
  obtain ⟨hkind, rfl⟩ := mem_operators_iff.mp hop
  unfold BinaryOp.ofKind? at hkind
  split at hkind <;> cases hkind <;> rfl

theorem continues_antitone {floor floor' : Nat} (hle : floor ≤ floor') {kind : Kind}
    (h : continues floor kind = false) : continues floor' kind = false := by
  unfold continues at *
  split at h
  · contradiction
  · contradiction
  · contradiction
  · simp only [beq_eq_false_iff_ne] at h ⊢
    omega
  · split at h
    · simp only [decide_eq_false_iff_not] at h ⊢
      omega
    · rfl

theorem Stops.antitone {floor floor' : Nat} {ts : List Token} (hle : floor ≤ floor')
    (h : Stops floor ts) : Stops floor' ts :=
  fun t ht => continues_antitone hle (h t ht)

theorem continuation_eq_none_iff {stop : Span} {inner : Nested} {floor : Nat} {lhs : Subtree}
    {t : Token} :
    (inner.reading stop).continuation floor lhs t = none ↔ continues floor t.kind = false := by
  unfold Reading.continuation continues
  split
  · simp_all
  · simp_all
  · simp_all
  · split <;> simp_all
  · split
    · split <;> simp_all
    · simp_all

def Measured (s : Subtree) : Prop := s.height = s.tree.height

/-- Whatever `inner` reads without errors is a phrase of `g`, and nothing that could still extend it
is left. -/
def Sound (inner : Nested) (g : Language) : Prop :=
  ∀ floor ≤ operandFloor, (inner.run floor).Yields fun used s rest =>
    g floor used s.tree ∧ Measured s ∧ s.height ≤ maxDepth ∧ Stops floor rest

/-- The stratum from which on a phrase of stratum `k` does not go on. -/
def ceiling (k : Nat) : Nat := if k = 0 then 0 else k + 1

/-- The tree of the tokens read so far, with the tokens that follow: a chain, which anything may
extend, or a phrase of a stratum that is not below the floor, which nothing tighter extends. -/
def Stage (g : Language) (floor : Nat) (used : List Token) (e : Expr Span) (rest : List Token) :
    Prop :=
  Chain g used e ∨ ∃ k, floor ≤ k ∧ Phrase g k used e ∧ Stops (ceiling k) rest

theorem Phrase.of_le {g : Language} {k k' : Nat} {ts : List Token} {e : Expr Span}
    (h : Phrase g k ts e) (hle : k' ≤ k) (hk : k ≤ operandFloor) : Phrase g k' ts e := by
  obtain ⟨d, rfl⟩ := Nat.exists_eq_add_of_le hle
  induction d with
  | zero => exact h
  | succ d ih => exact ih (.tighter (by omega) h) (by omega) (by omega)

theorem Phrase.stratum_le {g : Language} {k : Nat} {ts : List Token} {e : Expr Span}
    (h : Phrase g k ts e) : k ≤ operandFloor := by
  induction h with
  | chain => exact Nat.le_refl _
  | unary => exact Nat.le_refl _
  | tighter hk => exact Nat.le_of_lt hk
  | binary _ _ _ ih => exact ih
  | ternary => exact Nat.zero_le _

theorem Stage.of_floor {g : Language} {floor floor' : Nat} {used rest : List Token} {e : Expr Span}
    (h : Stage g floor' used e rest) (hle : floor ≤ floor') : Stage g floor used e rest := by
  rcases h with h | ⟨k, hk, h⟩
  · exact .inl h
  · exact .inr ⟨k, Nat.le_trans hle hk, h⟩

theorem Stage.phrase {g : Language} {floor : Nat} {used rest : List Token} {e : Expr Span}
    (h : Stage g floor used e rest) (hfloor : floor ≤ operandFloor) : Phrase g floor used e := by
  rcases h with h | ⟨k, hk, h, -⟩
  · exact (Phrase.chain h).of_le hfloor (Nat.le_refl _)
  · exact h.of_le hk h.stratum_le

theorem maxHeight_eq {items : List Subtree} (h : ∀ s ∈ items, Measured s) :
    Subtree.maxHeight items = Expr.height.heightList (items.map (·.tree)) := by
  induction items with
  | nil => rfl
  | cons s items ih =>
    have hs : s.height = s.tree.height := h s (by simp)
    have htail := ih fun s' hs' => h s' (by simp [hs'])
    simp [Subtree.maxHeight, Expr.height.heightList, hs, htail]

section Level

variable {stop : Span} {inner : Nested} {g : Language}

/-- Elements that are read without errors are items, up to the closer or to the end. -/
theorem elements_sound (hinner : Sound inner g) {closer : Kind} (heof : closer ≠ .eof)
    (ts : List Token) (herr : (elements stop inner closer ts).errors = []) :
    ∃ used, ts = used ++ (elements stop inner closer ts).rest ∧
      Items (g 0) used ((elements stop inner closer ts).items.map (·.tree)) ∧
      ∀ s ∈ (elements stop inner closer ts).items, Measured s := by
  induction ts using elements_induction stop inner closer with
  | nil =>
    rw [elements_nil]
    exact ⟨[], rfl, .nil, by simp⟩
  | closed t ts hcloser =>
    rw [elements_cons_of_eq stop inner ts hcloser]
    exact ⟨[], rfl, .nil, by simp⟩
  | cons t ts hcloser ih =>
    rw [elements_cons_of_ne stop inner ts hcloser] at herr ⊢
    simp only [List.append_eq_nil_iff] at herr ⊢
    obtain ⟨hitem, hsep, hmore⟩ := herr
    obtain ⟨s, used, hvalue, hsplit, hderives, hmeasured, -, -⟩ :=
      hinner 0 (Nat.zero_le _) (t :: ts) hitem
    generalize inner.run 0 (t :: ts) = item at *
    have hafter : afterElement closer item = item.rest := by simp [afterElement, hvalue]
    rw [hafter] at ih hsep hmore ⊢
    cases hrest : item.rest with
    | nil => simp [hrest, separator, current, Lexeme.eof, Ne.symm heof] at hsep
    | cons c rest =>
      rw [hrest] at ih hsep hmore hsplit
      by_cases hcomma : c.kind = .comma
      · have hcut : separator stop closer (c :: rest) = ⟨some (), rest, []⟩ := by
          simp [separator, current, hcomma]
        rw [hcut] at ih hmore ⊢
        obtain ⟨tail, htail, hitems, hall⟩ := ih hmore
        refine ⟨used ++ c :: tail, ?_, ?_, ?_⟩
        · rw [hsplit, List.append_assoc, List.cons_append, ← htail]
        · simpa [hvalue] using Items.cons hderives hcomma hitems
        · simpa [hvalue, hmeasured] using hall
      · by_cases hclose : c.kind = closer
        · have hcut : separator stop closer (c :: rest) = ⟨some (), c :: rest, []⟩ := by
            simp [separator, current, hclose, hclose ▸ hcomma]
          rw [hcut, elements_cons_of_eq stop inner rest hclose]
          refine ⟨used, hsplit, ?_, ?_⟩
          · simpa [hvalue] using Items.last hderives
          · simpa [hvalue] using hmeasured
        · simp [separator, current, hcomma, hclose] at hsep

theorem list_yields (hinner : Sound inner g) {closer : Kind} (heof : closer ≠ .eof) :
    (list stop inner closer).Yields fun used a _ => ∃ ts closing, used = ts ++ [closing] ∧
      Items (g 0) ts (a.1.map (·.tree)) ∧ closing.kind = closer ∧ a.2 = some closing.span ∧
      Subtree.maxHeight a.1 = Expr.height.heightList (a.1.map (·.tree)) := by
  intro ts herr
  simp only [list, List.append_eq_nil_iff] at herr
  obtain ⟨used, hsplit, hitems, hall⟩ := elements_sound hinner heof ts herr.1
  obtain ⟨closing, last, hvalue, hrest, rfl, hkind⟩ := yields_expect stop closer _ herr.2
  refine ⟨_, used ++ [closing], rfl, ?_, used, closing, rfl, hitems, hkind, ?_, ?_⟩
  · simp only [list, List.append_assoc]
    rw [← hrest, ← hsplit]
  · simp [hvalue]
  · exact maxHeight_eq hall

theorem unary_yields (hinner : Sound inner g) {op : UnaryOp} {sign : Token}
    (hsign : sign.kind = signKind op) :
    ((inner.reading stop).unary op sign).Yields fun more s rest =>
      Stage g operandFloor (sign :: more) s.tree rest ∧ Measured s := by
  refine ((hinner operandFloor (Nat.le_refl _)).bind fun x => yields_pure _).mono ?_
  rintro used s rest ⟨us, x, vs, rfl, ⟨hderives, hmeasured, -, hstops⟩, rfl, rfl⟩
  simp only [List.append_nil, List.nil_append] at hderives hstops ⊢
  refine ⟨.inr ⟨operandFloor, Nat.le_refl _, .unary hsign hderives, ?_⟩, ?_⟩
  · exact hstops.antitone (by decide)
  · exact congrArg (· + 1) hmeasured

theorem height_withLoc (l : Span) (e : Expr Span) : (e.withLoc l).height = e.height := by
  cases e <;> simp [Expr.withLoc, Expr.height]

theorem group_yields (hinner : Sound inner g) {opening : Token} (hopen : opening.kind = .lparen) :
    ((inner.reading stop).group opening).Yields fun more s _ =>
      Chain g (opening :: more) s.tree ∧ Measured s := by
  have hfinish (x : Subtree) {finish : Option Token → Parser Subtree} (hnone : finish none = pure x)
      (hsome : ∀ closing, finish (some closing) =
        pure ⟨x.tree.withLoc (opening.span.join closing.span), x.height⟩) (o : Option Token) :
      (finish o).Yields fun used s _ => ∀ closing, o = some closing →
        used = [] ∧ s = ⟨x.tree.withLoc (opening.span.join closing.span), x.height⟩ := by
    cases o with
    | none =>
      rw [hnone]
      exact (yields_pure x).mono fun used s rest h closing hnone => by cases hnone
    | some c =>
      rw [hsome]
      refine (yields_pure _).mono fun used s rest h closing hsome => ?_
      cases hsome
      exact h
  refine ((hinner 0 (Nat.zero_le _)).bind fun x =>
    (yields_expect stop .rparen).attempt.bind (hfinish x rfl fun _ => rfl)).mono ?_
  rintro used s rest ⟨us, x, vs, rfl, ⟨hderives, hmeasured, -, -⟩, ws, o, zs, rfl,
    ⟨closing, rfl, rfl, hclose⟩, hpure⟩
  obtain ⟨rfl, rfl⟩ := hpure closing rfl
  refine ⟨.primary ?_, ?_⟩
  · simpa using Primary.group hopen hderives hclose
  · simpa [Measured, height_withLoc] using hmeasured

theorem array_yields (hinner : Sound inner g) {opening : Token}
    (hopen : opening.kind = .lbracket) :
    ((inner.reading stop).array opening).Yields fun more s _ =>
      Chain g (opening :: more) s.tree ∧ Measured s := by
  refine ((list_yields hinner (by decide)).bind fun a => yields_pure _).mono ?_
  rintro used s rest ⟨us, ⟨items, close⟩, vs, rfl,
    ⟨ts, closing, rfl, hitems, hclose, hspan, hheight⟩, rfl, rfl⟩
  simp only at hspan hitems hheight
  subst hspan
  refine ⟨.primary ?_, ?_⟩
  · simpa using Primary.array hopen hitems hclose
  · simp [Measured, Expr.height, hheight]

/-- The parser of what follows `sizeof` or `alignof`, for the node that either makes. -/
theorem measured_yields (hinner : Sound inner g) (node : Span → Expr Span → Expr Span)
    (word : Token) (hheight : ∀ l e, (node l e).height = e.height + 1) :
    ((inner.reading stop).measured node word).Yields fun more s _ => ∃ opening ts closing e,
      more = opening :: (ts ++ [closing]) ∧ opening.kind = .lparen ∧ g 0 ts e ∧
      closing.kind = .rparen ∧ s.tree = node (word.span.join closing.span) e ∧ Measured s := by
  refine ((yields_expect stop .lparen).bind fun _ => (hinner 0 (Nat.zero_le _)).bind fun x =>
    (yields_expect stop .rparen).bind fun closing => yields_pure _).mono ?_
  rintro used s rest ⟨us, opening, vs, rfl, ⟨rfl, hopen⟩, ts, x, ws, rfl,
    ⟨hderives, hmeasured, -, -⟩, zs, closing, ys, rfl, ⟨rfl, hclose⟩, rfl, rfl⟩
  refine ⟨opening, ts, closing, x.tree, by simp, hopen, hderives, hclose, rfl, ?_⟩
  simp_all [Measured]

theorem number_yields {t : Token} (hkind : t.kind = .number) :
    ((inner.reading stop).number t).Yields fun more s _ =>
      more = [] ∧ leaf? t = some s.tree ∧ s.height = 1 := by
  rw [Reading.number, leaf?, hkind]
  rcases Literal.readNumber t.literal.toList with fault | value | value
  · exact yields_fail _ _ _
  · refine (yields_pure _).mono ?_
    rintro used s rest ⟨rfl, rfl⟩
    exact ⟨rfl, rfl, rfl⟩
  · refine (yields_pure _).mono ?_
    rintro used s rest ⟨rfl, rfl⟩
    exact ⟨rfl, rfl, rfl⟩

theorem height_of_leaf {t : Token} {e : Expr Span} (h : leaf? t = some e) : e.height = 1 := by
  unfold leaf? at h
  split at h
  · split at h <;> cases h <;> rfl
  all_goals cases h <;> rfl

theorem leaf_yields {t : Token} {e : Expr Span} (h : leaf? t = some e) :
    (pure ⟨e, 1⟩ : Parser Subtree).Yields fun more s _ =>
      Chain g (t :: more) s.tree ∧ Measured s := by
  refine (yields_pure _).mono ?_
  rintro used s rest ⟨rfl, rfl⟩
  exact ⟨.primary (.leaf h), (height_of_leaf h).symm⟩

theorem beginning_yields (hinner : Sound inner g) {t : Token} {p : Parser Subtree}
    (h : (inner.reading stop).beginning t = some p) :
    p.Yields fun more s rest => Stage g operandFloor (t :: more) s.tree rest ∧ Measured s := by
  have hchain {p : Parser Subtree}
      (hp : p.Yields fun more s _ => Chain g (t :: more) s.tree ∧ Measured s) :
      p.Yields fun more s rest => Stage g operandFloor (t :: more) s.tree rest ∧ Measured s :=
    hp.mono fun _ _ _ h => ⟨.inl h.1, h.2⟩
  unfold Reading.beginning at h
  split at h <;> cases h
  case h_1 hkind =>
    refine hchain ((number_yields hkind).mono ?_)
    rintro used s rest ⟨rfl, hleaf, hheight⟩
    exact ⟨.primary (.leaf hleaf), hheight.trans (height_of_leaf hleaf).symm⟩
  case h_7 hkind => exact unary_yields hinner hkind
  case h_8 hkind => exact unary_yields hinner hkind
  case h_9 hkind => exact unary_yields hinner hkind
  case h_10 hkind => exact hchain (group_yields hinner hkind)
  case h_11 hkind => exact hchain (array_yields hinner hkind)
  case h_12 hkind =>
    refine hchain ((measured_yields hinner .sizeof t fun _ _ => rfl).mono ?_)
    rintro used s rest ⟨opening, ts, closing, e, rfl, hopen, hderives, hclose, htree, hmeasured⟩
    exact ⟨htree ▸ .primary (.sizeof hkind hopen hderives hclose), hmeasured⟩
  case h_13 hkind =>
    refine hchain ((measured_yields hinner .alignof t fun _ _ => rfl).mono ?_)
    rintro used s rest ⟨opening, ts, closing, e, rfl, hopen, hderives, hclose, htree, hmeasured⟩
    exact ⟨htree ▸ .primary (.alignof hkind hopen hderives hclose), hmeasured⟩
  all_goals exact hchain (leaf_yields (by simp [leaf?, *]))

theorem operand_yields (hinner : Sound inner g) :
    (inner.reading stop).operand.Yields fun used s rest =>
      Stage g operandFloor used s.tree rest ∧ Measured s := by
  intro ts herr
  cases ts with
  | nil => cases herr
  | cons t ts =>
    simp only [operand_cons] at herr ⊢
    split at herr
    · next p hp =>
      obtain ⟨s, more, hvalue, hsplit, hpost⟩ := beginning_yields hinner hp ts herr
      exact ⟨s, t :: more, hvalue, congrArg (t :: ·) hsplit, hpost⟩
    · cases herr

theorem castTail_yields {lhs : Subtree} {used : List Token} {dot word less : Token}
    (hchain : Chain g used lhs.tree) (hmeasured : Measured lhs) (hdot : dot.kind = .dot)
    (hword : word.kind = .asCast) (hless : less.kind = .lt) :
    (castTail stop lhs).Yields fun more s _ =>
      Chain g (used ++ dot :: word :: less :: more) s.tree ∧ Measured s := by
  intro ts herr
  cases ts with
  | nil => cases herr
  | cons type ts =>
    simp only [castTail] at herr ⊢
    split at herr
    · cases herr
    · split at herr
      · next hgt htype =>
        have hrest := (yields_expect stop .gt).bind fun _ => (yields_expect stop .lparen).bind
          fun _ => (yields_expect stop .rparen).bind fun closing => yields_pure
            (⟨.cast (lhs.tree.loc.join closing.span) lhs.tree type.literal type.span,
              lhs.height + 1⟩ : Subtree)
        obtain ⟨s, more, hvalue, hsplit, us, greater, vs, rfl, ⟨rfl, hgreater⟩, ws, opening, xs,
          rfl, ⟨rfl, hopen⟩, ys, closing, zs, rfl, ⟨rfl, hclose⟩, rfl, rfl⟩ := hrest ts herr
        rw [if_neg hgt, if_pos htype]
        refine ⟨_, type :: [greater, opening, closing], hvalue, ?_, ?_, ?_⟩
        · exact congrArg (type :: ·) hsplit
        · exact .cast hchain hdot hword hless htype hgreater hopen hclose
        · exact congrArg (· + 1) hmeasured
      · cases herr

theorem member_yields {lhs : Subtree} {used : List Token} {dot : Token}
    (hchain : Chain g used lhs.tree) (hmeasured : Measured lhs) (hdot : dot.kind = .dot) :
    (member stop lhs).Yields fun more s _ =>
      Chain g (used ++ dot :: more) s.tree ∧ Measured s := by
  intro ts herr
  have hname {name : Token} {rest : List Token} (hkind : name.kind = .ident ∨ name.kind.isSpecial) :
      ∃ s more, some (⟨.attr (lhs.tree.loc.join name.span) lhs.tree name.literal name.span,
        lhs.height + 1⟩ : Subtree) = some s ∧ name :: rest = more ++ rest ∧
        Chain g (used ++ dot :: more) s.tree ∧ Measured s :=
    ⟨_, [name], rfl, rfl, .member hchain hdot hkind, congrArg (· + 1) hmeasured⟩
  cases ts with
  | nil => cases herr
  | cons t ts =>
    simp only [member] at herr ⊢
    split at herr
    · next hword =>
      cases ts with
      | nil => cases herr
      | cons u ts =>
        simp only at herr ⊢
        split at herr
        · next hless =>
          obtain ⟨s, more, hvalue, hsplit, hpost⟩ :=
            castTail_yields hchain hmeasured hdot hword hless ts herr
          simp only [hless, ↓reduceIte]
          exact ⟨s, t :: u :: more, hvalue, congrArg (t :: u :: ·) hsplit, hpost⟩
        · cases herr
    · next hident => exact hname (.inl hident)
    · next hspecial =>
      exact hname (.inr (by simp [hspecial, Kind.isSpecial, Kind.special?]))
    · cases herr

theorem call_yields (hinner : Sound inner g) {lhs : Subtree} {used : List Token} {opening : Token}
    (hchain : Chain g used lhs.tree) (hmeasured : Measured lhs) (hopen : opening.kind = .lparen) :
    ((inner.reading stop).call lhs opening).Yields fun more s _ =>
      Chain g (used ++ opening :: more) s.tree ∧ Measured s := by
  have hcheck : (checkCallable lhs opening).Yields fun us _ _ =>
      us = [] ∧ lhs.tree.isCallable = true := by
    unfold checkCallable
    split
    · next h => exact (yields_pure ()).mono fun _ _ _ hpure => ⟨hpure.1, h⟩
    · intro ts herr
      cases herr
  refine (hcheck.bind fun _ => (list_yields hinner (by decide)).bind fun a => yields_pure _).mono ?_
  rintro more s rest ⟨us, -, vs, rfl, ⟨rfl, hcallable⟩, ws, ⟨args, close⟩, xs, rfl,
    ⟨ts, closing, rfl, hitems, hclose, hspan, hheight⟩, rfl, rfl⟩
  simp only at hspan hitems hheight
  subst hspan
  refine ⟨?_, ?_⟩
  · simpa using Chain.call hchain hcallable hopen hitems hclose
  · simp_all [Measured, Expr.height]

theorem index_yields (hinner : Sound inner g) {lhs : Subtree} {used : List Token} {opening : Token}
    (hchain : Chain g used lhs.tree) (hmeasured : Measured lhs) (hopen : opening.kind = .lbracket) :
    ((inner.reading stop).index lhs).Yields fun more s _ =>
      Chain g (used ++ opening :: more) s.tree ∧ Measured s := by
  refine ((hinner 0 (Nat.zero_le _)).bind fun x => (yields_expect stop .rbracket).bind
    fun closing => yields_pure _).mono ?_
  rintro more s rest ⟨us, x, vs, rfl, ⟨hderives, hplace, -, -⟩, ws, closing, xs, rfl,
    ⟨rfl, hclose⟩, rfl, rfl⟩
  refine ⟨?_, ?_⟩
  · simpa using Chain.index hchain hopen hderives hclose
  · simp_all [Measured, Expr.height]

theorem ternary_yields (hinner : Sound inner g) {lhs : Subtree} {used : List Token}
    {question : Token} (hcondition : Phrase g 1 used lhs.tree) (hmeasured : Measured lhs)
    (hquestion : question.kind = .question) :
    ((inner.reading stop).ternary lhs).Yields fun more s rest =>
      Stage g 0 (used ++ question :: more) s.tree rest ∧ Measured s := by
  refine ((hinner 0 (Nat.zero_le _)).bind fun yes => (yields_expect stop .colon).bind fun _ =>
    (hinner 0 (Nat.zero_le _)).bind fun no => yields_pure _).mono ?_
  rintro more s rest ⟨us, yes, vs, rfl, ⟨hyes, hyesHeight, -, -⟩, ws, colon, xs, rfl,
    ⟨rfl, hcolon⟩, ys, no, zs, rfl, ⟨hno, hnoHeight, -, hstops⟩, rfl, rfl⟩
  refine ⟨.inr ⟨0, Nat.le_refl _, ?_, hstops⟩, ?_⟩
  · simpa using Phrase.ternary hcondition hquestion hyes hcolon hno
  · simp_all [Measured, Expr.height]

theorem binary_yields (hinner : Sound inner g) {lhs : Subtree} {used : List Token} {op : BinaryOp}
    {symbol : Token} {k : Nat} (hop : (symbol.kind, op) ∈ operators k)
    (hlhs : Phrase g k used lhs.tree) (hmeasured : Measured lhs) :
    ((inner.reading stop).binary op lhs).Yields fun more s rest =>
      Stage g k (used ++ symbol :: more) s.tree rest ∧ Measured s := by
  obtain ⟨-, rfl⟩ := mem_operators_iff.mp hop
  have htier : op.tier + 1 ≤ operandFloor ∧ op.tier ≠ 0 := by cases op <;> decide
  refine ((hinner (op.tier + 1) htier.1).bind fun rhs => yields_pure _).mono ?_
  rintro more s rest ⟨us, rhs, vs, rfl, ⟨hrhs, hrhsHeight, -, hstops⟩, rfl, rfl⟩
  refine ⟨.inr ⟨op.tier, Nat.le_refl _, ?_, ?_⟩, ?_⟩
  · simpa using Phrase.binary hop hlhs hrhs
  · simpa [ceiling, htier.2] using hstops
  · simp_all [Measured, Expr.height]

/-- One turn of the loop keeps the tree in a stage: a member, call or index follows a chain, and an
operator follows a phrase of its own stratum. -/
theorem continuation_yields (hinner : Sound inner g) {floor : Nat} (hfloor : floor ≤ operandFloor)
    {lhs : Subtree} {used rest : List Token} {t : Token} {p : Parser Subtree}
    (hstage : Stage g floor used lhs.tree (t :: rest)) (hmeasured : Measured lhs)
    (h : (inner.reading stop).continuation floor lhs t = some p) :
    p.Yields fun more s rest => Stage g floor (used ++ t :: more) s.tree rest ∧ Measured s := by
  have hchain (hall : ∀ k, continues k t.kind = true) : Chain g used lhs.tree := by
    rcases hstage with hstage | ⟨k, -, -, hstops⟩
    · exact hstage
    · simp [hall] at hstops
  -- A phrase that `t` does not extend from its own stratum on is one of any stratum where it does.
  have hphrase {j : Nat} (hj : j ≤ operandFloor)
      (hcontinues : ∀ k, continues (ceiling k) t.kind = false → j ≤ k) :
      Phrase g j used lhs.tree := by
    rcases hstage with hstage | ⟨k, -, hk, hstops⟩
    · exact (Phrase.chain hstage).of_le hj (Nat.le_refl _)
    · exact hk.of_le (hcontinues k (by simpa using hstops)) hk.stratum_le
  unfold Reading.continuation at h
  split at h
  · next hkind =>
    cases h
    exact (member_yields (hchain fun k => by simp [hkind, continues]) hmeasured hkind).mono
      fun _ _ _ h => ⟨.inl h.1, h.2⟩
  · next hkind =>
    cases h
    exact (call_yields hinner (hchain fun k => by simp [hkind, continues]) hmeasured hkind).mono
      fun _ _ _ h => ⟨.inl h.1, h.2⟩
  · next hkind =>
    cases h
    exact (index_yields hinner (hchain fun k => by simp [hkind, continues]) hmeasured hkind).mono
      fun _ _ _ h => ⟨.inl h.1, h.2⟩
  · next hkind =>
    split at h <;> cases h
    next hzero =>
    subst hzero
    refine ternary_yields hinner (hphrase (by decide) fun k hk => ?_) hmeasured hkind
    simp only [hkind, continues, ceiling, beq_eq_false_iff_ne] at hk
    grind
  · split at h
    · next op hop =>
      split at h <;> cases h
      next hle =>
      have hmem := mem_operators_iff.mpr ⟨hop, rfl⟩
      have htier : op.tier ≤ operandFloor := by cases op <;> decide
      refine (binary_yields hinner hmem (hphrase htier fun k hk => ?_) hmeasured).mono ?_
      · rw [continues_of_operator hmem, decide_eq_false_iff_not, ceiling] at hk
        grind
      · exact fun _ _ _ h => ⟨h.1.of_floor hle, h.2⟩
    · cases h

theorem climb_sound (hinner : Sound inner g) {floor : Nat} (hfloor : floor ≤ operandFloor)
    (lhs : Subtree) (ts used : List Token) (hstage : Stage g floor used lhs.tree ts)
    (hmeasured : Measured lhs) (herr : (climb stop inner floor lhs ts).errors = []) :
    ∃ s more, (climb stop inner floor lhs ts).value = some s ∧
      ts = more ++ (climb stop inner floor lhs ts).rest ∧ Phrase g floor (used ++ more) s.tree ∧
      Measured s ∧ s.height ≤ maxDepth ∧ Stops floor (climb stop inner floor lhs ts).rest := by
  induction lhs, ts using climb_induction stop inner floor generalizing used with
  | tall lhs ts hheight =>
    rw [climb_of_tall hheight] at herr
    cases herr
  | none lhs ts hheight hnone =>
    rw [climb_of_none hheight hnone]
    refine ⟨lhs, [], rfl, rfl, ?_, hmeasured, by omega, ?_⟩
    · simpa using hstage.phrase hfloor
    · exact fun t ht => continuation_eq_none_iff.mp (hnone t ht)
  | some lhs t rest p hheight hp ih =>
    have hstep := continuation_yields hinner hfloor hstage hmeasured hp rest
    rw [climb_of_some hheight hp] at herr ⊢
    unfold andThen at herr ⊢
    cases hvalue : (p rest).value with
    | none =>
      simp only [hvalue] at herr
      obtain ⟨s, more, hsome, -⟩ := hstep herr
      simp [hvalue] at hsome
    | some longer =>
      simp only [hvalue, List.append_eq_nil_iff] at herr ⊢
      obtain ⟨s, more, hsome, hsplit, hnext, hlonger⟩ := hstep herr.1
      obtain rfl : longer = s := by simpa [hvalue] using hsome
      obtain ⟨s', more', hs', hsplit', hphrase, hfinal⟩ := ih longer hvalue _ hnext hlonger herr.2
      refine ⟨s', t :: (more ++ more'), hs', ?_, ?_, hfinal⟩
      · rw [List.cons_append, List.append_assoc, ← hsplit', ← hsplit]
      · simpa using hphrase

/-- If the nested phrases are read soundly, so are the phrases around them. -/
theorem around_sound (hinner : Sound inner g) : Sound (Nested.around stop inner) (Phrase g) := by
  intro floor hfloor
  refine (operand_yields hinner).bind_of fun us lhs ts hlhs herr => ?_
  obtain ⟨hstage, hmeasured⟩ := hlhs
  exact climb_sound hinner hfloor lhs ts us (hstage.of_floor hfloor) hmeasured herr

end Level

/-- What is read at a level without errors is a phrase that nests no deeper. -/
theorem ofLevels_sound (stop : Span) (levels : Nat) :
    Sound (Nested.ofLevels stop levels) (Derives levels) := by
  induction levels with
  | zero =>
    intro floor _ ts herr
    cases herr
  | succ levels ih => exact around_sound ih

end Grammar

end SchemaExpr
