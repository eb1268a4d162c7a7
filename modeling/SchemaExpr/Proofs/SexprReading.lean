import SchemaExpr.Expr.Sexpr
import SchemaExpr.Proofs.AcceptedTrees
import SchemaExpr.Proofs.DisplayText
import SchemaExpr.Proofs.TargetMeaning

/-!
# S-expressions determine their trees

The texts of trees are words, quoted texts, and forms of a head and such texts. Where one of them
stops is seen from what follows it, so the parts of a form can be told apart. The head of a form and
the number of its parts give the node, although a minus sign is the head of two kinds of nodes; a
word is read as the source reads it.
-/
namespace SchemaExpr

section Texts

def wordBreaks : List Char := [' ', '(', ')', '"']

def Unbroken (s : String) : Prop := s.toList ≠ [] ∧ ∀ c ∈ s.toList, c ∉ wordBreaks

def EndsPart (rest : List Char) : Prop := ∀ c ∈ rest.head?, c = ' ' ∨ c = ')'

/-- The texts that are words, quoted texts or forms. -/
inductive IsSexpr : String → Prop
  | word {s} : Unbroken s → IsSexpr s
  | quoted (s) : IsSexpr (Text.displayQuoted s)
  | form {head parts} : Unbroken head → (∀ p ∈ parts, IsSexpr p) → IsSexpr (form head parts)

theorem Unbroken.exists_cons {s : String} (h : Unbroken s) :
    ∃ c cs, s.toList = c :: cs ∧ c ∉ wordBreaks := by
  obtain ⟨c, cs, hs⟩ := List.exists_cons_of_ne_nil h.1
  exact ⟨c, cs, hs, h.2 c (by simp [hs])⟩

theorem Unbroken.append_inj {s s' : String} {rest rest' : List Char} (hs : Unbroken s)
    (hs' : Unbroken s') (hrest : EndsPart rest) (hrest' : EndsPart rest')
    (h : s.toList ++ rest = s'.toList ++ rest') : s = s' ∧ rest = rest' := by
  have htake {s : String} {rest : List Char} (hs : Unbroken s) (hrest : EndsPart rest) :
      (s.toList ++ rest).takeWhile (· ∉ wordBreaks) = s.toList := by
    refine Scan.takeWhile_append_stop (fun c hc => decide_eq_true (hs.2 c hc)) fun c hc => ?_
    rcases hrest c hc with rfl | rfl <;> decide
  have hsame : s.toList = s'.toList := by rw [← htake hs hrest, h, htake hs' hrest']
  rw [hsame] at h
  exact ⟨String.toList_inj.mp hsame, List.append_cancel_left h⟩

def spaced (parts : List String) : List Char := parts.flatMap fun p => ' ' :: p.toList

theorem toList_form (head : String) (parts : List String) (rest : List Char) :
    (form head parts).toList ++ rest = '(' :: (head.toList ++ (spaced parts ++ ')' :: rest)) := by
  have hparts : ∀ parts : List String,
      (parts.map (" " ++ ·)).flatMap String.toList = spaced parts := by
    simp [spaced, List.flatMap_map]
  simp [form, String.toList_join, hparts]

theorem endsPart_spaced (parts : List String) (rest : List Char) :
    EndsPart (spaced parts ++ ')' :: rest) := by
  cases parts <;> simp [EndsPart, spaced]

/-- The text can be cancelled from the front of a text that continues after it. -/
def Cancels (s : String) : Prop :=
  ∀ {s' : String} {rest rest' : List Char}, IsSexpr s' → EndsPart rest → EndsPart rest' →
    s.toList ++ rest = s'.toList ++ rest' → s = s' ∧ rest = rest'

theorem spaced_append_inj {parts parts' : List String} {rest rest' : List Char}
    (hparts : ∀ p ∈ parts, Cancels p) (hparts' : ∀ p ∈ parts', IsSexpr p)
    (h : spaced parts ++ ')' :: rest = spaced parts' ++ ')' :: rest') :
    parts = parts' ∧ rest = rest' := by
  induction parts generalizing parts' with
  | nil =>
    cases parts' with
    | nil => exact ⟨rfl, (List.cons.inj h).2⟩
    | cons p' ps' => cases h
  | cons p ps ih =>
    cases parts' with
    | nil => cases h
    | cons p' ps' =>
      have hfront : p.toList ++ (spaced ps ++ ')' :: rest) =
          p'.toList ++ (spaced ps' ++ ')' :: rest') := by
        simpa [spaced] using h
      obtain ⟨rfl, htail⟩ := hparts p (by simp) (hparts' p' (by simp)) (endsPart_spaced ps rest)
        (endsPart_spaced ps' rest') hfront
      obtain ⟨rfl, rfl⟩ := ih (fun q hq => hparts q (by simp [hq]))
        (fun q hq => hparts' q (by simp [hq])) htail
      exact ⟨rfl, rfl⟩

theorem form_append_inj {head head' : String} {parts parts' : List String}
    {rest rest' : List Char} (hhead : Unbroken head) (hhead' : Unbroken head')
    (hparts : ∀ p ∈ parts, Cancels p) (hparts' : ∀ p ∈ parts', IsSexpr p)
    (h : (form head parts).toList ++ rest = (form head' parts').toList ++ rest') :
    head = head' ∧ parts = parts' ∧ rest = rest' := by
  rw [toList_form, toList_form] at h
  obtain ⟨rfl, htail⟩ := hhead.append_inj hhead' (endsPart_spaced parts rest)
    (endsPart_spaced parts' rest') (List.cons.inj h).2
  exact ⟨rfl, spaced_append_inj hparts hparts' htail⟩

theorem Unbroken.ne_quoted {s : String} (hs : Unbroken s) (s' : String) {rest rest' : List Char} :
    s.toList ++ rest ≠ (Text.displayQuoted s').toList ++ rest' := by
  obtain ⟨c, cs, hcs, hc⟩ := hs.exists_cons
  rw [hcs, Text.toList_displayQuoted]
  intro h
  obtain rfl : c = '"' := (List.cons.inj h).1
  exact hc (by decide)

theorem Unbroken.ne_form {s : String} (hs : Unbroken s) (head : String) (parts : List String)
    {rest rest' : List Char} : s.toList ++ rest ≠ (form head parts).toList ++ rest' := by
  obtain ⟨c, cs, hcs, hc⟩ := hs.exists_cons
  rw [hcs, toList_form]
  intro h
  obtain rfl : c = '(' := (List.cons.inj h).1
  exact hc (by decide)

theorem displayQuoted_ne_form (s head : String) (parts : List String) {rest rest' : List Char} :
    (Text.displayQuoted s).toList ++ rest ≠ (form head parts).toList ++ rest' := by
  rw [Text.toList_displayQuoted, toList_form]
  simp

/-- The first character tells words, quoted texts and forms apart, and each of them ends in its own
way: before a break, at a quote, and at the parenthesis after its parts. -/
theorem IsSexpr.cancels {s : String} (hs : IsSexpr s) : Cancels s := by
  induction hs with
  | word hs =>
    intro s' rest rest' hs' hrest hrest' h
    cases hs' with
    | word hs' => exact hs.append_inj hs' hrest hrest' h
    | quoted s' => exact absurd h (hs.ne_quoted s')
    | form => exact absurd h (hs.ne_form _ _)
  | quoted s =>
    intro s' rest rest' hs' hrest hrest' h
    cases hs' with
    | word hs' => exact absurd h.symm (hs'.ne_quoted s)
    | quoted s' =>
      obtain ⟨rfl, rfl⟩ := Text.displayQuoted_append_inj h
      exact ⟨rfl, rfl⟩
    | form => exact absurd h (displayQuoted_ne_form _ _ _)
  | @form head parts hhead hparts ih =>
    intro s' rest rest' hs' hrest hrest' h
    cases hs' with
    | word hs' => exact absurd h.symm (hs'.ne_form _ _)
    | quoted s' => exact absurd h.symm (displayQuoted_ne_form _ _ _)
    | form hhead' hparts' =>
      obtain ⟨rfl, rfl, rfl⟩ := form_append_inj hhead hhead' ih hparts' h
      exact ⟨rfl, rfl⟩

theorem form_inj {head head' : String} {parts parts' : List String} (hhead : Unbroken head)
    (hhead' : Unbroken head') (hparts : ∀ p ∈ parts, IsSexpr p) (hparts' : ∀ p ∈ parts', IsSexpr p)
    (h : form head parts = form head' parts') : head = head' ∧ parts = parts' := by
  have happend : (form head parts).toList ++ [] = (form head' parts').toList ++ [] := by rw [h]
  obtain ⟨rfl, rfl, -⟩ :=
    form_append_inj hhead hhead' (fun p hp => (hparts p hp).cancels) hparts' happend
  exact ⟨rfl, rfl⟩

end Texts

section Words

open Scan (isWordChar)

theorem not_mem_wordBreaks {c : Char} (hc : isWordChar c = true ∨ c ∈ ['.', '-']) :
    c ∉ wordBreaks := by
  have hbreaks : wordBreaks.all (fun c => !isWordChar c && !(['.', '-'].contains c)) = true := by
    decide
  intro hmem
  have hclass := List.all_eq_true.mp hbreaks c hmem
  simp only [Bool.and_eq_true, Bool.not_eq_true'] at hclass
  rcases hc with hc | hc
  · simp [hc] at hclass
  · simp [hc] at hclass

theorem unbroken_of_isWord {name : String} (h : Scan.IsWord name.toList) : Unbroken name := by
  unfold Unbroken
  cases hname : name.toList with
  | nil => simp [hname, Scan.IsWord] at h
  | cons c cs =>
    rw [hname] at h
    have hfirst : isWordChar c = true := by
      have hstart := h.1
      simp only [Scan.isWordStart, Bool.or_eq_true] at hstart
      simp only [Scan.isWordChar, Char.isAlphanum, Bool.or_eq_true]
      tauto
    refine ⟨by simp, fun x hx => not_mem_wordBreaks (.inl ?_)⟩
    rcases List.mem_cons.mp hx with rfl | hx
    · exact hfirst
    · exact h.2 x hx

theorem unbroken_of_decimal {s : String} {d : DecimalText} (h : s.toList = d.text) :
    Unbroken s := by
  unfold Unbroken
  rw [h]
  refine ⟨?_, fun c hc => not_mem_wordBreaks ?_⟩
  · simp [DecimalText.text, d.whole_ne_nil]
  · rcases d.mem_text hc with hdigit | hmark
    · exact .inl (by simp [isWordChar, Char.isAlphanum, hdigit])
    · simp only [List.mem_cons, List.not_mem_nil, or_false] at hmark
      rcases hmark with rfl | rfl | rfl <;> decide

end Words

inductive Head where
  | unary (op : UnaryOp)
  | binary (op : BinaryOp)
  | ternary
  | member
  | call
  | index
  | array
  | cast
  | sizeof
  | alignof
  deriving DecidableEq

namespace Head

def text : Head → String
  | unary op => op.symbol
  | binary op => op.symbol
  | ternary => "?"
  | member => "."
  | call => "call"
  | index => "index"
  | array => "array"
  | cast => "as"
  | sizeof => "sizeof"
  | alignof => "alignof"

def all : List Head :=
  UnaryOp.all.map unary ++ BinaryOp.all.map binary ++
    [ternary, member, call, index, array, cast, sizeof, alignof]

theorem mem_all (h : Head) : h ∈ all := by
  cases h with
  | unary op => cases op <;> decide
  | binary op => cases op <;> decide
  | _ => decide

theorem unbroken_text (h : Head) : Unbroken h.text := by
  have hall : all.all (fun h => !h.text.toList.isEmpty &&
      h.text.toList.all fun c => !wordBreaks.contains c) = true := by decide +kernel
  have hclass := List.all_eq_true.mp hall h h.mem_all
  simpa [Unbroken] using hclass

/-- Only the minus sign is the head of two kinds of nodes. -/
theorem text_inj {h h' : Head} (htext : h.text = h'.text) :
    h = h' ∨ h = unary .neg ∧ h' = binary .sub ∨ h = binary .sub ∧ h' = unary .neg := by
  have hall : ∀ h ∈ all, ∀ h' ∈ all, h.text = h'.text →
      h = h' ∨ h = unary .neg ∧ h' = binary .sub ∨ h = binary .sub ∧ h' = unary .neg := by
    decide +kernel
  exact hall h h.mem_all h' h'.mem_all htext

/-- The node with this head, the subtrees and the name after them, if it has a name. -/
def build? : Head → List (Expr Unit) → Option String → Option (Expr Unit)
  | unary op, [operand], none => some (.unary () op operand)
  | binary op, [lhs, rhs], none => some (.binary () op lhs rhs)
  | ternary, [condition, yes, no], none => some (.ternary () condition yes no)
  | member, [object], some name => some (.attr () object name ())
  | call, callee :: args, none => some (.call () callee args)
  | index, [object, place], none => some (.index () object place)
  | array, elements, none => some (.array () elements)
  | cast, [operand], some type => some (.cast () operand type ())
  | sizeof, [operand], none => some (.sizeof () operand)
  | alignof, [operand], none => some (.alignof () operand)
  | _, _, _ => none

def hasName : Head → Bool
  | member | cast => true
  | _ => false

end Head

namespace Expr

variable {ι : Type}

def head? : Expr ι → Option Head
  | unary _ op _ => some (.unary op)
  | binary _ op _ _ => some (.binary op)
  | ternary .. => some .ternary
  | attr .. => some .member
  | call .. => some .call
  | index .. => some .index
  | array .. => some .array
  | cast .. => some .cast
  | sizeof .. => some .sizeof
  | alignof .. => some .alignof
  | _ => none

def trailingName? : Expr ι → Option String
  | attr _ _ name _ => some name
  | cast _ _ type _ => some type
  | _ => none

def sexprParts (e : Expr ι) : List String := e.children.map sexpr ++ e.trailingName?.toList

theorem sexprs_eq_map (es : List (Expr ι)) : sexpr.sexprs es = es.map sexpr := by
  induction es with
  | nil => rfl
  | cons e es ih => rw [sexpr.sexprs, ih, List.map_cons]

theorem sexpr_eq_form {e : Expr ι} {h : Head} (hhead : e.head? = some h) :
    e.sexpr = form h.text e.sexprParts := by
  cases e <;> cases hhead <;>
    simp [sexpr, sexprParts, children, trailingName?, sexprs_eq_map, Head.text]

theorem build?_bare {e : Expr ι} {h : Head} (hhead : e.head? = some h) :
    h.build? (e.children.map bare) e.trailingName? = some e.bare := by
  cases e with
  | call l callee args =>
    cases hhead
    rw [bare_call]
    rfl
  | array l elements =>
    cases hhead
    rw [bare_array]
    rfl
  | _ => cases hhead <;> rfl

theorem isSome_trailingName? {e : Expr ι} {h : Head} (hhead : e.head? = some h) :
    e.trailingName?.isSome = h.hasName := by
  cases e <;> cases hhead <;> rfl

/-- A minus sign has one part as a prefix operator and two as a binary one. -/
theorem length_sexprParts_of_minus {e : Expr ι} :
    (e.head? = some (.unary .neg) → e.sexprParts.length = 1) ∧
      (e.head? = some (.binary .sub) → e.sexprParts.length = 2) := by
  constructor <;> intro hhead <;> cases e <;> cases hhead <;> rfl

/-- The head and the parts of a form give the kind of node. -/
theorem head_eq_of_text {e e' : Expr ι} {h h' : Head} (hhead : e.head? = some h)
    (hhead' : e'.head? = some h') (htext : h.text = h'.text)
    (hparts : e.sexprParts = e'.sexprParts) : h = h' := by
  have hlength := congrArg List.length hparts
  rcases Head.text_inj htext with hsame | ⟨rfl, rfl⟩ | ⟨rfl, rfl⟩
  · exact hsame
  · rw [length_sexprParts_of_minus.1 hhead, length_sexprParts_of_minus.2 hhead'] at hlength
    cases hlength
  · rw [length_sexprParts_of_minus.2 hhead, length_sexprParts_of_minus.1 hhead'] at hlength
    cases hlength

section Leaves

open Grammar (leaf?)

/-- A word that a source reads as one lexeme, and the tree of that lexeme. -/
structure ReadsAlone (s : String) (t : Expr Unit) : Prop where
  unbroken : Unbroken s
  reads : ∃ l, lexemes s.toList = [l] ∧ ∀ span, ∃ x, leaf? ⟨l, span⟩ = some x ∧ x.bare = t

theorem ReadsAlone.unique {s : String} {t t' : Expr Unit} (h : ReadsAlone s t)
    (h' : ReadsAlone s t') : t = t' := by
  obtain ⟨l, hl, hleaf⟩ := h.reads
  obtain ⟨l', hl', hleaf'⟩ := h'.reads
  obtain rfl : l = l' := by simpa [hl] using hl'
  obtain ⟨x, hx, hbare⟩ := hleaf ⟨0, 0, .start⟩
  obtain ⟨x', hx', hbare'⟩ := hleaf' ⟨0, 0, .start⟩
  obtain rfl : x = x' := by simpa [hx] using hx'
  rw [← hbare, ← hbare']

theorem readsAlone_word {s : String} {t : Expr Unit} (hword : Scan.IsWord s.toList)
    (hleaf : ∀ span, ∃ x, leaf? ⟨.word s, span⟩ = some x ∧ x.bare = t) : ReadsAlone s t := by
  refine ⟨unbroken_of_isWord hword, .word s, ?_, hleaf⟩
  have hlexemes : lexemes (s.toList ++ []) = .word s :: lexemes [] :=
    Target.lexemes_name hword (by simp)
  simpa using hlexemes

theorem readsAlone_number {s : String} {t : Expr Unit} {d : DecimalText} (htext : s.toList = d.text)
    (hleaf : ∀ span, ∃ x, leaf? ⟨.number s, span⟩ = some x ∧ x.bare = t) : ReadsAlone s t := by
  refine ⟨unbroken_of_decimal htext, .number s, ?_, hleaf⟩
  have hlexemes : lexemes (d.text ++ []) = ⟨.number, String.ofList d.text⟩ :: lexemes [] :=
    lexemes_decimal d ⟨by simp, rfl⟩
  simpa [← htext, Lexeme.number] using hlexemes

/-- A leaf is written as a quoted text or as a word that is read as the leaf. -/
theorem sexpr_of_leaf {e : Expr ι} (hhead : e.head? = none) (h : e.Spellable) :
    (∃ s, e.sexpr = Text.displayQuoted s ∧ e.bare = text () s) ∨ ReadsAlone e.sexpr e.bare := by
  cases e with
  | bool l value =>
    right
    change ReadsAlone (if value then "true" else "false") (bool () value)
    cases value <;> exact readsAlone_word (by decide) fun span => ⟨_, rfl, rfl⟩
  | int l n =>
    right
    exact readsAlone_number (Target.text_integerDecimal n).symm
      (Target.leaf_number (Target.readNumber_toString h) rfl)
  | float l value =>
    right
    obtain ⟨d, htext, hread⟩ := Decimal.display_decimal h.1 h.2
    exact readsAlone_number htext (Target.leaf_number (htext ▸ hread) rfl)
  | text l s => exact .inl ⟨s, rfl, rfl⟩
  | null l =>
    right
    change ReadsAlone "null" (null ())
    exact readsAlone_word (by decide) fun span => ⟨_, rfl, rfl⟩
  | ident l name =>
    right
    have hleaf (span : Span) : leaf? ⟨.word name, span⟩ = some (ident span name) := by
      simp [leaf?, Lexeme.word, h.2]
    exact readsAlone_word h.1 fun span => ⟨ident span name, hleaf span, rfl⟩
  | special l name =>
    right
    change ReadsAlone name.targetName (special () name)
    cases name <;> exact readsAlone_word (by decide) fun span => ⟨_, rfl, rfl⟩
  | _ => cases hhead

end Leaves

theorem unbroken_of_trailingName {e : Expr ι} (h : e.Sourced) {name : String}
    (hname : e.trailingName? = some name) : Unbroken name := by
  cases e with
  | attr l object member memberLoc =>
    cases hname
    exact unbroken_of_isWord h.1.1
  | cast l operand type typeLoc =>
    cases hname
    exact unbroken_of_isWord h.2.1
  | _ => cases hname

theorem isSexpr_of_mem_sexprParts {e : Expr ι} (h : e.Sourced)
    (hchildren : ∀ x ∈ e.children, IsSexpr x.sexpr) : ∀ p ∈ e.sexprParts, IsSexpr p := by
  intro p hp
  rcases List.mem_append.mp hp with hp | hp
  · obtain ⟨x, hx, rfl⟩ := List.mem_map.mp hp
    exact hchildren x hx
  · exact .word (unbroken_of_trailingName h (by simpa using hp))

theorem isSexpr_sexpr {e : Expr ι} (h : e.Every Sourced) : IsSexpr e.sexpr := by
  induction e using induction_children with
  | step e ih =>
    cases hhead : e.head? with
    | none =>
      rcases sexpr_of_leaf hhead h.here.1 with ⟨s, hs, -⟩ | hword
      · rw [hs]
        exact .quoted s
      · exact .word hword.unbroken
    | some head =>
      rw [sexpr_eq_form hhead]
      exact .form head.unbroken_text
        (isSexpr_of_mem_sexprParts h.here fun x hx => ih x hx (h.of_child x hx))

theorem isSexpr_sexprParts {e : Expr ι} (h : e.Every Sourced) : ∀ p ∈ e.sexprParts, IsSexpr p :=
  isSexpr_of_mem_sexprParts h.here fun x hx => isSexpr_sexpr (h.of_child x hx)

theorem sexpr_ne_form_of_leaf {e : Expr ι} (hhead : e.head? = none) (h : e.Spellable)
    (head : String) (parts : List String) : e.sexpr ≠ form head parts := by
  intro hform
  have happend : e.sexpr.toList ++ [] = (form head parts).toList ++ [] := by rw [hform]
  rcases sexpr_of_leaf hhead h with ⟨s, hs, -⟩ | hword
  · rw [hs] at happend
    exact displayQuoted_ne_form s head parts happend
  · exact hword.unbroken.ne_form head parts happend

theorem bare_eq_of_leaves {e e' : Expr ι} (hhead : e.head? = none) (hhead' : e'.head? = none)
    (h : e.Spellable) (h' : e'.Spellable) (hsexpr : e.sexpr = e'.sexpr) : e.bare = e'.bare := by
  have happend : e.sexpr.toList ++ [] = e'.sexpr.toList ++ [] := by rw [hsexpr]
  rcases sexpr_of_leaf hhead h with ⟨s, hs, hbare⟩ | hword
  · rcases sexpr_of_leaf hhead' h' with ⟨s', hs', hbare'⟩ | hword'
    · rw [hs, hs'] at happend
      rw [hbare, hbare', (Text.displayQuoted_append_inj happend).1]
    · rw [hs] at happend
      exact absurd happend.symm (hword'.unbroken.ne_quoted s)
  · rcases sexpr_of_leaf hhead' h' with ⟨s', hs', hbare'⟩ | hword'
    · rw [hs'] at happend
      exact absurd happend (hword.unbroken.ne_quoted s')
    · rw [← hsexpr] at hword'
      exact hword.unique hword'

theorem map_bare_eq_of_map_sexpr {es es' : List (Expr ι)}
    (heq : ∀ x ∈ es, ∀ x' ∈ es', x.sexpr = x'.sexpr → x.bare = x'.bare)
    (h : es.map sexpr = es'.map sexpr) : es.map bare = es'.map bare := by
  induction es generalizing es' with
  | nil => rw [List.map_eq_nil_iff.mp h.symm]
  | cons e es ih =>
    obtain ⟨e', rest', rfl, hfirst, hrest⟩ := List.map_eq_cons_iff.mp h.symm
    rw [List.map_cons, List.map_cons, heq e (by simp) e' (by simp) hfirst.symm,
      ih (fun x hx x' hx' => heq x (by simp [hx]) x' (by simp [hx'])) hrest.symm]

/-- Nodes of one kind have their names in the same place. -/
theorem parts_eq_of_head {e e' : Expr ι} {h : Head} (hhead : e.head? = some h)
    (hhead' : e'.head? = some h) (hparts : e.sexprParts = e'.sexprParts) :
    e.children.map sexpr = e'.children.map sexpr ∧ e.trailingName? = e'.trailingName? := by
  have hsome : e.trailingName?.isSome = e'.trailingName?.isSome := by
    rw [isSome_trailingName? hhead, isSome_trailingName? hhead']
  have hlength : e.trailingName?.toList.length = e'.trailingName?.toList.length := by
    rw [Option.length_toList, Option.length_toList, hsome]
  obtain ⟨hchildren, hname⟩ := List.append_inj' hparts hlength
  exact ⟨hchildren, by simpa using congrArg List.head? hname⟩

theorem bare_eq_of_sexpr_eq {e e' : Expr ι} (h : e.Every Sourced) (h' : e'.Every Sourced)
    (hsexpr : e.sexpr = e'.sexpr) : e.bare = e'.bare := by
  induction e using induction_children generalizing e' with
  | step e ih =>
    cases hhead : e.head? with
    | none =>
      cases hhead' : e'.head? with
      | none => exact bare_eq_of_leaves hhead hhead' h.here.1 h'.here.1 hsexpr
      | some head' =>
        rw [sexpr_eq_form hhead'] at hsexpr
        exact absurd hsexpr (sexpr_ne_form_of_leaf hhead h.here.1 _ _)
    | some head =>
      cases hhead' : e'.head? with
      | none =>
        rw [sexpr_eq_form hhead] at hsexpr
        exact absurd hsexpr.symm (sexpr_ne_form_of_leaf hhead' h'.here.1 _ _)
      | some head' =>
        rw [sexpr_eq_form hhead, sexpr_eq_form hhead'] at hsexpr
        obtain ⟨htext, hparts⟩ := form_inj head.unbroken_text head'.unbroken_text
          (isSexpr_sexprParts h) (isSexpr_sexprParts h') hsexpr
        obtain rfl := head_eq_of_text hhead hhead' htext hparts
        obtain ⟨hchildren, hname⟩ := parts_eq_of_head hhead hhead' hparts
        have hbare : e.children.map bare = e'.children.map bare :=
          map_bare_eq_of_map_sexpr
            (fun x hx x' hx' => ih x hx (h.of_child x hx) (h'.of_child x' hx')) hchildren
        have hbuild := build?_bare hhead
        rw [hbare, hname, build?_bare hhead'] at hbuild
        exact (Option.some.inj hbuild).symm

theorem sexpr_bare (e : Expr ι) : e.bare.sexpr = e.sexpr := by
  induction e using induction_children with
  | step e ih =>
    cases e with
    | call l callee args =>
      have hargs : args.map (sexpr ∘ bare) = args.map sexpr :=
        List.map_congr_left fun x hx => ih x (by simp [children, hx])
      rw [bare_call, sexpr, sexpr, sexprs_eq_map, sexprs_eq_map, List.map_map, hargs,
        ih callee (by simp [children])]
    | array l elements =>
      have helements : elements.map (sexpr ∘ bare) = elements.map sexpr :=
        List.map_congr_left fun x hx => ih x (by simp [children, hx])
      rw [bare_array, sexpr, sexpr, sexprs_eq_map, sexprs_eq_map, List.map_map, helements]
    | _ => simp_all [children, bare, map, sexpr]

end Expr

/-- Sources without errors have trees, and two such trees are written alike exactly if they are
equal up to their spans. -/
theorem sexpr_determines_tree {source source' : String} (h : (parse source).errors = [])
    (h' : (parse source').errors = []) :
    ∃ e e', (parse source).tree = some e ∧ (parse source').tree = some e' ∧
      (e.sexpr = e'.sexpr ↔ e.bare = e'.bare) := by
  obtain ⟨e, htree, he⟩ := sourced_of_parse h
  obtain ⟨e', htree', he'⟩ := sourced_of_parse h'
  refine ⟨e, e', htree, htree', Expr.bare_eq_of_sexpr_eq he he', fun hbare => ?_⟩
  rw [← Expr.sexpr_bare e, hbare, Expr.sexpr_bare]

/-- Both minus signs, a form's head as a name, and blanks and parentheses in a quoted text. -/
theorem sexpr_determines_tree_regrouped :
    (parse "call(-1 - x, ') (-').self[0.5]").errors = [] ∧
    (parse "(call)((-0x1) - (x), \") (-\",).self[5e-1]").errors = [] ∧
    ∃ e e', (parse "call(-1 - x, ') (-').self[0.5]").tree = some e ∧
      (parse "(call)((-0x1) - (x), \") (-\",).self[5e-1]").tree = some e' ∧
      e.sexpr = e'.sexpr ∧ e.bare = e'.bare := by
  have herrors : (parse "call(-1 - x, ') (-').self[0.5]").errors = [] := by decide +kernel
  have herrors' : (parse "(call)((-0x1) - (x), \") (-\",).self[5e-1]").errors = [] := by
    decide +kernel
  have hsexpr : (parse "call(-1 - x, ') (-').self[0.5]").tree.map Expr.sexpr =
      (parse "(call)((-0x1) - (x), \") (-\",).self[5e-1]").tree.map Expr.sexpr := by
    decide +kernel
  obtain ⟨e, e', htree, htree', hiff⟩ := sexpr_determines_tree herrors herrors'
  rw [htree, htree', Option.map_some, Option.map_some] at hsexpr
  have hsame := Option.some.inj hsexpr
  exact ⟨herrors, herrors', e, e', htree, htree', hsame, hiff.mp hsame⟩

end SchemaExpr
