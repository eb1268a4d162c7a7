import SchemaExpr.Proofs.GreedyScans
import SchemaExpr.Proofs.TokenPlaces

/-!
# Tokens are longest matches

The first character of a text decides which patterns can match there, so the scanner's choice by
that character loses nothing. What it reads is the longest match, a longest match is unique, and the
tokens of a source are those of taking longest matches one after the other.
-/
namespace SchemaExpr

namespace Scan

section Fixed

theorem fixed_perm : Pattern.fixed.Perm
    (keywords ++ singles.map (fun entry => (String.ofList [entry.1], entry.2)) ++
      pairs.map fun entry => (String.ofList [entry.1.1, entry.1.2], entry.2)) := by
  decide

theorem mem_iff_lookup {α β : Type} [BEq α] [LawfulBEq α] {table : List (α × β)} {a : α} {b : β}
    (hnodup : (table.map Prod.fst).Nodup) : (a, b) ∈ table ↔ table.lookup a = some b := by
  refine ⟨fun h => ?_, mem_of_lookup⟩
  obtain ⟨before, after, rfl⟩ := List.append_of_mem h
  refine List.lookup_eq_some_iff.mpr ⟨before, after, rfl, fun p hp => ?_⟩
  have hne : p.1 ≠ a := by
    rw [List.map_append, List.nodup_append] at hnodup
    exact hnodup.2.2 p.1 (List.mem_map_of_mem hp) a (by simp)
  simpa using hne.symm

theorem mem_fixed {w : List Char} {kind : Kind} : (String.ofList w, kind) ∈ Pattern.fixed ↔
    keywords.lookup (String.ofList w) = some kind ∨
      (∃ c, w = [c] ∧ singles.lookup c = some kind) ∨
      ∃ c d, w = [c, d] ∧ pairs.lookup (c, d) = some kind := by
  have hkeywords : (keywords.map Prod.fst).Nodup := by decide
  have hsingles : (singles.map Prod.fst).Nodup := by decide
  have hpairs : (pairs.map Prod.fst).Nodup := by decide
  have hsingle : (String.ofList w, kind) ∈
      singles.map (fun entry => (String.ofList [entry.1], entry.2)) ↔
        ∃ c, w = [c] ∧ singles.lookup c = some kind := by
    simp only [← mem_iff_lookup hsingles, List.mem_map, Prod.exists, Prod.mk.injEq,
      String.ofList_inj]
    grind
  have hpair : (String.ofList w, kind) ∈
      pairs.map (fun entry => (String.ofList [entry.1.1, entry.1.2], entry.2)) ↔
        ∃ c d, w = [c, d] ∧ pairs.lookup (c, d) = some kind := by
    simp only [← mem_iff_lookup hpairs, List.mem_map, Prod.exists, Prod.mk.injEq,
      String.ofList_inj]
    grind
  rw [fixed_perm.mem_iff, List.mem_append, List.mem_append, or_assoc, hsingle, hpair,
    mem_iff_lookup hkeywords]

theorem isWord_of_keyword {w : List Char} {kind : Kind}
    (h : keywords.lookup (String.ofList w) = some kind) : IsWord w := by
  have hall : keywords.all (fun entry => decide (IsWord entry.1.toList)) = true := by decide
  have hw := List.all_eq_true.mp hall _ (mem_of_lookup h)
  simpa using hw

end Fixed

section Matches

variable {kind : Kind} {c : Char} {u w : List Char}

theorem matches_iff : Matches kind w ↔
    kind = .number ∧ (∃ p ∈ Pattern.numbers, w ∈ p.language) ∨
      kind = .string ∧ (∃ p ∈ Pattern.strings '"' ++ Pattern.strings '\'', w ∈ p.language) ∨
      kind = .ident ∧ w ∈ Pattern.ident.language ∨ (String.ofList w, kind) ∈ Pattern.fixed := by
  have hfixed : (∃ p, (kind, p) ∈ Pattern.fixed.map (fun entry =>
      (entry.2, Pattern.text entry.1.toList)) ∧ w ∈ p.language) ↔
      (String.ofList w, kind) ∈ Pattern.fixed := by
    constructor
    · rintro ⟨p, hp, hw⟩
      obtain ⟨⟨t, k⟩, hentry, heq⟩ := List.mem_map.mp hp
      obtain ⟨rfl, rfl⟩ := Prod.mk.inj heq
      rwa [Pattern.mem_text.mp hw, String.ofList_toList]
    · intro h
      exact ⟨_, List.mem_map_of_mem h, Pattern.mem_text.mpr (String.toList_ofList ..).symm⟩
  simp only [Matches, Pattern.declared, List.mem_append, or_and_right, exists_or, hfixed, or_assoc]
  simp only [List.mem_map, Prod.mk.injEq, List.mem_cons, List.not_mem_nil]
  grind

/-- Which texts match, by their first character. -/
theorem matches_cons : Matches kind (c :: u) ↔
    (c.isDigit = true ∧ kind = .number ∧ u ∈ numberTails c) ∨
      ((c = '"' ∨ c = '\'') ∧ kind = .string ∧ u ∈ stringTails c) ∨
      (isWordStart c = true ∧ kind = .ident ∧ u ∈ wordTails) ∨
      (String.ofList (c :: u), kind) ∈ Pattern.fixed := by
  have hnumber : (∃ p ∈ Pattern.numbers, c :: u ∈ p.language) ↔
      c.isDigit = true ∧ u ∈ numberTails c := by
    rw [mem_numbers]
    constructor
    · rintro ⟨_, _, ⟨rfl, rfl⟩, hc, hu⟩
      exact ⟨hc, hu⟩
    · rintro ⟨hc, hu⟩
      exact ⟨c, u, rfl, hc, hu⟩
  have hstring : (∃ p ∈ Pattern.strings '"' ++ Pattern.strings '\'', c :: u ∈ p.language) ↔
      (c = '"' ∨ c = '\'') ∧ u ∈ stringTails c := by
    simp only [List.mem_append, or_and_right, exists_or, mem_strings, List.cons.injEq]
    grind
  have hident : c :: u ∈ Pattern.ident.language ↔ isWordStart c = true ∧ u ∈ wordTails := by
    rw [mem_ident]
    simp only [List.cons.injEq]
    grind
  rw [matches_iff, hnumber, hstring, hident]
  grind

theorem matches_of_fixed (h : (String.ofList w, kind) ∈ Pattern.fixed) : Matches kind w :=
  matches_iff.mpr (.inr (.inr (.inr h)))

/-- A keyword starts like a word, and a symbol like nothing else. -/
theorem fixed_head (h : (String.ofList (c :: u), kind) ∈ Pattern.fixed) :
    c.isDigit = false ∧ c ≠ '"' ∧ c ≠ '\'' ∧
      (keywords.lookup (String.ofList (c :: u)) = some kind ∧ IsWord (c :: u) ∨
        isWordStart c = false ∧ (u = [] ∧ singles.lookup c = some kind ∨
          ∃ d, u = [d] ∧ pairs.lookup (c, d) = some kind)) := by
  rcases mem_fixed.mp h with hkind | ⟨_, ⟨rfl, rfl⟩, hkind⟩ | ⟨_, d, ⟨rfl, rfl⟩, hkind⟩
  · have hword := isWord_of_keyword hkind
    obtain ⟨hdigit, hdouble, hsingle, -⟩ := isWordStart_class hword.1
    exact ⟨hdigit, hdouble, hsingle, .inl ⟨hkind, hword⟩⟩
  · obtain ⟨hdigit, hdouble, hsingle, hword, -⟩ := singles_class _ (mem_of_lookup hkind)
    exact ⟨hdigit, hdouble, hsingle, .inr ⟨hword, .inl ⟨rfl, hkind⟩⟩⟩
  · obtain ⟨hdigit, hdouble, hsingle, hword, -⟩ := pairs_class _ (mem_of_lookup hkind)
    exact ⟨hdigit, hdouble, hsingle, .inr ⟨hword, .inr ⟨d, rfl, hkind⟩⟩⟩

/-- Where no text is fixed, the first character decides the kind. -/
theorem fixed_or_kind_eq (h : Matches kind (c :: u)) :
    (String.ofList (c :: u), kind) ∈ Pattern.fixed ∨
      kind = if c.isDigit then .number else if c = '"' ∨ c = '\'' then .string else .ident := by
  rcases matches_cons.mp h with ⟨hc, rfl, -⟩ | ⟨hc, rfl, -⟩ | ⟨hc, rfl, -⟩ | hfixed
  · exact .inr (by rw [if_pos hc])
  · exact .inr (by rcases hc with rfl | rfl <;> rfl)
  · obtain ⟨hdigit, hdouble, hsingle, -⟩ := isWordStart_class hc
    exact .inr (by simp [hdigit, hdouble, hsingle])
  · exact .inl hfixed

theorem matches_digit (hc : c.isDigit = true) :
    Matches kind (c :: u) ↔ kind = .number ∧ u ∈ numberTails c := by
  rw [matches_cons]
  constructor
  · rintro (⟨-, h⟩ | ⟨rfl | rfl, -⟩ | ⟨hword, -⟩ | hfixed)
    · exact h
    · cases hc
    · cases hc
    · rw [(isWordStart_class hword).1] at hc
      cases hc
    · rw [(fixed_head hfixed).1] at hc
      cases hc
  · exact fun h => .inl ⟨hc, h⟩

theorem matches_quote (hc : c = '"' ∨ c = '\'') :
    Matches kind (c :: u) ↔ kind = .string ∧ u ∈ stringTails c := by
  rw [matches_cons]
  constructor
  · rintro (⟨hdigit, -⟩ | ⟨-, h⟩ | ⟨hword, -⟩ | hfixed)
    · rcases hc with rfl | rfl <;> cases hdigit
    · exact h
    · rcases hc with rfl | rfl <;> cases hword
    · obtain ⟨-, hdouble, hsingle, -⟩ := fixed_head hfixed
      grind
  · exact fun h => .inr (.inl ⟨hc, h⟩)

theorem matches_wordStart (hc : isWordStart c = true) : Matches kind (c :: u) ↔
    u ∈ wordTails ∧ (kind = .ident ∨ keywords.lookup (String.ofList (c :: u)) = some kind) := by
  obtain ⟨hdigit, hdouble, hsingle, -⟩ := isWordStart_class hc
  rw [matches_cons]
  constructor
  · rintro (⟨h, -⟩ | ⟨h, -⟩ | ⟨-, h⟩ | hfixed)
    · rw [hdigit] at h
      cases h
    · grind
    · exact ⟨h.2, .inl h.1⟩
    · obtain ⟨-, -, -, h | ⟨hword, -⟩⟩ := fixed_head hfixed
      · exact ⟨mem_wordTails.mpr h.2.2, .inr h.1⟩
      · rw [hc] at hword
        cases hword
  · rintro ⟨hu, rfl | h⟩
    · exact .inr (.inr (.inl ⟨hc, rfl, hu⟩))
    · exact .inr (.inr (.inr (mem_fixed.mpr (.inl h))))

theorem matches_symbol (hdigit : c.isDigit = false) (hquote : ¬(c = '"' ∨ c = '\''))
    (hword : isWordStart c = false) : Matches kind (c :: u) ↔
      u = [] ∧ singles.lookup c = some kind ∨ ∃ d, u = [d] ∧ pairs.lookup (c, d) = some kind := by
  rw [matches_cons]
  constructor
  · rintro (⟨h, -⟩ | ⟨h, -⟩ | ⟨h, -⟩ | hfixed)
    · rw [hdigit] at h
      cases h
    · exact absurd h hquote
    · rw [hword] at h
      cases h
    · obtain ⟨-, -, -, ⟨-, h, -⟩ | ⟨-, h⟩⟩ := fixed_head hfixed
      · rw [hword] at h
        cases h
      · exact h
  · rintro (⟨rfl, h⟩ | ⟨d, rfl, h⟩)
    · exact .inr (.inr (.inr (mem_fixed.mpr (.inr (.inl ⟨c, rfl, h⟩)))))
    · exact .inr (.inr (.inr (mem_fixed.mpr (.inr (.inr ⟨c, d, rfl, h⟩)))))

theorem not_matches_illegal : ¬Matches .illegal w := by
  have hdeclared : Pattern.declared.all (fun entry => entry.1 != .illegal) = true := by rfl
  rintro ⟨p, hp, -⟩
  cases List.all_eq_true.mp hdeclared _ hp

end Matches

section First

variable {kind : Kind} {c : Char} {cs t : List Char}

/-- A match that no other one exceeds, after a given first character. -/
theorem longestMatch_cons (hstarts : t <+: cs) (hmatch : Matches kind (c :: t))
    (hlongest : ∀ other u, u <+: cs → Matches other (c :: u) → u.length ≤ t.length)
    (hfixed : ∀ other, (String.ofList (c :: t), other) ∈ Pattern.fixed → kind = other) :
    LongestMatch (c :: cs) kind (c :: t) where
  isPrefix := List.cons_prefix_cons.mpr ⟨rfl, hstarts⟩
  matched := .inl ⟨hmatch, List.cons_ne_nil c t⟩
  longest other w hw hother := by
    cases w with
    | nil => exact Nat.zero_le _
    | cons d u =>
      obtain ⟨rfl, hu⟩ := List.cons_prefix_cons.mp hw
      exact Nat.succ_le_succ (hlongest other u hu hother)
  fixed := hfixed
  illegal := by
    constructor
    · rintro ⟨rfl, -⟩
      exact absurd hmatch not_matches_illegal
    · intro h
      have hstart : c :: t <+: c :: cs := List.cons_prefix_cons.mpr ⟨rfl, hstarts⟩
      exact absurd hmatch (h kind (c :: t) (List.cons_ne_nil c t) hstart)

theorem longestMatch_number (hc : c.isDigit = true) :
    LongestMatch (c :: cs) .number (number c cs) := by
  rw [number_eq]
  refine longestMatch_cons ((greedy_number c).isPrefix cs)
    ((matches_digit hc).mpr ⟨rfl, (greedy_number c).mem cs⟩) ?_ ?_
  · intro other u hu hother
    exact (greedy_number c).longest ((matches_digit hc).mp hother).2 hu
  · intro other hother
    exact ((matches_digit hc).mp (matches_of_fixed hother)).1.symm

theorem longestMatch_string (hc : c = '"' ∨ c = '\'') :
    LongestMatch (c :: cs) .string (c :: stringTail c cs) := by
  refine longestMatch_cons (stringTail_isPrefix c cs)
    ((matches_quote hc).mpr ⟨rfl, (greedy_stringTail c).mem cs⟩) ?_ ?_
  · intro other u hu hother
    exact (greedy_stringTail c).longest ((matches_quote hc).mp hother).2 hu
  · intro other hother
    exact ((matches_quote hc).mp (matches_of_fixed hother)).1.symm

theorem wordKind_cases (w : List Char) :
    wordKind w = .ident ∨ keywords.lookup (String.ofList w) = some (wordKind w) := by
  unfold wordKind
  cases keywords.lookup (String.ofList w) with
  | none => exact .inl rfl
  | some kind => exact .inr rfl

theorem longestMatch_word (hc : isWordStart c = true) :
    LongestMatch (c :: cs) (wordKind (c :: cs.takeWhile isWordChar))
      (c :: cs.takeWhile isWordChar) := by
  refine longestMatch_cons (List.takeWhile_prefix _)
    ((matches_wordStart hc).mpr ⟨greedy_word.mem cs, wordKind_cases _⟩) ?_ ?_
  · intro other u hu hother
    exact greedy_word.longest ((matches_wordStart hc).mp hother).1 hu
  · intro other hother
    obtain ⟨-, -, -, h | ⟨h, -⟩⟩ := fixed_head hother
    · rw [wordKind, h.1]
      rfl
    · rw [hc] at h
      cases h

theorem longestMatch_illegal (hnone : ∀ kind u, u <+: cs → ¬Matches kind (c :: u)) :
    LongestMatch (c :: cs) .illegal [c] := by
  have hno (other : Kind) (w : List Char) (hne : w ≠ []) (hw : w <+: c :: cs) :
      ¬Matches other w := by
    obtain ⟨d, u, rfl⟩ := List.exists_cons_of_ne_nil hne
    obtain ⟨rfl, hu⟩ := List.cons_prefix_cons.mp hw
    exact hnone other u hu
  constructor
  · exact List.cons_prefix_cons.mpr ⟨rfl, List.nil_prefix⟩
  · exact .inr ⟨rfl, rfl⟩
  · intro other w hw hother
    by_cases hne : w = []
    · simp [hne]
    · exact absurd hother (hno other w hne hw)
  · intro other hother
    exact absurd (matches_of_fixed hother) (hnone other [] List.nil_prefix)
  · exact ⟨fun _ => hno, fun _ => ⟨rfl, rfl⟩⟩

/-- Either two characters make a symbol, or the first one stands alone. -/
theorem symbol_cases (c : Char) (cs : List Char) :
    (∃ d ds kind, cs = d :: ds ∧ pairs.lookup (c, d) = some kind ∧
        symbol c cs = (kind, [c, d])) ∨
      (∀ d ds, cs = d :: ds → pairs.lookup (c, d) = none) ∧
        symbol c cs = ((singles.lookup c).getD .illegal, [c]) := by
  cases cs with
  | nil => exact .inr ⟨nofun, rfl⟩
  | cons d ds =>
    cases h : pairs.lookup (c, d) with
    | some kind => exact .inl ⟨d, ds, kind, rfl, h, by simp only [symbol, h]⟩
    | none =>
      refine .inr ⟨?_, by simp only [symbol, h]⟩
      rintro _ _ ⟨rfl, rfl⟩
      exact h

theorem longestMatch_pair {d : Char} (hmatches : ∀ {other u}, Matches other (c :: u) →
    u = [] ∧ singles.lookup c = some other ∨ ∃ d, u = [d] ∧ pairs.lookup (c, d) = some other)
    (hpair : pairs.lookup (c, d) = some kind) : LongestMatch (c :: d :: cs) kind [c, d] := by
  have hfixed : (String.ofList [c, d], kind) ∈ Pattern.fixed :=
    mem_fixed.mpr (.inr (.inr ⟨c, d, rfl, hpair⟩))
  refine longestMatch_cons (by simp) (matches_of_fixed hfixed) ?_ ?_
  · intro other u _ hother
    rcases hmatches hother with ⟨rfl, -⟩ | ⟨e, rfl, -⟩ <;> simp
  · intro other hother
    rcases hmatches (matches_of_fixed hother) with ⟨h, -⟩ | ⟨e, h, hlookup⟩
    · cases h
    · rw [← (List.cons.inj h).1, hpair] at hlookup
      exact Option.some.inj hlookup

theorem longestMatch_single (hmatches : ∀ {other u}, u <+: cs → Matches other (c :: u) →
    u = [] ∧ singles.lookup c = some other) :
    LongestMatch (c :: cs) ((singles.lookup c).getD .illegal) [c] := by
  cases hsingle : singles.lookup c with
  | none =>
    refine longestMatch_illegal fun other u hu hother => ?_
    rw [(hmatches hu hother).2] at hsingle
    cases hsingle
  | some kind =>
    have hfixed : (String.ofList [c], kind) ∈ Pattern.fixed :=
      mem_fixed.mpr (.inr (.inl ⟨c, rfl, hsingle⟩))
    refine longestMatch_cons List.nil_prefix (matches_of_fixed hfixed) ?_ ?_
    · intro other u hu hother
      rw [(hmatches hu hother).1]
    · intro other hother
      have hlookup := (hmatches List.nil_prefix (matches_of_fixed hother)).2
      rw [hsingle] at hlookup
      exact Option.some.inj hlookup

theorem longestMatch_symbol (hdigit : c.isDigit = false) (hquote : ¬(c = '"' ∨ c = '\''))
    (hword : isWordStart c = false) :
    LongestMatch (c :: cs) (symbol c cs).1 (symbol c cs).2 := by
  rcases symbol_cases c cs with ⟨d, ds, kind, rfl, hpair, hsymbol⟩ | ⟨hpairs, hsymbol⟩
  · rw [hsymbol]
    exact longestMatch_pair (matches_symbol hdigit hquote hword).mp hpair
  · rw [hsymbol]
    refine longestMatch_single fun {other u} hu hother => ?_
    rcases (matches_symbol hdigit hquote hword).mp hother with h | ⟨d, rfl, h⟩
    · exact h
    · obtain ⟨ds, rfl⟩ := hu
      rw [hpairs d ds rfl] at h
      cases h

/-- The scanner reads the longest match. -/
theorem longestMatch_first (c : Char) (cs : List Char) :
    LongestMatch (c :: cs) (first c cs).1 (first c cs).2 := by
  unfold first
  split
  · next hdigit => exact longestMatch_number hdigit
  · next hdigit =>
    split
    · next hquote => exact longestMatch_string hquote
    · next hquote =>
      split
      · next hword => exact longestMatch_word hword
      · next hword =>
        exact longestMatch_symbol (Bool.eq_false_iff.mpr hdigit) hquote
          (Bool.eq_false_iff.mpr hword)

end First

end Scan

namespace LongestMatch

variable {input text text' : List Char} {kind kind' : Kind}

theorem ne_nil (h : LongestMatch input kind text) : text ≠ [] := by
  rcases h.matched with ⟨-, hne⟩ | ⟨-, hlength⟩
  · exact hne
  · rintro rfl
    cases hlength

theorem matches_of_some (h : LongestMatch input kind text)
    (hsome : ¬∀ other w, w ≠ [] → w <+: input → ¬Matches other w) : Matches kind text := by
  rcases h.matched with hmatch | hillegal
  · exact hmatch.1
  · exact absurd (h.illegal.mp hillegal) hsome

theorem kind_eq (h : LongestMatch input kind text) (h' : LongestMatch input kind' text)
    (hmatch : Matches kind text) (hmatch' : Matches kind' text) : kind = kind' := by
  obtain ⟨c, u, rfl⟩ := List.exists_cons_of_ne_nil h.ne_nil
  rcases Scan.fixed_or_kind_eq hmatch with hfixed | hkind
  · exact (h'.fixed kind hfixed).symm
  · rcases Scan.fixed_or_kind_eq hmatch' with hfixed | hkind'
    · exact h.fixed kind' hfixed
    · exact hkind.trans hkind'.symm

theorem text_eq (h : LongestMatch input kind text) (h' : LongestMatch input kind' text')
    (hlength : text.length = text'.length) : text = text' :=
  (List.prefix_of_prefix_length_le h.isPrefix h'.isPrefix hlength.le).eq_of_length hlength

theorem unique (h : LongestMatch input kind text) (h' : LongestMatch input kind' text') :
    kind = kind' ∧ text = text' := by
  -- Whether anything matches depends on the text alone, so both are illegal or neither is.
  by_cases hnone : ∀ other w, w ≠ [] → w <+: input → ¬Matches other w
  · obtain ⟨rfl, hlength⟩ := h.illegal.mpr hnone
    obtain ⟨rfl, hlength'⟩ := h'.illegal.mpr hnone
    exact ⟨rfl, h.text_eq h' (hlength.trans hlength'.symm)⟩
  · have hmatch := h.matches_of_some hnone
    have hmatch' := h'.matches_of_some hnone
    obtain rfl := h.text_eq h' ((h'.longest kind text h.isPrefix hmatch).antisymm
      (h.longest kind' text' h'.isPrefix hmatch'))
    exact ⟨h.kind_eq h' hmatch hmatch', rfl⟩

end LongestMatch

theorem Scan.Takes.longestMatch {kind : Kind} {text rest : List Char} (h : Takes kind text rest) :
    LongestMatch (text ++ rest) kind text := by
  obtain ⟨c, cs, rfl, -, hfirst⟩ := h
  have hlongest := longestMatch_first c (cs ++ rest)
  rwa [hfirst] at hlongest

/-- Kinds and places of the tokens that are read from `input`, which stands after `before`: layout
is skipped, and where anything else stands, the longest match is taken. -/
inductive MaximalMunch : (before input : List Char) → List (Kind × Span) → Prop
  | done {before input} : (∀ c ∈ input, isLayout c = true) → MaximalMunch before input []
  | token {before gap text rest kind tokens} : (∀ c ∈ gap, isLayout c = true) →
      (∀ c ∈ text.head?, isLayout c = false) → LongestMatch (text ++ rest) kind text →
      MaximalMunch (before ++ (gap ++ text)) rest tokens →
      MaximalMunch before (gap ++ (text ++ rest))
        ((kind, Span.placed (before ++ gap) text) :: tokens)

namespace MaximalMunch

variable {before input : List Char} {ps qs : List (Kind × Span)}

theorem of_fills {text rest : List Char} {ts : List Token} (h : Fills before text rest ts)
    (hrest : ∀ c ∈ rest, isLayout c = true) :
    MaximalMunch before (text ++ rest) (ts.map fun t => (t.kind, t.span)) := by
  induction h with
  | nil => exact .done hrest
  | @cons before gap text more rest t ts hgap htakes _ hspan _ ih =>
    have hlongest := htakes.longestMatch
    obtain ⟨c, cs, rfl, hc, -⟩ := htakes
    rw [List.map_cons, hspan, List.append_assoc, List.append_assoc]
    exact .token hgap (by simpa using hc) hlongest (ih hrest)

theorem head_append_rest {text rest : List Char} (hne : text ≠ [])
    (htext : ∀ c ∈ text.head?, isLayout c = false) :
    ∀ c ∈ (text ++ rest).head?, isLayout c = false := by
  obtain ⟨c, cs, rfl⟩ := List.exists_cons_of_ne_nil hne
  exact htext

/-- What stands before the first character that is no layout is determined by the text. -/
theorem gap_inj {gap gap' rest rest' : List Char} (hgap : ∀ c ∈ gap, isLayout c = true)
    (hgap' : ∀ c ∈ gap', isLayout c = true) (hrest : ∀ c ∈ rest.head?, isLayout c = false)
    (hrest' : ∀ c ∈ rest'.head?, isLayout c = false) (heq : gap ++ rest = gap' ++ rest') :
    gap = gap' ∧ rest = rest' := by
  have hsame : gap = gap' := by
    rw [← Scan.takeWhile_append_stop hgap hrest, heq, Scan.takeWhile_append_stop hgap' hrest']
  subst hsame
  exact ⟨rfl, List.append_cancel_left heq⟩

theorem unique (hp : MaximalMunch before input ps) (hq : MaximalMunch before input qs) :
    ps = qs := by
  induction hp generalizing qs with
  | done hlayout =>
    cases hq with
    | done _ => rfl
    | @token _ gap text rest _ _ _ htext hlongest _ =>
      obtain ⟨c, cs, rfl⟩ := List.exists_cons_of_ne_nil hlongest.ne_nil
      have hc := hlayout c (by simp)
      rw [htext c rfl] at hc
      cases hc
  | @token before gap text rest kind tokens hgap htext hlongest _ ih =>
    have hhead : ∀ c ∈ (text ++ rest).head?, isLayout c = false :=
      head_append_rest hlongest.ne_nil htext
    generalize hinput : gap ++ (text ++ rest) = input at hq
    cases hq with
    | done hlayout =>
      obtain ⟨c, cs, rfl⟩ := List.exists_cons_of_ne_nil hlongest.ne_nil
      have hc := hlayout c (by simp [← hinput])
      rw [htext c rfl] at hc
      cases hc
    | @token _ gap' text' rest' kind' tokens' hgap' htext' hlongest' hmore' =>
      obtain ⟨rfl, hsame⟩ := gap_inj hgap hgap' hhead
        (head_append_rest hlongest'.ne_nil htext') hinput
      rw [← hsame] at hlongest'
      obtain ⟨rfl, rfl⟩ := hlongest.unique hlongest'
      obtain rfl := List.append_cancel_left hsame
      rw [ih hmore']

end MaximalMunch

/-- The tokens of a source, the end of the input apart, are those of repeated longest match, and
there is no other way to take longest matches. -/
theorem maximalMunch_iff_tokenize (source : String) (tokens : List (Kind × Span)) :
    MaximalMunch [] source.toList tokens ↔
      tokens = ((tokenize source).filter (·.kind ≠ .eof)).map fun t => (t.kind, t.span) := by
  obtain ⟨text, tail, hsource, htail, hfills⟩ := tokenize_fills source
  have hfilter : (tokenize source).filter (·.kind ≠ .eof) =
      (Lexer.ofText source.toList).tokens := by
    rw [tokenize, List.filter_append, List.filter_eq_self.mpr (by simpa using hfills.kind_ne_eof)]
    simp [Lexer.eof, Lexeme.eof]
  have hmunch := MaximalMunch.of_fills hfills htail
  rw [← hsource] at hmunch
  rw [hfilter]
  constructor
  · exact fun h => h.unique hmunch
  · rintro rfl
    exact hmunch

end SchemaExpr
