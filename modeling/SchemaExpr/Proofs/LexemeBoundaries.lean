import SchemaExpr.Proofs.Numerals
import SchemaExpr.Proofs.QuotedText

/-!
# Where a lexeme ends

The scanner looks beyond the lexeme that it takes, since it wants the longest one: it reads all of
`1e+` before it settles for the number `1`. But what it finds there never matters once it has
stopped. The text beyond can be cut short anywhere after the lexeme, and anything can be put there
that starts with a character which no lexeme goes on with. Strings are the exception: one without a
closing quote goes on with whatever comes.
-/
namespace SchemaExpr.Scan

/-- No lexeme goes on with this character, apart from a string. -/
def Separates (d : Char) : Prop :=
  isWordChar d = false ∧ d ∉ ['.', '+', '-'] ∧ d ∉ pairs.map (·.1.2)

instance (d : Char) : Decidable (Separates d) := inferInstanceAs (Decidable (_ ∧ _ ∧ _))

def Separated (rest : List Char) : Prop := ∀ d ∈ rest.head?, Separates d

theorem separated_nil : Separated [] := by simp [Separated]

theorem separated_cons {d : Char} {rest : List Char} : Separated (d :: rest) ↔ Separates d := by
  simp [Separated]

theorem separates_of_isLayout {c : Char} (h : isLayout c = true) : Separates c := by
  simp only [isLayout, Bool.or_eq_true, beq_iff_eq] at h
  rcases h with ((rfl | rfl) | rfl) | rfl <;> decide

theorem isWordChar_of_isDigit {c : Char} (h : c.isDigit = true) : isWordChar c = true := by
  simp [isWordChar, Char.isAlphanum, h]

theorem isWordChar_of_isHexDigit {c : Char} (h : isHexDigit c = true) : isWordChar c = true := by
  have hhex : (c.isDigit || decide ('a'.val ≤ c.val) && decide (c.val ≤ 'f'.val) ||
      decide ('A'.val ≤ c.val) && decide (c.val ≤ 'F'.val)) = true := h
  change (((decide ('A'.val ≤ c.val ∧ c.val ≤ 'Z'.val) ||
    (decide ('a'.val ≤ c.val) && decide (c.val ≤ 'z'.val))) || c.isDigit) || c == '_') = true
  grind

theorem isWordChar_of_octal {c : Char} (h : ('0' ≤ c && c ≤ '7') = true) : isWordChar c = true := by
  refine isWordChar_of_isDigit ?_
  have hoctal : (decide ('0'.val ≤ c.val) && decide (c.val ≤ '7'.val)) = true := h
  change (decide ('0'.val ≤ c.val) && decide (c.val ≤ '9'.val)) = true
  grind

theorem isWordChar_of_radixDigit {letter : Char} {digit : Char → Bool}
    (h : radixDigit? letter = some digit) {c : Char} (hc : digit c = true) :
    isWordChar c = true := by
  unfold radixDigit? at h
  split at h
  · cases h
    rcases (Bool.or_eq_true _ _).mp hc with hc | hc
    · exact isWordChar_of_isHexDigit hc
    · simp [isWordChar, hc]
  · split at h
    · cases h
      rcases (Bool.or_eq_true _ _).mp hc with hc | hc
      · exact isWordChar_of_octal hc
      · simp [isWordChar, hc]
    · split at h <;> cases h
      simp only [Bool.or_eq_true, beq_iff_eq] at hc
      rcases hc with (rfl | rfl) | rfl <;> rfl

namespace Separates

variable {d : Char}

theorem eq_false_of_word (h : Separates d) {p : Char → Bool}
    (hp : ∀ c, p c = true → isWordChar c = true) : p d = false := by
  refine Bool.eq_false_iff.mpr fun hd => ?_
  exact absurd h.1 (by simp [hp d hd])

theorem not_isDigit (h : Separates d) : d.isDigit = false :=
  h.eq_false_of_word fun _ => isWordChar_of_isDigit

theorem not_isDigitOrSeparator (h : Separates d) : isDigitOrSeparator d = false := by
  refine h.eq_false_of_word fun c hc => ?_
  rcases (Bool.or_eq_true _ _).mp hc with hc | hc
  · exact isWordChar_of_isDigit hc
  · simp [isWordChar, hc]

end Separates

/-- What `scan` takes from the front of a text stays the same if the text beyond it is replaced by
one that is empty or starts with a character that separates. -/
def Local (scan : List Char → List Char) : Prop :=
  ∀ cs rest rest' : List Char, Separated rest' → scan (cs ++ rest) <+: cs →
    scan (cs ++ rest') = scan (cs ++ rest)

theorem takeWhile_separated {p : Char → Bool} (hp : ∀ d, Separates d → p d = false)
    {rest : List Char} (hrest : Separated rest) : rest.takeWhile p = [] := by
  cases rest with
  | nil => rfl
  | cons d rest => simp [hp d (separated_cons.mp hrest)]

theorem local_takeWhile {p : Char → Bool} (hp : ∀ d, Separates d → p d = false) :
    Local (List.takeWhile p) := by
  intro cs rest rest' hrest' hfits
  induction cs with
  | nil =>
    simp only [List.nil_append, List.prefix_nil] at hfits ⊢
    rw [hfits, takeWhile_separated hp hrest']
  | cons c cs ih =>
    by_cases hc : p c = true
    · simp only [List.cons_append, List.takeWhile_cons_of_pos hc, List.cons_prefix_cons,
        true_and] at hfits ⊢
      rw [ih hfits]
    · simp [hc]

theorem Local.append {scan next : List Char → List Char} (hscan : Local scan) (hnext : Local next) :
    Local fun cs => scan cs ++ next (cs.drop (scan cs).length) := by
  intro cs rest rest' hrest' hfits
  simp only at hfits ⊢
  have hfirst := (List.prefix_append _ _).trans hfits
  rw [hscan cs rest rest' hrest' hfirst]
  obtain ⟨more, hmore⟩ := hfirst
  generalize scan (cs ++ rest) = taken at *
  subst hmore
  rw [List.append_assoc, List.drop_left, List.prefix_append_right_inj] at hfits
  rw [List.append_assoc, List.append_assoc, List.drop_left, List.drop_left,
    hnext more rest rest' hrest' hfits]

theorem fraction_eq_nil {cs : List Char} (h : ∀ c ∈ cs.head?, c ≠ '.') : fraction cs = [] := by
  unfold fraction
  split
  · simp at h
  · rfl

theorem fraction_point_separated {rest : List Char} (hrest : Separated rest) :
    fraction ('.' :: rest) = [] := by
  cases rest with
  | nil => rfl
  | cons d rest => simp [fraction, (separated_cons.mp hrest).not_isDigit]

theorem local_fraction : Local fraction := by
  intro cs rest rest' hrest' hfits
  match cs with
  | [] =>
    simp only [List.nil_append, List.prefix_nil] at hfits ⊢
    rw [hfits]
    refine fraction_eq_nil fun c hc hpoint => ?_
    subst hpoint
    exact absurd (hrest' _ hc) (by decide)
  | [c] =>
    by_cases hc : c = '.'
    · subst hc
      have hempty : fraction ('.' :: rest) = [] := by
        cases rest with
        | nil => rfl
        | cons d rest =>
          by_cases hd : d.isDigit = true
          · simp [fraction, hd] at hfits
          · simp [fraction, hd]
      rw [List.singleton_append, List.singleton_append, hempty, fraction_point_separated hrest']
    · rw [fraction_eq_nil (by simpa using hc), fraction_eq_nil (by simpa using hc)]
  | c :: d :: cs =>
    by_cases hc : c = '.' ∧ d.isDigit = true
    · obtain ⟨rfl, hd⟩ := hc
      simp only [List.cons_append, fraction, hd, if_true, List.cons_prefix_cons,
        true_and] at hfits ⊢
      rw [local_takeWhile (fun _ h => h.not_isDigitOrSeparator) cs rest rest' hrest' hfits]
    · have hempty (more : List Char) : fraction (c :: d :: more) = [] := by
        unfold fraction
        split
        · next heq =>
          cases heq
          simp_all
        · rfl
      simp [hempty]

theorem sign_separated {rest : List Char} (hrest : Separated rest) : sign rest = [] := by
  cases rest with
  | nil => rfl
  | cons d rest =>
    have hd := (separated_cons.mp hrest).2.1
    simp only [List.mem_cons, not_or] at hd
    simp [sign, hd]

theorem local_exponent : Local exponent := by
  have hdigits : Local (List.takeWhile Char.isDigit) := local_takeWhile fun _ h => h.not_isDigit
  intro cs rest rest' hrest' hfits
  match cs with
  | [] =>
    simp only [List.nil_append, List.prefix_nil] at hfits ⊢
    rw [hfits]
    refine exponent_eq_nil fun c hc => ?_
    constructor <;> rintro rfl <;> exact absurd (hrest' _ hc) (by decide)
  | [letter] =>
    have hempty : exponent (letter :: rest) = [] := by
      simp only [List.singleton_append, exponent] at hfits ⊢
      split at hfits
      · next hexponent => simp [hexponent.2] at hfits
      · next hexponent => rw [if_neg hexponent]
    rw [List.singleton_append, List.singleton_append, hempty]
    simp [exponent, sign_separated hrest', takeWhile_separated (fun _ h => h.not_isDigit) hrest']
  | letter :: c :: cs =>
    obtain ⟨more, hmore⟩ : ∃ more, c :: cs = sign [c] ++ more := by
      by_cases hc : c = '+' ∨ c = '-'
      · exact ⟨cs, by simp [sign, hc]⟩
      · exact ⟨c :: cs, by simp [sign, hc]⟩
    have hshape (beyond : List Char) : exponent (letter :: c :: cs ++ beyond) =
        if (letter = 'e' ∨ letter = 'E') ∧ (more ++ beyond).takeWhile Char.isDigit ≠ [] then
          letter :: (sign [c] ++ (more ++ beyond).takeWhile Char.isDigit) else [] := by
      have hsign : sign (c :: cs ++ beyond) = sign [c] := rfl
      have hdrop : (c :: cs ++ beyond).drop (sign [c]).length = more ++ beyond := by
        rw [hmore, List.append_assoc, List.drop_left]
      rw [List.cons_append, exponent, hsign, hdrop]
    rw [hshape] at hfits
    rw [hshape, hshape]
    split at hfits
    · next hexponent =>
      rw [hmore, List.cons_prefix_cons, List.prefix_append_right_inj] at hfits
      rw [hdigits more rest rest' hrest' hfits.2]
    · next hexponent =>
      by_cases hletter : letter = 'e' ∨ letter = 'E'
      · have hnone : (more ++ rest).takeWhile Char.isDigit = [] := by
          simpa [hletter] using hexponent
        rw [hdigits more rest rest' hrest' (by simp [hnone])]
      · simp [hletter]

theorem local_radixTail : Local radixTail := by
  intro cs rest rest' hrest' hfits
  cases cs with
  | nil =>
    simp only [List.nil_append, List.prefix_nil] at hfits ⊢
    rw [hfits]
    refine radixTail_eq_nil fun c hc => ?_
    cases hradix : radixDigit? c with
    | none => rfl
    | some digit =>
      have hletters : ['x', 'X', 'o', 'O', 'b', 'B'].all isWordChar = true := by decide
      have hletter := List.all_eq_true.mp hletters c (by unfold radixDigit? at hradix; grind)
      exact absurd (hrest' c hc).1 (by simp [hletter])
  | cons letter cs =>
    simp only [List.cons_append, radixTail] at hfits ⊢
    cases hradix : radixDigit? letter with
    | none => rfl
    | some digit =>
      simp only [hradix] at hfits ⊢
      have hdigits : Local (List.takeWhile digit) :=
        local_takeWhile fun d h => h.eq_false_of_word fun _ => isWordChar_of_radixDigit hradix
      have hsame : (cs ++ rest).takeWhile digit <+: cs := by
        split at hfits
        · next hnone => simp [hnone]
        · exact (List.cons_prefix_cons.mp hfits).2
      rw [hdigits cs rest rest' hrest' hsame]

theorem local_decimalTail : Local decimalTail :=
  have hwhole : Local (List.takeWhile isDigitOrSeparator) :=
    local_takeWhile fun _ h => h.not_isDigitOrSeparator
  (hwhole.append local_fraction).append local_exponent

theorem number_local {c : Char} {cs rest rest' : List Char} (hrest' : Separated rest')
    (hfits : number c (cs ++ rest) <+: c :: cs) :
    number c (cs ++ rest') = number c (cs ++ rest) := by
  unfold number at *
  by_cases hradix : c = '0' ∧ radixTail (cs ++ rest) ≠ []
  · rw [if_pos hradix, List.cons_prefix_cons] at hfits
    rw [local_radixTail cs rest rest' hrest' hfits.2, if_pos hradix, if_pos hradix]
  · rw [if_neg hradix, List.cons_prefix_cons] at hfits
    have hnone (hc : c = '0') : radixTail (cs ++ rest') = [] := by
      have hempty : radixTail (cs ++ rest) = [] := by simpa [hc] using hradix
      rw [local_radixTail cs rest rest' hrest' (by simp [hempty]), hempty]
    rw [if_neg hradix, if_neg fun h => h.2 (hnone h.1),
      local_decimalTail cs rest rest' hrest' hfits.2]

theorem symbol_local {c : Char} {cs rest rest' : List Char} (hrest' : Separated rest')
    (hfits : (symbol c (cs ++ rest)).2 <+: c :: cs) :
    symbol c (cs ++ rest') = symbol c (cs ++ rest) := by
  cases cs with
  | nil =>
    have hsingle {more : List Char} (hmore : ∀ d ∈ more.head?, pairs.lookup (c, d) = none) :
        symbol c more = ((singles.lookup c).getD .illegal, [c]) := by
      cases more with
      | nil => rfl
      | cons d more => simp only [symbol, hmore d rfl]
    rw [List.nil_append, List.nil_append, hsingle, hsingle]
    · intro d hd
      cases rest with
      | nil => cases hd
      | cons e rest =>
        cases hpair : pairs.lookup (c, d) with
        | none => rfl
        | some kind =>
          obtain rfl : e = d := by simpa using hd
          simp [symbol, hpair] at hfits
    · intro d hd
      cases hpair : pairs.lookup (c, d) with
      | none => rfl
      | some kind =>
        exact absurd (List.mem_map_of_mem (mem_of_lookup hpair)) (hrest' d hd).2.2
  | cons d cs => rfl

def closes (quote : Char) : List Char → Bool
  | [] => false
  | ['\\'] => false
  | '\\' :: _ :: cs => closes quote cs
  | c :: cs => c == quote || closes quote cs

def isTerminated : List Char → Bool
  | [] => false
  | quote :: cs => closes quote cs

theorem closes_plain {quote c : Char} (hslash : c ≠ '\\') (cs : List Char) :
    closes quote (c :: cs) = (c == quote || closes quote cs) := by
  rw [closes.eq_def]
  split <;> simp_all

theorem stringTail_ne_nil (quote c : Char) (cs : List Char) : stringTail quote (c :: cs) ≠ [] := by
  rw [stringTail.eq_def]
  split
  · contradiction
  · simp
  · simp
  · split <;> simp

theorem stringTail_quote {quote : Char} (hslash : quote ≠ '\\') (cs : List Char) :
    stringTail quote (quote :: cs) = [quote] := by
  rw [stringTail.eq_def]
  split <;> simp_all

theorem stringTail_local {quote : Char} (hslash : quote ≠ '\\') {cs rest rest' : List Char}
    (hfits : stringTail quote (cs ++ rest) <+: cs)
    (hclosed : rest' = [] ∨ closes quote (stringTail quote (cs ++ rest)) = true) :
    stringTail quote (cs ++ rest') = stringTail quote (cs ++ rest) := by
  fun_induction closes quote cs with
  | case1 =>
    cases rest with
    | nil =>
      rcases hclosed with rfl | hclosed
      · rfl
      · cases hclosed
    | cons d rest => exact absurd (List.prefix_nil.mp hfits) (stringTail_ne_nil quote d rest)
  | case2 =>
    cases rest with
    | nil =>
      rcases hclosed with rfl | hclosed
      · rfl
      · cases hclosed
    | cons d rest => simp [stringTail_escape] at hfits
  | case3 c cs ih =>
    simp only [List.cons_append, stringTail_escape, List.cons_prefix_cons, true_and,
      closes] at hfits hclosed ⊢
    rw [ih hfits hclosed]
  | case4 c cs hlast hescape ih =>
    have hplain : c ≠ '\\' := by
      rintro rfl
      cases cs with
      | nil => exact hlast rfl rfl
      | cons d cs => exact hescape d cs rfl rfl
    by_cases hquote : c = quote
    · subst hquote
      simp [stringTail_quote hslash]
    · simp only [List.cons_append, stringTail_plain hquote hplain, List.cons_prefix_cons,
        true_and] at hfits hclosed ⊢
      rw [closes_plain hplain] at hclosed
      rw [ih hfits (by simpa [hquote] using hclosed)]

/-- A string that ends before the text does has its closing quote. -/
theorem closes_of_stringTail {quote d : Char} {cs rest : List Char}
    (h : stringTail quote (cs ++ d :: rest) = cs) : closes quote cs = true := by
  fun_induction closes quote cs with
  | case1 => exact absurd h (stringTail_ne_nil quote d rest)
  | case2 => simp [stringTail_escape] at h
  | case3 c cs ih =>
    simp only [List.cons_append, stringTail_escape, List.cons.injEq, true_and] at h
    exact ih h
  | case4 c cs hlast hescape ih =>
    have hplain : c ≠ '\\' := by
      rintro rfl
      cases cs with
      | nil => exact hlast rfl rfl
      | cons e cs => exact hescape e cs rfl rfl
    by_cases hquote : c = quote
    · simp [hquote]
    · simp only [List.cons_append, stringTail_plain hquote hplain, List.cons.injEq, true_and] at h
      simp [ih h]

theorem symbol_kind_ne {kind : Kind}
    (hkind : kind ∉ .illegal :: (singles.map (·.2) ++ pairs.map (·.2))) (c : Char)
    (cs : List Char) : (symbol c cs).1 ≠ kind := by
  simp only [List.mem_cons, List.mem_append, not_or] at hkind
  have hsingle : (singles.lookup c).getD .illegal ≠ kind := by
    cases h : singles.lookup c with
    | none => exact fun heq => hkind.1 heq.symm
    | some k => exact fun heq => hkind.2.1 (heq ▸ List.mem_map_of_mem (mem_of_lookup h))
  unfold symbol
  cases cs with
  | nil => exact hsingle
  | cons d cs =>
    simp only
    split
    · next k h => exact fun heq => hkind.2.2 (heq ▸ List.mem_map_of_mem (mem_of_lookup h))
    · exact hsingle

theorem first_kind_ne_eof (c : Char) (cs : List Char) : (first c cs).1 ≠ .eof := by
  unfold first
  split
  · nofun
  · split
    · nofun
    · split
      · exact wordKind_ne (by decide) (by decide) _
      · exact symbol_kind_ne (by decide) c cs

/-- What the scanner takes does not depend on what lies beyond it. -/
theorem first_local {c : Char} {cs rest rest' : List Char} (hrest' : Separated rest')
    (hfits : (first c (cs ++ rest)).2 <+: c :: cs)
    (hclosed : (first c (cs ++ rest)).1 = .string →
      rest' = [] ∨ isTerminated (first c (cs ++ rest)).2 = true) :
    first c (cs ++ rest') = first c (cs ++ rest) := by
  by_cases hdigit : c.isDigit = true
  · have hshape (more : List Char) : first c more = (.number, number c more) := by
      simp [first, hdigit]
    rw [hshape] at hfits
    rw [hshape, hshape, number_local hrest' hfits]
  by_cases hquote : c = '"' ∨ c = '\''
  · have hshape (more : List Char) : first c more = (.string, c :: stringTail c more) := by
      simp [first, hdigit, hquote]
    have hslash : c ≠ '\\' := by rcases hquote with rfl | rfl <;> decide
    rw [hshape, List.cons_prefix_cons] at hfits
    rw [hshape] at hclosed
    rw [hshape, hshape, stringTail_local hslash hfits.2 (hclosed rfl)]
  by_cases hstart : isWordStart c = true
  · have hshape (more : List Char) : first c more =
        (wordKind (c :: more.takeWhile isWordChar), c :: more.takeWhile isWordChar) := by
      simp [first, hdigit, hquote, hstart]
    rw [hshape, List.cons_prefix_cons] at hfits
    rw [hshape, hshape, local_takeWhile (fun _ h => h.1) cs rest rest' hrest' hfits.2]
  · have hshape (more : List Char) : first c more = symbol c more := by
      simp [first, hdigit, hquote, hstart]
    rw [hshape] at hfits
    rw [hshape, hshape, symbol_local hrest' hfits]

theorem append_isPrefix {scan next : List Char → List Char} (hscan : ∀ cs, scan cs <+: cs)
    (hnext : ∀ cs, next cs <+: cs) (cs : List Char) :
    scan cs ++ next (cs.drop (scan cs).length) <+: cs := by
  obtain ⟨more, hmore⟩ := hscan cs
  generalize scan cs = taken at *
  subst hmore
  rw [List.drop_left, List.prefix_append_right_inj]
  exact hnext more

theorem fraction_isPrefix (cs : List Char) : fraction cs <+: cs := by
  unfold fraction
  split
  · split
    · exact List.cons_prefix_cons.mpr ⟨rfl, List.cons_prefix_cons.mpr
        ⟨rfl, List.takeWhile_prefix _⟩⟩
    · exact List.nil_prefix
  · exact List.nil_prefix

theorem sign_isPrefix (cs : List Char) : sign cs <+: cs := by
  cases cs with
  | nil => exact List.prefix_refl _
  | cons c cs =>
    simp only [sign]
    split
    · exact List.cons_prefix_cons.mpr ⟨rfl, List.nil_prefix⟩
    · exact List.nil_prefix

theorem exponent_isPrefix (cs : List Char) : exponent cs <+: cs := by
  cases cs with
  | nil => exact List.prefix_refl _
  | cons letter cs =>
    have htail := append_isPrefix sign_isPrefix (fun _ => List.takeWhile_prefix Char.isDigit) cs
    simp only [exponent]
    split
    · exact List.cons_prefix_cons.mpr ⟨rfl, htail⟩
    · exact List.nil_prefix

theorem radixTail_isPrefix (cs : List Char) : radixTail cs <+: cs := by
  cases cs with
  | nil => exact List.prefix_refl _
  | cons letter cs =>
    simp only [radixTail]
    split
    · split
      · exact List.nil_prefix
      · exact List.cons_prefix_cons.mpr ⟨rfl, List.takeWhile_prefix _⟩
    · exact List.nil_prefix

theorem decimalTail_isPrefix (cs : List Char) : decimalTail cs <+: cs :=
  append_isPrefix (append_isPrefix (fun _ => List.takeWhile_prefix _) fraction_isPrefix)
    exponent_isPrefix
    cs

theorem stringTail_isPrefix (quote : Char) (cs : List Char) : stringTail quote cs <+: cs := by
  fun_induction stringTail quote cs with
  | case1 => exact List.prefix_refl _
  | case2 => exact List.prefix_refl _
  | case3 c cs ih => exact List.cons_prefix_cons.mpr ⟨rfl, List.cons_prefix_cons.mpr ⟨rfl, ih⟩⟩
  | case4 => exact List.cons_prefix_cons.mpr ⟨rfl, List.nil_prefix⟩
  | case5 c cs _ _ _ ih => exact List.cons_prefix_cons.mpr ⟨rfl, ih⟩

theorem symbol_isPrefix (c : Char) (cs : List Char) : (symbol c cs).2 <+: c :: cs := by
  unfold symbol
  cases cs with
  | nil => exact List.prefix_refl _
  | cons d cs =>
    simp only
    split <;> simp

/-- A lexeme is the start of the text that it is taken from. -/
theorem first_isPrefix (c : Char) (cs : List Char) : (first c cs).2 <+: c :: cs := by
  unfold first
  split
  · unfold number
    split
    · exact List.cons_prefix_cons.mpr ⟨rfl, radixTail_isPrefix cs⟩
    · exact List.cons_prefix_cons.mpr ⟨rfl, decimalTail_isPrefix cs⟩
  · split
    · exact List.cons_prefix_cons.mpr ⟨rfl, stringTail_isPrefix c cs⟩
    · split
      · exact List.cons_prefix_cons.mpr ⟨rfl, List.takeWhile_prefix _⟩
      · exact symbol_isPrefix c cs

/-- From `text` followed by `rest`, the scanner takes `text` as a lexeme of this kind. -/
def Takes (kind : Kind) (text rest : List Char) : Prop :=
  ∃ c cs, text = c :: cs ∧ isLayout c = false ∧ first c (cs ++ rest) = (kind, text)

namespace Takes

variable {kind : Kind} {text more rest rest' : List Char}

theorem of_first {c : Char} (hlayout : isLayout c = false) (cs : List Char) :
    ∃ text rest, c :: cs = text ++ rest ∧ Takes (first c cs).1 text rest := by
  obtain ⟨rest, hrest⟩ := first_isPrefix c cs
  obtain ⟨d, text, htext⟩ := List.exists_cons_of_ne_nil (first_ne_nil c cs)
  rw [htext, List.cons_append, List.cons.injEq] at hrest
  obtain ⟨rfl, rfl⟩ := hrest
  exact ⟨d :: text, rest, rfl, d, text, rfl, hlayout, by rw [← htext]⟩

theorem ne_nil (h : Takes kind text rest) : text ≠ [] := by
  obtain ⟨c, cs, rfl, -, -⟩ := h
  exact List.cons_ne_nil c cs

theorem kind_ne_eof (h : Takes kind text rest) : kind ≠ .eof := by
  obtain ⟨c, cs, rfl, -, hfirst⟩ := h
  have hkind := first_kind_ne_eof c (cs ++ rest)
  rwa [hfirst] at hkind

/-- The text beyond a lexeme can be cut off or replaced. -/
theorem replace (h : Takes kind text (more ++ rest)) (hrest' : Separated rest')
    (hclosed : kind = .string → rest' = [] ∨ isTerminated text = true) :
    Takes kind text (more ++ rest') := by
  obtain ⟨c, cs, rfl, hlayout, hfirst⟩ := h
  refine ⟨c, cs, rfl, hlayout, ?_⟩
  rw [← List.append_assoc] at hfirst ⊢
  have hsame := @first_local c (cs ++ more) rest rest' hrest'
  rw [hfirst] at hsame
  exact hsame (List.prefix_append (c :: cs) more) hclosed

/-- A string starts with its quote, and the scanner takes all the rest of it. -/
theorem string_eq (h : Takes .string text rest) : ∃ quote cs, (quote = '"' ∨ quote = '\'') ∧
    text = quote :: cs ∧ stringTail quote (cs ++ rest) = cs := by
  obtain ⟨c, cs, rfl, -, hfirst⟩ := h
  unfold first at hfirst
  split at hfirst
  · cases congrArg Prod.fst hfirst
  · split at hfirst
    · next hquote => exact ⟨c, cs, hquote, rfl, by simpa using hfirst⟩
    · split at hfirst
      · exact absurd (congrArg Prod.fst hfirst) (wordKind_ne_string _)
      · have hkind : (symbol c (cs ++ rest)).1 = .string := congrArg Prod.fst hfirst
        exact absurd hkind (symbol_kind_ne (by decide) _ _)

theorem isTerminated {d : Char} (h : Takes .string text (d :: rest)) :
    isTerminated text = true := by
  obtain ⟨quote, cs, -, rfl, htail⟩ := h.string_eq
  exact closes_of_stringTail htail

end Takes

end SchemaExpr.Scan
