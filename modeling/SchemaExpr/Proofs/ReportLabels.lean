import SchemaExpr.Proofs.SourcePlaces
import SchemaExpr.Report

/-!
# The labels of reports

A label is a range of characters and a span is a range of bytes, which may lie anywhere. An offset
at a place of the source is turned into the number of characters before that place, and any other
offset into some number that is not beyond the end. From two such numbers a label is made that is
never empty, and that stands at the very place of the span wherever the span has one.
-/
namespace SchemaExpr.Report

open String (utf8Len)

section Offsets

theorem le_of_charOffset? {source : List Char} {byte n : Nat}
    (h : charOffset? source byte = some n) : n ≤ source.length := by
  induction source generalizing byte n with
  | nil =>
    cases h
    exact Nat.le_refl 0
  | cons c cs ih =>
    rw [charOffset?] at h
    split_ifs at h with hzero hinside
    · cases h
      exact Nat.zero_le _
    · obtain ⟨m, hm, rfl⟩ := Option.map_eq_some_iff.mp h
      exact Nat.succ_le_succ (ih hm)

theorem charOffset_le (source : List Char) (byte : Nat) :
    charOffset source byte ≤ source.length := by
  unfold charOffset
  cases h : charOffset? source byte with
  | none => exact Nat.le_refl _
  | some n => exact le_of_charOffset? h

/-- At a place of the text, the offset is turned into the number of characters before it. -/
theorem charOffset?_utf8Len (before rest : List Char) :
    charOffset? (before ++ rest) (utf8Len before) = some before.length := by
  induction before with
  | nil => cases rest <;> rfl
  | cons c before ih =>
    have hsize := c.utf8Size_pos
    have hnonzero : utf8Len before + c.utf8Size ≠ 0 := by omega
    have hbeyond : ¬ utf8Len before + c.utf8Size < c.utf8Size := by omega
    rw [List.cons_append, String.utf8Len_cons, charOffset?, if_neg hnonzero, if_neg hbeyond,
      Nat.add_sub_cancel, ih]
    rfl

theorem charOffset_utf8Len (before rest : List Char) :
    charOffset (before ++ rest) (utf8Len before) = before.length := by
  rw [charOffset, charOffset?_utf8Len, Option.getD_some]

/-- The number of characters of a source before a byte offset. -/
def charsBefore (source : String) (offset : Nat) : Nat := (textBetween source 0 offset).length

theorem charsBefore_of_split {source : String} {before rest : List Char}
    (h : source.toList = before ++ rest) : charsBefore source (utf8Len before) = before.length := by
  rw [charsBefore, textBetween_zero_of_split h, String.length_ofList]

/-- The source is cut in two at every place that is not inside a character. -/
theorem exists_split_of_isBoundary {source : String} {offset : Nat}
    (h : IsBoundary source offset) :
    ∃ before rest, source.toList = before ++ rest ∧ utf8Len before = offset := by
  obtain ⟨left, right, rfl, hoffset⟩ := String.Pos.Raw.isValid_iff_exists_append.mp h
  refine ⟨left.toList, right.toList, String.toList_append, ?_⟩
  rw [String.utf8Len_toList]
  exact (congrArg String.Pos.Raw.byteIdx hoffset).symm

end Offsets

namespace Label

/-- The characters that a label marks. -/
def chars (label : Label) (source : String) : List Char :=
  (source.toList.drop label.start).take (label.stop - label.start)

theorem chars_of_split {source : String} {before text rest : List Char}
    (h : source.toList = before ++ (text ++ rest)) :
    chars ⟨before.length, before.length + text.length⟩ source = text := by
  simp [chars, h]

variable {source : List Char} {span : Span}

/-- A label of at least one character ends after it starts and before the source does. -/
theorem ofSpan_bounds (hsource : source ≠ []) (span : Span) :
    (ofSpan source span).start < (ofSpan source span).stop ∧
      (ofSpan source span).stop ≤ source.length := by
  have hpos := List.length_pos_iff.mpr hsource
  have hstart := charOffset_le source span.start
  have hstop := charOffset_le source span.stop
  unfold ofSpan
  simp only
  split_ifs with hempty hroom
  · exact ⟨Nat.lt_succ_of_le (Nat.le_of_eq hempty), hroom⟩
  · simp only
    omega
  · simp only
    omega

theorem ofSpan_of_lt (h : charOffset source span.start < charOffset source span.stop) :
    ofSpan source span = ⟨charOffset source span.start, charOffset source span.stop⟩ := by
  have hmax := Nat.max_eq_left (Nat.le_of_lt h)
  simp only [ofSpan, hmax, if_neg (Nat.ne_of_lt h)]

theorem ofSpan_of_eq (h : span.start = span.stop) : ofSpan source span =
    if charOffset source span.start < source.length then
      ⟨charOffset source span.start, charOffset source span.start + 1⟩
    else ⟨charOffset source span.start - 1, charOffset source span.start⟩ := by
  simp only [ofSpan, h, Nat.max_self, if_true]

/-- What a label has to do with the span that it is made for. It lies in the source, and a span
between characters decides where it starts, where it stops and which characters it marks. -/
structure Marks (label : Label) (source : String) (span : Span) : Prop where
  nonempty : label.start < label.stop
  inside : label.stop ≤ source.length
  /-- The text of the span, if it has any. -/
  text : span.start < span.stop → IsBoundary source span.start → IsBoundary source span.stop →
    label.start = charsBefore source span.start ∧ label.stop = charsBefore source span.stop ∧
      label.chars source = (span.text source).toList
  /-- The character at the place of an empty span. -/
  character : span.start = span.stop → IsBoundary source span.start →
    span.start < source.utf8ByteSize →
      label.start = charsBefore source span.start ∧
        label.stop = charsBefore source span.start + 1 ∧
        label.chars source = [String.Pos.Raw.get source ⟨span.start⟩]
  /-- The last character, if an empty span stands at the end. -/
  last : span.start = span.stop → span.start = source.utf8ByteSize →
    label.start + 1 = source.length ∧ label.stop = source.length ∧
      label.chars source = source.toList.getLast?.toList

end Label

section Selection

variable {source : String} {span : Span}

/-- Two places of a source cut it in three. -/
theorem exists_split_of_isBoundary_of_lt {start stop : Nat} (hlt : start < stop)
    (hstart : IsBoundary source start) (hstop : IsBoundary source stop) :
    ∃ before text rest, source.toList = before ++ (text ++ rest) ∧ utf8Len before = start ∧
      utf8Len (before ++ text) = stop ∧ 0 < text.length := by
  obtain ⟨before, beyond, hbefore, hbeforeLen⟩ := exists_split_of_isBoundary hstart
  obtain ⟨upTo, rest, hupTo, hupToLen⟩ := exists_split_of_isBoundary hstop
  obtain ⟨text, rfl⟩ : before <+: upTo := by
    rcases List.prefix_or_prefix_of_prefix ⟨beyond, hbefore.symm⟩ ⟨rest, hupTo.symm⟩ with h | h
    · exact h
    · obtain ⟨more, rfl⟩ := h
      rw [String.utf8Len_append] at hbeforeLen
      omega
  have htext : 0 < text.length := by
    rw [List.length_pos_iff]
    rintro rfl
    rw [List.append_nil] at hupToLen
    omega
  exact ⟨before, text, rest, by rw [hupTo, List.append_assoc], hbeforeLen, hupToLen, htext⟩

theorem ofSpan_of_text (hspan : span.start < span.stop) (hstart : IsBoundary source span.start)
    (hstop : IsBoundary source span.stop) :
    Label.ofSpan source.toList span =
        ⟨charsBefore source span.start, charsBefore source span.stop⟩ ∧
      (Label.ofSpan source.toList span).chars source = (span.text source).toList := by
  obtain ⟨before, text, rest, hsplit, hbefore, hupTo, htext⟩ :=
    exists_split_of_isBoundary_of_lt hspan hstart hstop
  have hsplit' : source.toList = before ++ text ++ rest := by rw [hsplit, List.append_assoc]
  have hstartChar : charOffset source.toList span.start = before.length := by
    rw [hsplit, ← hbefore, charOffset_utf8Len]
  have hstopChar : charOffset source.toList span.stop = before.length + text.length := by
    rw [hsplit', ← hupTo, charOffset_utf8Len, List.length_append]
  have hlabel : Label.ofSpan source.toList span =
      ⟨before.length, before.length + text.length⟩ := by
    rw [Label.ofSpan_of_lt (by omega), hstartChar, hstopChar]
  have hcut : span.text source = String.ofList text := by
    rw [Span.text, ← hbefore, ← hupTo]
    exact textBetween_of_split hsplit
  constructor
  · rw [hlabel, ← hbefore, ← hupTo, charsBefore_of_split hsplit, charsBefore_of_split hsplit',
      List.length_append]
  · rw [hlabel, Label.chars_of_split hsplit, hcut, String.toList_ofList]

theorem ofSpan_of_character (hempty : span.start = span.stop)
    (hstart : IsBoundary source span.start) (hinside : span.start < source.utf8ByteSize) :
    Label.ofSpan source.toList span =
        ⟨charsBefore source span.start, charsBefore source span.start + 1⟩ ∧
      (Label.ofSpan source.toList span).chars source =
        [String.Pos.Raw.get source ⟨span.start⟩] := by
  obtain ⟨before, rest, hsource, hlen⟩ := exists_split_of_isBoundary hstart
  obtain ⟨c, rest, rfl⟩ : ∃ c cs, rest = c :: cs := by
    apply List.exists_cons_of_ne_nil
    rintro rfl
    rw [← String.utf8Len_toList, hsource, List.append_nil, hlen] at hinside
    exact Nat.lt_irrefl _ hinside
  have hstartChar : charOffset source.toList span.start = before.length := by
    rw [hsource, ← hlen, charOffset_utf8Len]
  have hroom : before.length < source.toList.length := by simp [hsource]
  have hlabel : Label.ofSpan source.toList span = ⟨before.length, before.length + 1⟩ := by
    rw [Label.ofSpan_of_eq hempty, hstartChar, if_pos hroom]
  have hget : String.Pos.Raw.get source ⟨span.start⟩ = c := by
    have hvalid := String.get_of_valid before (c :: rest)
    rwa [← hsource, String.ofList_toList, hlen] at hvalid
  have hsplit : source.toList = before ++ ([c] ++ rest) := hsource
  constructor
  · rw [hlabel, ← hlen, charsBefore_of_split hsource]
  · rw [hlabel, hget]
    exact Label.chars_of_split hsplit

theorem ofSpan_of_end (hsource : source.toList ≠ []) (hempty : span.start = span.stop)
    (hend : span.start = source.utf8ByteSize) :
    Label.ofSpan source.toList span = ⟨source.length - 1, source.length⟩ ∧
      (Label.ofSpan source.toList span).chars source = source.toList.getLast?.toList := by
  obtain ⟨before, c, hsplit⟩ := List.eq_nil_or_concat source.toList |>.resolve_left hsource
  rw [List.concat_eq_append] at hsplit
  have hlength : source.length = before.length + 1 := by
    rw [← String.length_toList, hsplit, List.length_append, List.length_singleton]
  have hstartChar : charOffset source.toList span.start = before.length + 1 := by
    have hwhole := charOffset_utf8Len source.toList []
    rw [List.append_nil, String.utf8Len_toList, ← hend, String.length_toList, hlength] at hwhole
    exact hwhole
  have hfull : ¬ before.length + 1 < source.toList.length := by simp [hsplit]
  have hlabel : Label.ofSpan source.toList span = ⟨before.length, before.length + 1⟩ := by
    rw [Label.ofSpan_of_eq hempty, hstartChar, if_neg hfull, Nat.add_sub_cancel]
  have hlast : source.toList = before ++ ([c] ++ []) := by rw [hsplit, List.append_nil]
  constructor
  · rw [hlabel, hlength, Nat.add_sub_cancel]
  · rw [hlabel, hsplit, List.getLast?_concat]
    exact Label.chars_of_split hlast

end Selection

/-- Whatever the span, its label is a range of characters of the source that is not empty; and if
the span lies between characters, the label starts and stops after as many characters as the span,
with the character at its place for an empty one. -/
theorem label_marks_its_span {source : String} (hsource : source ≠ "") (span : Span) :
    (Label.ofSpan source.toList span).Marks source span := by
  have hchars : source.toList ≠ [] := by
    intro hnil
    exact hsource (String.toList_eq_nil_iff.mp hnil)
  obtain ⟨hnonempty, hinside⟩ := Label.ofSpan_bounds hchars span
  rw [String.length_toList] at hinside
  refine ⟨hnonempty, hinside, ?_, ?_, ?_⟩
  · intro hspan hstart hstop
    obtain ⟨hlabel, htext⟩ := ofSpan_of_text hspan hstart hstop
    exact ⟨congrArg Label.start hlabel, congrArg Label.stop hlabel, htext⟩
  · intro hempty hstart hinside
    obtain ⟨hlabel, hcharacter⟩ := ofSpan_of_character hempty hstart hinside
    exact ⟨congrArg Label.start hlabel, congrArg Label.stop hlabel, hcharacter⟩
  · intro hempty hend
    obtain ⟨hlabel, hlast⟩ := ofSpan_of_end hchars hempty hend
    have hstart : (Label.ofSpan source.toList span).start = source.length - 1 :=
      congrArg Label.start hlabel
    exact ⟨by omega, congrArg Label.stop hlabel, hlast⟩

theorem label_marks_its_span_multibyte : "漢 + 漢" ≠ "" ∧
    (Label.ofSpan "漢 + 漢".toList ⟨6, 9, ⟨1, 5⟩⟩).Marks "漢 + 漢" ⟨6, 9, ⟨1, 5⟩⟩ ∧
    Label.ofSpan "漢 + 漢".toList ⟨6, 9, ⟨1, 5⟩⟩ = ⟨4, 5⟩ ∧
    charsBefore "漢 + 漢" 6 = 4 ∧ charsBefore "漢 + 漢" 9 = 5 ∧
    (Label.ofSpan "漢 + 漢".toList ⟨7, 1, ⟨1, 1⟩⟩).Marks "漢 + 漢" ⟨7, 1, ⟨1, 1⟩⟩ ∧
    Label.ofSpan "漢 + 漢".toList ⟨7, 1, ⟨1, 1⟩⟩ = ⟨4, 5⟩ :=
  ⟨by decide, label_marks_its_span (by decide) _, by decide, by decide +kernel, by decide +kernel,
    label_marks_its_span (by decide) _, by decide⟩

end SchemaExpr.Report
