import Mathlib.Data.String.Basic
import SchemaExpr.Token.Lexer

/-!
# Places in a source

A place in a source is given by the text before it. The bytes of that text are the offset of the
place, its line feeds are the lines before the place, and the characters after the last of them are
the columns before it. A text between two places is cut out by their offsets.
-/
namespace SchemaExpr

open String (utf8Len)

def textBetween (source : String) (start stop : Nat) : String :=
  String.Pos.Raw.extract source ⟨start⟩ ⟨stop⟩

/-- The offset does not lie inside a character or beyond the end. -/
def IsBoundary (source : String) (offset : Nat) : Prop :=
  String.Pos.Raw.IsValid source ⟨offset⟩

section Cuts

variable {source : String} {before text rest : List Char}

theorem textBetween_of_split (h : source.toList = before ++ (text ++ rest)) :
    textBetween source (utf8Len before) (utf8Len (before ++ text)) = String.ofList text := by
  have hcut := String.extract_of_valid before text rest
  rw [List.append_assoc, ← h, String.ofList_toList] at hcut
  rw [textBetween, String.utf8Len_append]
  exact hcut

theorem textBetween_zero_of_split (h : source.toList = before ++ rest) :
    textBetween source 0 (utf8Len before) = String.ofList before :=
  @textBetween_of_split source [] before rest h

theorem textBetween_end_of_split (h : source.toList = before ++ rest) :
    textBetween source (utf8Len before) source.utf8ByteSize = String.ofList rest := by
  have hsplit : source.toList = before ++ (rest ++ []) := by simpa using h
  rw [← String.utf8Len_toList, h]
  exact textBetween_of_split hsplit

theorem isBoundary_of_split (h : source.toList = before ++ rest) :
    IsBoundary source (utf8Len before) := by
  refine String.Pos.Raw.isValid_iff_exists_append.mpr
    ⟨String.ofList before, String.ofList rest, ?_, ?_⟩
  · rw [← String.ofList_append, ← h, String.ofList_toList]
  · rw [String.rawEndPos_ofList]

theorem utf8Len_le_of_split (h : source.toList = before ++ rest) :
    utf8Len before ≤ source.utf8ByteSize := by
  rw [← String.utf8Len_toList, h, String.utf8Len_append]
  exact Nat.le_add_right _ _

end Cuts

namespace Position

/-- The position after a text, counted from its start. -/
def after (text : List Char) : Position :=
  ⟨text.count '\n' + 1, (text.reverse.takeWhile (· != '\n')).length + 1⟩

/-- The position of a byte offset, counted from the start of the source. -/
def ofOffset (source : String) (offset : Nat) : Position :=
  after (textBetween source 0 offset).toList

theorem after_concat (text : List Char) (c : Char) : after (text ++ [c]) = (after text).next c := by
  by_cases hc : c = '\n'
  · simp [after, next, hc]
  · simp [after, next, hc]

/-- Counting character by character agrees with counting from the start. -/
theorem foldl_next_after (before text : List Char) :
    text.foldl next (after before) = after (before ++ text) := by
  induction text generalizing before with
  | nil => simp
  | cons c text ih =>
    rw [List.foldl_cons, ← after_concat, ih, List.append_assoc, List.singleton_append]

theorem ofOffset_of_split {source : String} {before rest : List Char}
    (h : source.toList = before ++ rest) : ofOffset source (utf8Len before) = after before := by
  rw [ofOffset, textBetween_zero_of_split h, String.toList_ofList]

end Position

namespace Span

def text (s : Span) (source : String) : String := textBetween source s.start s.stop

/-- The span of a text that stands after `before`. -/
def placed (before text : List Char) : Span :=
  ⟨utf8Len before, utf8Len (before ++ text), Position.after before⟩

theorem text_placed {source : String} {before text rest : List Char}
    (h : source.toList = before ++ (text ++ rest)) :
    (placed before text).text source = String.ofList text :=
  textBetween_of_split h

end Span

end SchemaExpr
