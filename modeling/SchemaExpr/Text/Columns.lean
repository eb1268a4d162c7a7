import SchemaExpr.Text.Wide
import SchemaExpr.Text.ZeroWidth

/-!
# Columns of a character

How many columns of a terminal a character takes, from none for a mark to three for the Khmer sign
beyyal. A mark that is also wide takes none.
-/
namespace SchemaExpr.Text

def columns (c : Char) : Nat :=
  if c = '\u17d8' then 3
  else if zeroWidth.contains c then 0
  else if wide.contains c then 2
  else 1

theorem columns_le_three (c : Char) : columns c ≤ 3 := by
  unfold columns
  repeat' split
  all_goals decide

end SchemaExpr.Text
