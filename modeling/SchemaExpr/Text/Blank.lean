import SchemaExpr.Text.CharSet

/-!
# White space

The characters with the Unicode property White_Space.
-/
namespace SchemaExpr.Text

def blanks : CharSet := ⟨[
  (0x0009, 0x000D), (0x0020, 0x0020), (0x0085, 0x0085), (0x00A0, 0x00A0), (0x1680, 0x1680),
  (0x2000, 0x200A), (0x2028, 0x2029), (0x202F, 0x202F), (0x205F, 0x205F), (0x3000, 0x3000)]⟩

def isBlank (c : Char) : Bool := blanks.contains c

def trimEnd (cs : List Char) : List Char := (cs.reverse.dropWhile isBlank).reverse

end SchemaExpr.Text
