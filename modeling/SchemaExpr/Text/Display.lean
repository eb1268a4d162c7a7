import SchemaExpr.Text.Hidden

/-!
# Quoted display text

How a text is shown to a person: between double quotes, with every character that would not be
seen, or that would attach itself to the character before it, written as an escape.
-/
namespace SchemaExpr.Text

/-- The escape of a code point by number, in lower-case hexadecimal without padding. -/
def codePointEscape (c : Char) : List Char :=
  '\\' :: 'u' :: '\x7b' :: (Nat.toDigits 16 c.toNat ++ ['\x7d'])

def displayChar (c : Char) : List Char :=
  if c = '"' then ['\\', '"']
  else if c = '\\' then ['\\', '\\']
  else if c = '\n' then ['\\', 'n']
  else if c = '\r' then ['\\', 'r']
  else if c = '\t' then ['\\', 't']
  else if c = '\x00' then ['\\', '0']
  else if hidden.contains c then codePointEscape c
  else [c]

def displayQuoted (s : String) : String :=
  String.ofList ('"' :: (s.toList.flatMap displayChar ++ ['"']))

end SchemaExpr.Text
