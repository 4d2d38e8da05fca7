import Deduction.Text.Printable

/-!
# Quoted text

A string is written between double quotes. The quote, the backslash and four control characters
have an escape of two characters; every other character that is not printable is written by its
code point in hexadecimal.
-/

namespace Deduction

namespace Text

/-- The characters that stand for `c` inside quoted text. -/
def escape (c : Char) : List Char :=
  if c = '"' then ['\\', '"']
  else if c = '\\' then ['\\', '\\']
  else if c = '\n' then ['\\', 'n']
  else if c = '\r' then ['\\', 'r']
  else if c = '\t' then ['\\', 't']
  else if c = '\x00' then ['\\', '0']
  else if isPrintable c then [c]
  else ['\\', 'u', '\x7b'] ++ Nat.toDigits 16 c.toNat ++ ['\x7d']

/-- The quoted form of a string. -/
def quote (s : String) : String :=
  String.ofList ('"' :: s.toList.flatMap escape ++ ['"'])

/-- The texts one after the other, with a separator between each two. -/
def join (separator : String) (texts : List String) : String :=
  separator.intercalate texts

end Text

end Deduction
