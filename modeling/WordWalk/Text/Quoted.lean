import WordWalk.Text.Hidden

/-! # Quoted text in messages

A string shown inside a message stands between quotes. The quote, the backslash and the
usual control characters have escapes of one letter, other hidden characters are given
by their code point in braces, and everything else stands for itself.
-/

namespace WordWalk

/-- A character as it is shown between quotes. -/
def shownChar (c : Char) : List Char :=
  if c = '\x00' then ['\\', '0']
  else if c = '\t' then ['\\', 't']
  else if c = '\r' then ['\\', 'r']
  else if c = '\n' then ['\\', 'n']
  else if c = '\\' then ['\\', '\\']
  else if c = '"' then ['\\', '"']
  else if isHidden c then '\\' :: 'u' :: '\x7b' :: Nat.toDigits 16 c.toNat ++ ['\x7d']
  else [c]

def shown (s : String) : String := String.ofList ('"' :: s.toList.flatMap shownChar ++ ['"'])

end WordWalk
