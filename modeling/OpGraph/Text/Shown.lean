import OpGraph.Text.Printable

/-!
# Texts in messages

A message shows a text between quotes, with everything escaped that a reader could not see or
could take for the end.
-/

namespace OpGraph.Text

def codePoint (c : Char) : List Char :=
  ['\\', 'u', '\x7b'] ++ Nat.toDigits 16 c.toNat ++ ['\x7d']

def showChar (c : Char) : List Char :=
  if c = '\x00' then ['\\', '0']
  else if c = '\t' then ['\\', 't']
  else if c = '\r' then ['\\', 'r']
  else if c = '\n' then ['\\', 'n']
  else if c = '"' then ['\\', '"']
  else if c = '\\' then ['\\', '\\']
  else if isPrintable c then [c]
  else codePoint c

def shown (s : String) : String := .ofList ('"' :: s.toList.flatMap showChar ++ ['"'])

end OpGraph.Text
