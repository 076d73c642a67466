import LiveUI.Text.Printable

/-!
# Quoted text

How messages show a string or a character: between quotation marks, with an escape for the mark
itself, for the backslash and for every character that is not shown as itself.
-/

namespace LiveUI.Text

def doubleMark : Char := '\x22'

def singleMark : Char := '\x27'

/-- Hexadecimal digits, lower case, at least one. -/
def hexDigits (n : Nat) : List Char :=
  Nat.toDigits 16 n

/-- One character between the quotation marks `mark`. -/
def escape (mark c : Char) : List Char :=
  if c = mark then ['\\', mark]
  else if c = '\\' then ['\\', '\\']
  else if c = '\n' then ['\\', 'n']
  else if c = '\r' then ['\\', 'r']
  else if c = '\t' then ['\\', 't']
  else if c.toNat = 0 then ['\\', '0']
  else if isPrintable c then [c]
  else ['\\', 'u', '\x7b'] ++ hexDigits c.toNat ++ ['\x7d']

/-- A string between double quotation marks. -/
def quoted (s : String) : String :=
  String.ofList (doubleMark :: s.toList.flatMap (escape doubleMark) ++ [doubleMark])

/-- A character between single quotation marks. -/
def quotedChar (c : Char) : String :=
  String.ofList (singleMark :: escape singleMark c ++ [singleMark])

end LiveUI.Text
