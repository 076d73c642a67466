import LiveUI.Number.Binary64
import LiveUI.Number.Digits

/-!
# Reading numerals

Integers of 64 bits and doubles from decimal text. An integer outside the range has no reading; a
double is the nearest one, however long its mantissa. An exponent counts no digit after the one
that takes it to 65536 or beyond.
-/

namespace LiveUI.Number

/-- An integer that fits 64 bits. -/
def int64? (n : Int) : Option Int64 :=
  if Int64.minValue.toInt ≤ n ∧ n ≤ Int64.maxValue.toInt then some (Int64.ofInt n) else none

/-- Split off a leading sign; true for a minus. -/
def takeSign : List Char → Bool × List Char
  | '-' :: cs => (true, cs)
  | '+' :: cs => (false, cs)
  | cs => (false, cs)

/-- An optional sign and one digit at least, in range. -/
def readInt? (s : String) : Option Int64 :=
  let (negative, ds) := takeSign s.toList
  if ds.isEmpty || !ds.all Char.isDigit then none
  else int64? (if negative then -(digitsValue ds : Int) else digitsValue ds)

/-- The magnitude that the digits of an exponent write. It grows by a digit as long as it is below
65536, and the digits behind that point are read and not counted. -/
def exponentValue (cs : List Char) : Nat :=
  cs.foldl (fun n c => if n < 65536 then 10 * n + digitValue c else n) 0

/-- The part after a mantissa: nothing, or a marked exponent of one digit at least. -/
def readExponent? : List Char → Option Int
  | [] => some 0
  | c :: cs =>
      if c = 'e' ∨ c = 'E' then
        let (negative, ds) := takeSign cs
        if ds.isEmpty || !ds.all Char.isDigit then none
        else some (if negative then -(exponentValue ds : Int) else exponentValue ds)
      else none

/-- `digits · 10 ^ exponent` as a double. A magnitude beyond every double, or below all of them, is
decided before its power of ten is written out. -/
def decimalFloat (negative : Bool) (digits : Nat) (exponent : Int) : Float :=
  if digits = 0 then nearest negative 0 1
  else if exponent > 400 then nearest negative (Nat.pow 2 1024) 1
  else if exponent + (digits.log2 : Int) < -1200 then nearest negative 0 1
  else if exponent < 0 then nearest negative digits (Nat.pow 10 exponent.natAbs)
  else nearest negative (digits * Nat.pow 10 exponent.natAbs) 1

/-- The words for the values that are no numbers, in any case of their letters. -/
def readWord? (negative : Bool) (cs : List Char) : Option Float :=
  match String.ofList (cs.map Char.toLower) with
  | "inf" | "infinity" => some (ofMagnitude negative ((Nat.pow 2 11 - 1) * Nat.pow 2 52))
  | "nan" => some (0.0 / 0.0)
  | _ => none

/-- An optional sign, then digits with an optional point among or beside them and an optional
exponent, or one of the words for infinity and not-a-number. -/
def readFloat? (s : String) : Option Float :=
  let (negative, cs) := takeSign s.toList
  let whole := cs.takeWhile Char.isDigit
  let rest := cs.dropWhile Char.isDigit
  let (fraction, rest) := match rest with
    | '.' :: cs => (cs.takeWhile Char.isDigit, cs.dropWhile Char.isDigit)
    | cs => ([], cs)
  if whole.isEmpty && fraction.isEmpty then readWord? negative cs
  else
    (readExponent? rest).map fun exponent =>
      decimalFloat negative (digitsValue (whole ++ fraction)) (exponent - fraction.length)

end LiveUI.Number
