import LiveUI.Number.Shortest

/-!
# Writing doubles

Two forms. The *plain* form never has an exponent: an integral number is written in full, any other
with its shortest digits. The *source* form is the one of tokens and listings: shortest digits,
positional from one ten-thousandth up to ten to the sixteenth and with an exponent elsewhere.
-/

namespace LiveUI.Number

def zeros (n : Nat) : List Char :=
  List.replicate n '0'

/-- A decimal in positional notation, with one digit after the point at least. -/
def positional (d : Decimal) : List Char :=
  let ds := Nat.toDigits 10 d.digits
  if 0 ≤ d.exponent then ds ++ zeros d.exponent.toNat ++ ['.', '0']
  else
    let places := d.exponent.natAbs
    let padded := zeros (places + 1 - ds.length) ++ ds
    padded.take (padded.length - places) ++ '.' :: padded.drop (padded.length - places)

/-- The power of ten of the first digit. -/
def order (d : Decimal) : Int :=
  d.exponent + ((Nat.toDigits 10 d.digits).length - 1 : Nat)

/-- A decimal with one digit before the point and an exponent. -/
def scientific (d : Decimal) : List Char :=
  let mantissa := match Nat.toDigits 10 d.digits with
    | [] => []
    | [c] => [c]
    | c :: rest => c :: '.' :: rest
  mantissa ++ 'e' :: (toString (order d)).toList

def signed (negative : Bool) (cs : List Char) : String :=
  String.ofList (if negative then '-' :: cs else cs)

/-- The source form has no exponent from one ten-thousandth up to ten to the sixteenth. -/
def isPositional (d : Decimal) : Bool :=
  order d ≥ -4 && order d < 16

/-- The plain form. -/
def plain (x : Float) : String :=
  match Binary64.ofFloat x with
  | .undefined => "NaN"
  | .infinite negative => signed negative "inf".toList
  | .finite negative m e =>
      let (n, d) := shifted m e
      if n % d = 0 then signed negative (Nat.toDigits 10 (n / d) ++ ['.', '0'])
      else signed negative (positional (shortest m e))

/-- The source form. -/
def source (x : Float) : String :=
  match Binary64.ofFloat x with
  | .undefined => "NaN"
  | .infinite negative => signed negative "inf".toList
  | .finite negative m e =>
      if m = 0 then signed negative ['0', '.', '0']
      else
        let d := shortest m e
        signed negative (if isPositional d then positional d else scientific d)

end LiveUI.Number
