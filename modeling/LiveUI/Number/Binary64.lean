/-!
# Double precision numbers as exact values

A finite double is a significand times a power of two. `Binary64.ofFloat` reads the fields of a
double, and `nearest` gives the double next to a quotient of natural numbers, a tie going to the
even significand. Everything between the two is exact arithmetic on `Nat` and `Int`.
-/

namespace LiveUI.Number

/-- What a double stands for. A finite one is `significand · 2 ^ exponent`, with a sign. -/
inductive Binary64 where
  | finite (negative : Bool) (significand : Nat) (exponent : Int)
  | infinite (negative : Bool)
  | undefined
deriving DecidableEq, Repr, Inhabited

namespace Binary64

/-- The least exponent, that of the numbers next to zero. -/
def minExponent : Int := -1074

/-- Read the three fields of a double from its 64 bits. -/
def ofBits (bits : Nat) : Binary64 :=
  let negative := bits / Nat.pow 2 63 % 2 == 1
  let scale := bits / Nat.pow 2 52 % Nat.pow 2 11
  let fraction := bits % Nat.pow 2 52
  if scale = Nat.pow 2 11 - 1 then
    if fraction = 0 then .infinite negative else .undefined
  else if scale = 0 then .finite negative fraction minExponent
  else .finite negative (Nat.pow 2 52 + fraction) (minExponent + (scale - 1 : Nat))

def ofFloat (x : Float) : Binary64 :=
  ofBits x.toBits.toNat

end Binary64

/-- The double with a sign and the bits of a magnitude. -/
def ofMagnitude (negative : Bool) (bits : Nat) : Float :=
  Float.ofBits (UInt64.ofNat ((if negative then Nat.pow 2 63 else 0) + bits))

/-- `a · 2 ^ e` as a numerator and a denominator. -/
def shifted (a : Nat) (e : Int) : Nat × Nat :=
  if e < 0 then (a, Nat.pow 2 e.natAbs) else (a * Nat.pow 2 e.natAbs, 1)

/-- A quotient rounded to the nearest natural number, a tie going to the even one. -/
def roundEven (num den : Nat) : Nat :=
  let q := num / den
  let r := num % den
  if 2 * r < den then q
  else if 2 * r > den then q + 1
  else q + q % 2

/-- The double nearest to `num / den`, ties to the even significand, infinite beyond the largest
one. The bits of a magnitude count the doubles from zero upwards, so a carry out of the significand
needs no step of its own. -/
def nearest (negative : Bool) (num den : Nat) : Float :=
  if num = 0 then ofMagnitude negative 0
  else
    let guess : Int := (num.log2 : Int) - den.log2 - 53
    let scaled (e : Int) : Nat × Nat :=
      let (n, d) := shifted num (-e)
      (n, d * den)
    let fits := (scaled guess).1 / (scaled guess).2 < Nat.pow 2 53
    let e := max (if fits then guess else guess + 1) Binary64.minExponent
    let significand := roundEven (scaled e).1 (scaled e).2
    let bits := (e - Binary64.minExponent).toNat * Nat.pow 2 52 + significand
    ofMagnitude negative (min bits ((Nat.pow 2 11 - 1) * Nat.pow 2 52))

/-- The integer part of a finite double, towards zero. -/
def truncated? (x : Float) : Option Int :=
  match Binary64.ofFloat x with
  | .finite negative m e =>
      let (n, d) := shifted m e
      some (if negative then -((n / d : Nat) : Int) else (n / d : Nat))
  | _ => none

/-- The remainder of the division towards zero, exact, with the sign of the dividend. The divisor
is not zero. -/
def remainder (x y : Float) : Float :=
  match Binary64.ofFloat x, Binary64.ofFloat y with
  | .finite negative m e, .finite _ n f =>
      let least := min e f
      let a := m * Nat.pow 2 (e - least).toNat
      let b := n * Nat.pow 2 (f - least).toNat
      let (num, den) := shifted (a % b) least
      nearest negative num den
  | .finite .., .infinite _ => x
  | _, _ => 0.0 / 0.0

end LiveUI.Number
