import LiveUI.Number.Binary64

/-!
# The shortest decimal that reads back

A double stands for the interval of numbers that are nearer to it than to its neighbours. Its
shortest decimal is the point of that interval on the coarsest decimal grid that has one, and of two
such points the nearer.
-/

namespace LiveUI.Number

/-- A decimal magnitude, `digits · 10 ^ exponent`. -/
structure Decimal where
  digits : Nat
  exponent : Int
deriving DecidableEq, Repr, Inhabited

/-- The interval of a double in quarters of its unit: lower end, value, upper end. Below a power of
two the neighbour is half as far away. -/
def interval (m : Nat) (e : Int) : Nat × Nat × Nat :=
  let low := if m = Nat.pow 2 52 ∧ e ≠ Binary64.minExponent then 4 * m - 1 else 4 * m - 2
  (low, 4 * m, 4 * m + 2)

/-- The point of the grid `10 ^ k` that lies in the interval of `m · 2 ^ e`, the nearer of two and
the upper of two equally near. The ends belong to the interval when `m` is even. -/
def gridPoint? (m : Nat) (e k : Int) : Option Nat :=
  let (low, value, high) := interval m e
  let (quarter, unit) := shifted 1 (e - 2)
  let (quarter, unit) :=
    if k < 0 then (quarter * Nat.pow 10 k.natAbs, unit) else (quarter, unit * Nat.pow 10 k.natAbs)
  let inside (p : Nat) : Bool :=
    if m % 2 = 0 then low * quarter ≤ p * unit && p * unit ≤ high * quarter
    else low * quarter < p * unit && p * unit < high * quarter
  let below := value * quarter / unit
  let above := below + 1
  if inside below then
    if inside above && above * unit - value * quarter ≤ value * quarter - below * unit then
      some above
    else some below
  else if inside above then some above
  else none

/-- Try the grids from `10 ^ k` downwards. -/
def searchGrid (m : Nat) (e : Int) : Nat → Int → Decimal
  | 0, _ => ⟨m, 0⟩
  | n + 1, k =>
      match gridPoint? m e k with
      | some p => ⟨p, k⟩
      | none => searchGrid m e n (k - 1)

/-- The shortest decimal of a positive double. The first grid is coarser than the number is large,
and seventeen digits tell any two doubles apart. -/
def shortest (m : Nat) (e : Int) : Decimal :=
  searchGrid m e 24 (((m.log2 : Int) + e) * 30103 / 100000 + 2)

end LiveUI.Number
