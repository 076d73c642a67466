/-!
# The number that digits write

A numeral may run to hundreds of thousands of digits. Adding them up one by one would multiply a
large number once for each, so `digitsValue` first joins neighbours to digits of a larger base,
until few are left. `digitsValue_eq_foldl` says that this is the sum taken digit by digit.
-/

namespace LiveUI.Number

def digitValue (c : Char) : Nat :=
  c.toNat - '0'.toNat

/-- The number that digits of the base `b` write, the lowest first. -/
def ofDigits (b : Nat) (ds : List Nat) : Nat :=
  ds.foldr (fun d n => d + b * n) 0

/-- Digits of the base `b`, the lowest first, as digits of the base `b * b` behind those already
joined. -/
def joinPairs (b : Nat) (joined : List Nat) : List Nat → List Nat
  | low :: high :: ds => joinPairs b ((low + b * high) :: joined) ds
  | ds => joined.reverse ++ ds

/-- `ofDigits` after so many rounds of joining. -/
def ofDigitsJoined : Nat → Nat → List Nat → Nat
  | 0, b, ds => ofDigits b ds
  | rounds + 1, b, ds => ofDigitsJoined rounds (b * b) (joinPairs b [] ds)

/-- The number that a list of digits writes. Each round halves the list. -/
def digitsValue (cs : List Char) : Nat :=
  ofDigitsJoined cs.length.log2 10 (cs.reverse.map digitValue)

theorem ofDigits_joinPairs_onto (b : Nat) (joined ds : List Nat) :
    ofDigits (b * b) (joinPairs b joined ds) =
      joined.foldl (fun n d => d + b * b * n) (ofDigits b ds) := by
  fun_induction joinPairs b joined ds with
  | case1 joined low high ds ih =>
    rw [ih]
    simp only [List.foldl_cons, ofDigits, List.foldr_cons]
    rw [Nat.mul_add, Nat.mul_assoc, Nat.add_assoc]
  | case2 joined ds short =>
    match ds, short with
    | [], _ => simp [ofDigits]
    | [d], _ => simp [ofDigits]
    | low :: high :: ds, short => exact absurd rfl (short low high ds)

/-- Joining neighbours keeps the number. -/
theorem ofDigits_joinPairs (b : Nat) (ds : List Nat) :
    ofDigits (b * b) (joinPairs b [] ds) = ofDigits b ds :=
  ofDigits_joinPairs_onto b [] ds

/-- So does any count of rounds. -/
theorem ofDigitsJoined_eq_ofDigits (rounds b : Nat) (ds : List Nat) :
    ofDigitsJoined rounds b ds = ofDigits b ds := by
  induction rounds generalizing b ds with
  | zero => rfl
  | succ rounds ih => rw [ofDigitsJoined, ih, ofDigits_joinPairs]

theorem digitsValue_eq_foldl (cs : List Char) :
    digitsValue cs = cs.foldl (fun n c => 10 * n + digitValue c) 0 := by
  rw [digitsValue, ofDigitsJoined_eq_ofDigits, ofDigits, List.foldr_map, List.foldr_reverse]
  simp only [Nat.add_comm]

end LiveUI.Number
