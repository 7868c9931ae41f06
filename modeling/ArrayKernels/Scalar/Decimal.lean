import ArrayKernels.Scalar.Binary

/-! Decimal text of floating-point numbers: the fewest digits that read back to the
same number, written positionally. -/
namespace ArrayKernels

def pow10 (n : Nat) : Nat := Nat.pow 10 n

/-- The whole number of units of `10 ^ e` nearest to `m * 2 ^ p` among those that lie between
the midpoints to its neighbours, if one of the two next to the number does. Midpoints count
for an even significand. A number halfway between two candidates goes up. -/
def nearestOnGrid (m : Nat) (p : Int) (shortBelow : Bool) (e : Int) : Option Nat :=
  let scale (x : Nat) : Nat := x * pow2 (p - 2).toNat * pow10 (-e).toNat
  let unit : Nat := pow10 e.toNat * pow2 (2 - p).toNat
  let low := scale (4 * m - if shortBelow then 1 else 2)
  let high := scale (4 * m + 2)
  let inside (c : Nat) : Bool :=
    if m % 2 = 0 then low ≤ c * unit && c * unit ≤ high else low < c * unit && c * unit < high
  let below := scale (4 * m) / unit
  match inside below, inside (below + 1) with
  | true, true =>
    if 2 * (scale (4 * m) - below * unit) < unit then some below else some (below + 1)
  | true, false => some below
  | false, true => some (below + 1)
  | false, false => none

/-- The coarsest decimal grid with a hit, from `10 ^ 310` down. -/
def shortestDecimal (m : Nat) (p : Int) (shortBelow : Bool) : Nat × Int :=
  ((List.range 640).findSome? fun (i : Nat) =>
    let e : Int := 310 - i
    (nearestOnGrid m p shortBelow e).map fun c => (c, e)).getD (0, 0)

/-- The digits of `c * 10 ^ e` without an exponent mark. -/
def positional (c : Nat) (e : Int) : String :=
  let digits := toString c
  let zeros (n : Nat) : String := "".pushn '0' n
  if 0 ≤ e then digits ++ zeros e.toNat
  else
    let places := (-e).toNat
    if places < digits.length then
      (digits.take (digits.length - places)).toString ++ "." ++ (digits.drop (digits.length - places)).toString
    else "0." ++ zeros (places - digits.length) ++ digits

def Binary.text : Binary → String
  | .nan => "NaN"
  | .infinite negative => if negative then "-inf" else "inf"
  | .finite negative m p shortBelow =>
    let sign := if negative then "-" else ""
    if m = 0 then sign ++ "0"
    else
      let d := shortestDecimal m p shortBelow
      sign ++ positional d.1 d.2

end ArrayKernels
