/-! Binary floating-point formats: a number is a sign, a whole significand and a
power of two. The remainder of two numbers is exact in this form. -/
namespace ArrayKernels

def pow2 (n : Nat) : Nat := Nat.pow 2 n

/-- The field widths of a binary floating-point format. -/
structure BinaryFormat where
  fraction : Nat
  exponent : Nat

namespace BinaryFormat

def single : BinaryFormat := ⟨23, 8⟩
def double : BinaryFormat := ⟨52, 11⟩

/-- The power of two of the last place of the smallest numbers. -/
def least (f : BinaryFormat) : Int := 2 - pow2 (f.exponent - 1) - f.fraction

end BinaryFormat

/-- What the bits of a number stand for. A finite number is `significand * 2 ^ power`;
`shortBelow` says that the gap to the next smaller number is half as wide as the gap above. -/
inductive Binary where
  | nan
  | infinite (negative : Bool)
  | finite (negative : Bool) (significand : Nat) (power : Int) (shortBelow : Bool)

namespace Binary

def ofBits (f : BinaryFormat) (bits : Nat) : Binary :=
  let fraction := bits % pow2 f.fraction
  let exponent := bits / pow2 f.fraction % pow2 f.exponent
  let negative := bits / pow2 (f.fraction + f.exponent) % 2 == 1
  if exponent + 1 = pow2 f.exponent then
    if fraction = 0 then .infinite negative else .nan
  else if exponent = 0 then .finite negative fraction f.least false
  else .finite negative (fraction + pow2 f.fraction) (f.least + exponent - 1)
    (fraction = 0 && exponent > 1)

def ofFloat (x : Float) : Binary := ofBits .double x.toBits.toNat
def ofFloat32 (x : Float32) : Binary := ofBits .single x.toBits.toNat

/-- The bits of `significand * 2 ^ power`, for a number that the format holds exactly. -/
def pack (f : BinaryFormat) (negative : Bool) (significand : Nat) (power : Int) : Nat :=
  let sign := if negative then pow2 (f.fraction + f.exponent) else 0
  let top := significand.log2
  if f.least + f.fraction ≤ top + power then
    sign + (top + power - f.least - f.fraction + 1).toNat * pow2 f.fraction
      + (significand * pow2 (f.fraction - top) - pow2 f.fraction)
  else sign + significand * pow2 (power - f.least).toNat

end Binary

/-- The remainder of the quotient rounded toward zero; it has the sign of `x`. -/
def floatRemainder (x y : Float) : Float :=
  match Binary.ofFloat x, Binary.ofFloat y with
  | .finite negative m p _, .finite _ n q _ =>
    if n = 0 then 0.0 / 0.0
    else
      let low := min p q
      let r := m * pow2 (p - low).toNat % (n * pow2 (q - low).toNat)
      Float.ofBits (.ofNat (if r = 0 then Binary.pack .double negative 0 BinaryFormat.double.least
        else Binary.pack .double negative r low))
  | .finite .., .infinite _ => x
  | _, _ => 0.0 / 0.0

end ArrayKernels
