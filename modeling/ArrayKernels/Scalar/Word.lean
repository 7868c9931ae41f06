/-! Integer words of 64 bits. Sums, differences and products wrap; quotients and
remainders are Euclidean and exist only when the quotient fits the word. -/
namespace ArrayKernels.Word

/-- The word with the value `n`, if there is one. -/
def fit (n : Int) : Option Int64 :=
  if Int64.minValue.toInt ≤ n ∧ n ≤ Int64.maxValue.toInt then some (Int64.ofInt n) else none

/-- The quotient that leaves a remainder of at least zero. -/
def quotient (a b : Int64) : Option Int64 :=
  if b = 0 then none else fit (a.toInt / b.toInt)

/-- The remainder of `quotient`; it is missing where the quotient is. -/
def remainder (a b : Int64) : Option Int64 :=
  (quotient a b).map fun _ => Int64.ofInt (a.toInt % b.toInt)

end ArrayKernels.Word
