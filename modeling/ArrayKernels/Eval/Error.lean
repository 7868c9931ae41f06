import ArrayKernels.Scalar.Arith

/-! The causes for which an evaluation stops. -/
namespace ArrayKernels

inductive EvalError where
  /-- The storage of an array is smaller than its shape promises, or the array has no rows. -/
  | storage
  | noFunction (name : String)
  | functionArity (name : String) (expected got : Nat)
  | lambdaArity (expected got : Nat)
  | patternArity (elements values : Nat)
  | unbound (v : Name)
  | notInteger (x : Operand)
  | notScalar (x : Operand)
  | negativeSize (n : Int64) (x : Operand)
  | notArray (v : Name)
  | tooManyIndices (indices rank : Nat)
  | outOfBounds (i : Int64) (size : Nat)
  | notPermutation (perm : List Nat) (rank : Nat)
  | irregular (expected got : List Nat)
  | updateShape (v : Name)
  | replicatedMemory
  | reshape (v : Name) (old new : List Nat)
  | notBoolean (c : Scalar)
  | loopArity (values params : Nat)
  | scalar (e : ScalarError)
  | chunkNotArray
  | chunkRows (rows positions : Nat)
  | rowMissing (i : Nat)
  | memoryResult
  | scanArity (values accumulators : Nat)
  | scanMemory
  | scatterArity (values dests : Nat)
  | scatterIndexNotInteger
  | scatterIndexNotScalar
  | scatterShape
  | outsideKernel (label : String)
  | mapArity (values outputs : Nat)
  | spaceMismatch (space : List Nat)
  | resultArity (results types : Nat)
  | writeNotArray
  | writeShape

/-- A list of sizes between brackets. -/
def sizesText (ns : List Nat) : String := "[" ++ ", ".intercalate (ns.map toString) ++ "]"

def EvalError.text : EvalError → String
  | storage => "access outside the storage of an array"
  | noFunction name => "no function named " ++ name
  | functionArity name expected got =>
    name ++ " expects " ++ toString expected ++ " arguments, got " ++ toString got
  | lambdaArity expected got =>
    "lambda expects " ++ toString expected ++ " arguments, got " ++ toString got
  | patternArity elements values =>
    "pattern of " ++ toString elements ++ " elements bound to " ++ toString values ++ " values"
  | unbound v => "unbound variable " ++ v.text
  | notInteger x => x.text ++ " is not an integer"
  | notScalar x => x.text ++ " is not a scalar"
  | negativeSize n x => "negative size " ++ toString n.toInt ++ " for " ++ x.text
  | notArray v => v.text ++ " is not an array"
  | tooManyIndices indices rank =>
    "too many indices (" ++ toString indices ++ ") for array of rank " ++ toString rank
  | outOfBounds i size =>
    "index " ++ toString i.toInt ++ " out of bounds for dimension of size " ++ toString size
  | notPermutation perm rank =>
    sizesText perm ++ " is not a permutation of rank " ++ toString rank
  | irregular expected got =>
    "irregular array: expected rows of shape " ++ sizesText expected ++ ", got " ++ sizesText got
  | updateShape v => "update of " ++ v.text ++ " with a value of the wrong shape"
  | replicatedMemory => "cannot replicate a memory block"
  | reshape v old new =>
    "cannot reshape " ++ v.text ++ " of shape " ++ sizesText old ++ " to " ++ sizesText new
  | notBoolean c => "branch condition " ++ c.text ++ " is not a boolean"
  | loopArity values params =>
    "loop body returned " ++ toString values ++ " values for " ++ toString params ++ " merge parameters"
  | scalar e => e.text
  | chunkNotArray => "per-thread chunk is not an array"
  | chunkRows rows positions =>
    "chunk of " ++ toString rows ++ " rows for " ++ toString positions ++ " positions"
  | rowMissing i => "row " ++ toString i ++ " of concatenated result not produced"
  | memoryResult => "kernel returns a memory block"
  | scanArity values accumulators =>
    "scan operator returned " ++ toString values ++ " values for " ++ toString accumulators ++ " accumulators"
  | scanMemory => "scan over memory blocks"
  | scatterArity values dests =>
    "write operator returned " ++ toString values ++ " values for " ++ toString dests ++ " destinations"
  | scatterIndexNotInteger => "write index is not an integer"
  | scatterIndexNotScalar => "write index is not a scalar"
  | scatterShape => "write value has the wrong shape"
  | outsideKernel label => label ++ " has no value outside a running kernel"
  | mapArity values outputs =>
    "kernel body returned " ++ toString values ++ " values for " ++ toString outputs ++ " outputs"
  | spaceMismatch space => "kernel width does not match its index space " ++ sizesText space
  | resultArity results types =>
    "kernel has " ++ toString results ++ " results but " ++ toString types ++ " return types"
  | writeNotArray => "per-thread result must be written to an array"
  | writeShape => "per-thread result has the wrong shape"

abbrev Eval (α : Type) := Except EvalError α

end ArrayKernels
