import ArrayKernels.Eval.Count
import ArrayKernels.Program.Basic

/-! Runtime values. An array holds its elements in row-major order; it is regular when it
has as many of them as its shape says. -/
namespace ArrayKernels

structure ArrayValue where
  elem : ScalarType
  shape : List Nat
  data : Array Scalar

inductive Value where
  | scalar (c : Scalar)
  | array (a : ArrayValue)
  /-- What an allocation yields. -/
  | mem (size : Int64) (space : Space)

/-- The number of elements of a shape. -/
def volume : List Nat → Nat
  | [] => 1
  | d :: dims => d * volume dims

/-- The distance in row-major order between neighbours along each dimension. -/
def strides : List Nat → List Nat
  | [] => []
  | _ :: dims => volume dims :: strides dims

/-- The index of a shape at a row-major number, and what is left outside the shape. A dimension
of size zero counts as one. -/
def coordinates (t : Nat) : List Nat → Nat × List Nat
  | [] => (t, [])
  | d :: dims =>
    let outer := coordinates t dims
    (outer.1 / max d 1, outer.1 % max d 1 :: outer.2)

namespace Value

def word (n : Int64) : Value := scalar (.i64 n)
def count (n : Nat) : Value := word (.ofNat n)
def words (ns : List Int64) : Value := array ⟨.i64, [ns.length], (ns.map .i64).toArray⟩
def singles (xs : List Float32) : Value := array ⟨.f32, [xs.length], (xs.map .f32).toArray⟩

def shape : Value → List Nat
  | array a => a.shape
  | _ => []

def asScalar : Value → Option Scalar
  | scalar c => some c
  | _ => none

/-- The elements of an array of integers of one dimension. -/
def asWords : Value → Option (List Int64)
  | array a => if a.shape.length = 1 then a.data.toList.mapM Scalar.asWord else none
  | _ => none

/-- The element type of a scalar or an array. -/
def elem : Value → Option ScalarType
  | scalar c => some c.type
  | array a => some a.elem
  | mem _ _ => none

end Value

namespace ArrayValue

def Regular (a : ArrayValue) : Prop := a.data.size = volume a.shape

def rank (a : ArrayValue) : Nat := a.shape.length

/-- The number of rows; an array without dimensions has none. -/
def rows (a : ArrayValue) : Nat := a.shape.headD 0

/-- The elements from `start` on. -/
def cells (a : ArrayValue) (start len : Nat) : Eval (Array Scalar) :=
  if start + len ≤ a.data.size then .ok (a.data.extract start (start + len)) else .error .storage

/-- The elements with those from `start` on replaced, one after another. -/
def overwrite (data : Array Scalar) (start : Nat) : List Scalar → Array Scalar
  | [] => data
  | c :: new => overwrite (data.setIfInBounds start c) (start + 1) new

theorem size_overwrite (data : Array Scalar) (start : Nat) (new : List Scalar) :
    (overwrite data start new).size = data.size := by
  induction new generalizing data start with
  | nil => rfl
  | cons c new ih => rw [overwrite, ih, Array.size_setIfInBounds]

/-- The array with the elements from `start` on replaced. -/
def write (a : ArrayValue) (start : Nat) (new : Array Scalar) : Eval ArrayValue :=
  if start + new.size ≤ a.data.size then .ok { a with data := overwrite a.data start new.toList }
  else .error .storage

/-- A part of an array: a scalar if no dimension is left. -/
def part (elem : ScalarType) (shape : List Nat) (data : Array Scalar) : Eval Value :=
  match shape, data[0]? with
  | [], some c => .ok (.scalar c)
  | [], none => .error .storage
  | _, _ => .ok (.array ⟨elem, shape, data⟩)

def row (a : ArrayValue) (i : Nat) : Eval Value :=
  match a.shape with
  | [] => .error .storage
  | _ :: dims => do part a.elem dims (← a.cells (i * volume dims) (volume dims))

/-- The elements of a row of the given shape. -/
def rowCells (shape : List Nat) : Value → Eval (Array Scalar)
  | .scalar c => if shape = [] then .ok #[c] else .error (.irregular shape [])
  | .array a => if a.shape = shape then .ok a.data else .error (.irregular shape a.shape)
  | .mem _ _ => .error (.irregular shape [])

/-- Stacks rows of one shape. -/
def ofRows (elem : ScalarType) (rowShape : List Nat) (rows : List Value) : Eval ArrayValue := do
  let data ← rows.mapM (rowCells rowShape)
  .ok ⟨elem, rows.length :: rowShape, data.toArray.flatten⟩

/-- The rows with the given numbers, in that order. -/
def takeRows (a : ArrayValue) (numbers : List Nat) : Eval ArrayValue :=
  match a.shape with
  | [] => .error .storage
  | _ :: dims => do
    let data ← numbers.mapM fun i => a.cells (i * volume dims) (volume dims)
    .ok ⟨a.elem, numbers.length :: dims, data.toArray.flatten⟩

/-- The number of the block at a list of outer indices, counting blocks in row-major order. -/
def blockNumber (acc : Nat) : List Int64 → List Nat → Eval Nat
  | i :: is, d :: dims =>
    if i < 0 ∨ d ≤ i.toInt.toNat then .error (.outOfBounds i d)
    else blockNumber (acc * d + i.toInt.toNat) is dims
  | _, _ => .ok acc

/-- The offset and the length of the block at a list of outer indices. -/
def blockAt (a : ArrayValue) (indices : List Int64) : Eval (Nat × Nat) := do
  if a.rank < indices.length then .error (.tooManyIndices indices.length a.rank)
  else
    let len := volume (a.shape.drop indices.length)
    .ok ((← blockNumber 0 indices a.shape) * len, len)

/-- The element or subarray at a list of outer indices. -/
def index (a : ArrayValue) (indices : List Int64) : Eval Value := do
  let (start, len) ← a.blockAt indices
  part a.elem (a.shape.drop indices.length) (← a.cells start len)

/-- Whether the value has the shape of the block at the indices. -/
def accepts (a : ArrayValue) (indices : List Int64) (len : Nat) : Value → Option (Array Scalar)
  | .scalar c => if indices.length = a.rank then some #[c] else none
  | .array v => if v.data.size = len ∧ v.shape = a.shape.drop indices.length then some v.data else none
  | .mem _ _ => none

/-- The elements that a row of `len` elements takes from a value: any array of that many
elements, or a scalar for a single element. -/
def rowContent (len : Nat) : Value → Option (Array Scalar)
  | .scalar c => if len = 1 then some #[c] else none
  | .array v => if v.data.size = len then some v.data else none
  | .mem _ _ => none

/-- Writes a row. A number outside the array has no effect; `mismatch` is the error for a value
that does not fill the row. -/
def writeRow (a : ArrayValue) (i : Int64) (value : Eval Value) (mismatch : EvalError) : Eval ArrayValue := do
  if i < 0 ∨ a.rows ≤ i.toInt.toNat then .ok a
  else
    let (start, len) ← a.blockAt [i]
    match rowContent len (← value) with
    | some new => a.write start new
    | none => .error mismatch

/-- Dimension `i` of the result is dimension `perm[i]` of the array. -/
def rearrange (a : ArrayValue) (perm : List Nat) : Eval ArrayValue :=
  if perm.isPerm (List.range a.rank) then do
    let steps := perm.map fun p => (strides a.shape).getD p 0
    let shape := perm.map fun p => a.shape.getD p 0
    let data ← collect
      (fun t =>
        match a.data[(List.zipWith (· * ·) (coordinates t shape).2 steps).foldl (· + ·) 0]? with
        | some c => .ok c
        | none => .error .storage)
      (volume shape)
    .ok ⟨a.elem, shape, data.toArray⟩
  else .error (.notPermutation perm a.rank)

/-- The same elements in a new shape. -/
def reshape (a : ArrayValue) (shape : List Nat) : Option ArrayValue :=
  if volume shape = a.data.size ∧ shape ≠ [] then some { a with shape := shape } else none

/-- The elements `n` times over. -/
def copies (n : Nat) (data : Array Scalar) : Array Scalar :=
  Array.ofFn fun i : Fin (n * data.size) =>
    have : i.val % data.size < data.size :=
      Nat.mod_lt _ (Nat.pos_of_ne_zero fun h => absurd i.isLt (by simp [h]))
    data[i.val % data.size]

theorem size_copies (n : Nat) (data : Array Scalar) : (copies n data).size = n * data.size :=
  Array.size_ofFn

/-- Copies of a value along new outer dimensions. -/
def replicate (outer : List Nat) : Value → Eval ArrayValue
  | .scalar c => .ok ⟨c.type, outer, Array.replicate (volume outer) c⟩
  | .array a => .ok ⟨a.elem, outer ++ a.shape, copies (volume outer) a.data⟩
  | .mem _ _ => .error .replicatedMemory

def same (a b : ArrayValue) : Bool :=
  a.elem == b.elem && a.shape == b.shape && a.data.size == b.data.size
    && (a.data.zip b.data).all fun p => p.1.same p.2

end ArrayValue

/-- Equality of values, with floating-point numbers compared as numbers. -/
def Value.same : Value → Value → Bool
  | scalar a, scalar b => a.same b
  | array a, array b => a.same b
  | mem n s, mem m t => n == m && s == t
  | _, _ => false

end ArrayKernels
