import ArrayKernels.Index.Expr

/-! Index functions. An index function sends a logical index of an array to an element
offset in the block that holds the array. It is a chain of permutations, reshapes and
slices over a row-major layout, and rebasing exchanges that layout. -/
namespace ArrayKernels

/-- What a slice keeps of one dimension. -/
inductive AxisSlice where
  /-- One index; the dimension disappears. -/
  | fix (i : IndexExpr)
  /-- `len` indices from `start` on, `stride` apart. -/
  | range (start len stride : IndexExpr)
deriving DecidableEq

namespace AxisSlice

/-- All of a dimension of size `d`. -/
def full (d : IndexExpr) : AxisSlice := range (.const 0) d (.const 1)

def length : AxisSlice → Option IndexExpr
  | fix _ => none
  | range _ len _ => some len

def free : AxisSlice → NameSet
  | fix i => i.free
  | range start len stride => start.free ∪ len.free ∪ stride.free

def text : AxisSlice → String
  | fix i => i.text
  | range start len stride => start.text ++ ":+" ++ len.text ++ "*" ++ stride.text

end AxisSlice

/-- Dimension `i` of `permute base perm` is dimension `perm[i]` of the base. -/
inductive IndexFn where
  | rowMajor (shape : List IndexExpr)
  | permute (base : IndexFn) (perm : List Nat)
  | reshape (base : IndexFn) (shape : List IndexExpr)
  | slice (base : IndexFn) (dims : List AxisSlice)
deriving DecidableEq

/-- A list of dimensions that leaves each one in place. -/
def inPlace (perm : List Nat) : Bool := decide (perm = List.range perm.length)

/-- The row-major offset of an index; a missing index or size ends it. -/
def flatOffset (shape idx : List IndexExpr) : IndexExpr :=
  match shape.zip idx with
  | [] => .const 0
  | (_, i) :: rest => rest.foldl (fun acc di => (acc.times di.1).plus di.2) i

/-- The innermost indices of a flat offset, one for each of the given sizes, and what is left
of the offset outside them. -/
def peel (flat : IndexExpr) : List IndexExpr → Option (IndexExpr × List IndexExpr)
  | [] => some (flat, [])
  | d :: dims => do
    let (rest, inner) ← peel flat dims
    some (← rest.quotient d, (← rest.remainder d) :: inner)

/-- The index at a row-major offset. The outermost index takes what the others leave. -/
def indexAt (flat : IndexExpr) : List IndexExpr → Option (List IndexExpr)
  | [] => some []
  | _ :: dims => (peel flat dims).map fun p => p.1 :: p.2

/-- The base index of a permuted index: entry `perm[i]` is index `i`. -/
def unpermute (perm : List Nat) (idx : List IndexExpr) : Option (List IndexExpr) :=
  (List.range perm.length).foldlM
    (fun acc i => do
      let p ← perm[i]?
      let x ← idx[i]?
      if p < acc.length then some (acc.set p x) else none)
    (List.replicate perm.length (.const 0))

/-- The base index of a sliced index. A missing index counts as zero. -/
def unslice : List AxisSlice → List IndexExpr → List IndexExpr
  | [], _ => []
  | .fix i :: dims, idx => i :: unslice dims idx
  | .range start _ stride :: dims, idx =>
    start.plus ((idx.headD (.const 0)).times stride) :: unslice dims idx.tail

namespace IndexFn

/-- Permutes the dimensions, unless every one stays in place. -/
def permuted (f : IndexFn) (perm : List Nat) : IndexFn := if inPlace perm then f else permute f perm

/-- The shape of the indexed array; there is none if a permutation names a missing dimension. -/
def shape : IndexFn → Option (List IndexExpr)
  | rowMajor dims => some dims
  | permute base perm => do
    let dims ← base.shape
    perm.mapM fun p => dims[p]?
  | reshape _ dims => some dims
  | slice _ dims => some (dims.filterMap AxisSlice.length)

/-- The shape of the layout at the bottom of the chain. -/
def bottomShape : IndexFn → List IndexExpr
  | rowMajor dims => dims
  | permute base _ | reshape base _ | slice base _ => base.bottomShape

def isRowMajor : IndexFn → Bool
  | rowMajor _ => true
  | _ => false

/-- The element offset of a logical index. There is none if a permutation does not fit the
index or the base, or if a constant quotient does not fit the word. -/
def apply : IndexFn → List IndexExpr → Option IndexExpr
  | rowMajor dims, idx => some (flatOffset dims idx)
  | permute base perm, idx => do base.apply (← unpermute perm idx)
  | reshape base dims, idx => do base.apply (← indexAt (flatOffset dims idx) (← base.shape))
  | slice base dims, idx => base.apply (unslice dims idx)

/-- The value of the element offset of a concrete index. -/
def offset (f : IndexFn) (idx : List Int64) (env : Name → Option Int64) : Option (Option Int64) :=
  (f.apply (idx.map .const)).map (IndexExpr.eval env)

/-- The same chain over a new layout, which has the logical shape of the old one. -/
def rebase : IndexFn → IndexFn → IndexFn
  | rowMajor _, bottom => bottom
  | permute base perm, bottom => permute (base.rebase bottom) perm
  | reshape base dims, bottom => reshape (base.rebase bottom) dims
  | slice base dims, bottom => slice (base.rebase bottom) dims

def free : IndexFn → NameSet
  | rowMajor dims => NameSet.gather IndexExpr.free dims
  | permute base _ => base.free
  | reshape base dims => base.free ∪ NameSet.gather IndexExpr.free dims
  | slice base dims => base.free ∪ NameSet.gather AxisSlice.free dims

def text : IndexFn → String
  | rowMajor dims => "iota([" ++ ", ".intercalate (dims.map IndexExpr.text) ++ "])"
  | permute base perm => "permute(" ++ base.text ++ ", [" ++ ", ".intercalate (perm.map toString) ++ "])"
  | reshape base dims => "reshape(" ++ base.text ++ ", [" ++ ", ".intercalate (dims.map IndexExpr.text) ++ "])"
  | slice base dims => "slice(" ++ base.text ++ ", [" ++ ", ".intercalate (dims.map AxisSlice.text) ++ "])"

end IndexFn

end ArrayKernels
