import ArrayKernels.Index.Function

/-! Rebasing the arrays of one thread onto a block shared by all threads. -/
namespace ArrayKernels

/-- The place of one thread in a block shared by `threads` threads. -/
structure ThreadPlace where
  thread : IndexExpr
  threads : IndexExpr

namespace ThreadPlace

/-- The layout of a thread's array of the given shape in the shared block. The thread
dimension is innermost in memory. -/
def layout (p : ThreadPlace) (shape : List IndexExpr) : IndexFn :=
  .slice ((IndexFn.rowMajor (shape ++ [p.threads])).permuted (shape.length :: List.range shape.length))
    (.fix p.thread :: shape.map .full)

/-- The index function of a thread's array in the shared block. -/
def rebase (p : ThreadPlace) (f : IndexFn) : IndexFn := f.rebase (p.layout f.bottomShape)

end ThreadPlace

end ArrayKernels
