import ArrayKernels.Program.Consumed
import ArrayKernels.Program.Free

/-! Blockers: which statements must stay in the body that binds them. -/
namespace ArrayKernels

inductive Blocker where
  | never
  | always
  /-- Statements that mention one of the names. -/
  | mentions (names : NameSet)
  /-- Statements that consume an array. -/
  | consuming
  /-- Statements whose evaluation may fail. -/
  | failing
  /-- Kernels. -/
  | kernels
  /-- Allocations: the memory of a thread stays with the thread. -/
  | allocs
  | either (a b : Blocker)

namespace Blocker

/-- Blocks what one of the two blocks. -/
def or : Blocker → Blocker → Blocker
  | never, b => b
  | a, never => a
  | always, _ => always
  | _, always => always
  | a, b => either a b

def mentioning (names : List Name) : Blocker := mentions (.ofList names)

/-- Whether the statement, whose free names are given, must stay. -/
def blocks (stm : Stm) (free : NameSet) : Blocker → Bool
  | never => false
  | always => true
  | mentions names => free.toList.any (· ∈ names)
  | consuming => !stm.exp.consumed.isEmpty
  | failing => !stm.exp.isSpeculable
  | kernels => stm.exp.isLaunch
  | allocs => stm.exp.isAlloc
  | either a b => a.blocks stm free || b.blocks stm free

end Blocker

end ArrayKernels
