import ArrayKernels.Program.Consumed
import ArrayKernels.Program.Free

/-! Usage tables: which names the rest of a body refers to, and which it consumes. -/
namespace ArrayKernels

structure Usage where
  used : NameSet
  consumed : NameSet

namespace Usage

def empty : Usage := ⟨∅, ∅⟩

/-- The usage of the result of a body. -/
def ofResult (result : List Operand) : Usage := ⟨freeOperands result, ∅⟩

def isUsed (u : Usage) (v : Name) : Bool := v ∈ u.used

def isConsumed (u : Usage) (v : Name) : Bool := v ∈ u.consumed

def use (u : Usage) (vs : List Name) : Usage := { u with used := u.used.insertAll vs }

/-- The usage from a statement on. -/
def before (u : Usage) (stm : Stm) : Usage := ⟨u.used ∪ stm.free, u.consumed ∪ stm.exp.consumed⟩

end Usage

end ArrayKernels
