import ArrayKernels.Scope.SymbolTable
import ArrayKernels.Simplify.Blocker

/-! The statements of the body that is being swept, divided into those that stay and those
that leave it. -/
namespace ArrayKernels

/-- `bound` are the names that the kept statements bind. `consumed` are the names that the body
consumes, with everything that they share storage with: what defines them must be evaluated
again wherever the body is. -/
structure Level where
  scope : SymbolTable
  kept : List Stm
  hoisted : List Stm
  bound : NameSet
  consumed : NameSet

/-- The names that a body consumes, with the sources of the consumed copies, parts and other
views that the body defines. -/
def Body.consumedSources (body : Body) : NameSet :=
  body.stms.foldr
    (fun stm consumed =>
      if stm.pat.names.any (· ∈ consumed) then
        match stm.exp.aliasSource with
        | some v => consumed.insert v
        | none => consumed
      else consumed)
    body.consumed

namespace Level

def start (scope : SymbolTable) (body : Body) : Level := ⟨scope, [], [], ∅, body.consumedSources⟩

/-- Whether a statement stays: it depends on a kept statement, it defines something that is
consumed, or the blocker keeps it. -/
def keeps (level : Level) (blocker : Blocker) (stm : Stm) : Bool :=
  stm.free.toList.any (· ∈ level.bound) || stm.pat.names.any (· ∈ level.consumed) || blocker.blocks stm stm.free

/-- Brings a statement into scope and keeps it or lets it leave. -/
def add (level : Level) (blocker : Blocker) (stm : Stm) : Level :=
  let scope := level.scope.bindStm stm
  if level.keeps blocker stm then
    { level with scope, kept := level.kept ++ [stm], bound := level.bound.insertAll stm.pat.names }
  else { level with scope, hoisted := level.hoisted ++ [stm] }

end Level

end ArrayKernels
