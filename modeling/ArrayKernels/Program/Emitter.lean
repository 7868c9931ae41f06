import ArrayKernels.Program.Basic

/-! Emitting statements. Passes draw their names from a supply and collect the statements
that they emit in order. -/
namespace ArrayKernels

structure Emitter where
  names : NameSupply
  stms : List Stm

namespace Emitter

def start (names : NameSupply) : Emitter := ⟨names, []⟩

def fresh (e : Emitter) (base : String) : Name × Emitter :=
  ((e.names.fresh base).1, { e with names := (e.names.fresh base).2 })

def emit (e : Emitter) (stm : Stm) : Emitter := { e with stms := e.stms ++ [stm] }

/-- Binds the expression to a fresh name. -/
def bindExp (e : Emitter) (base : String) (ty : Ty) (exp : Exp) : Name × Emitter :=
  let (v, e) := e.fresh base
  (v, e.emit (.single v ty exp))

end Emitter

end ArrayKernels
