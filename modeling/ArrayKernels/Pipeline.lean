import ArrayKernels.Eval.Exp
import ArrayKernels.Expand.Program
import ArrayKernels.Simplify.Program
import ArrayKernels.Stage

/-! The passes in their order. The name supply goes from pass to pass, so that fresh names stay
unique across them. -/
namespace ArrayKernels

/-- Why a program is rejected or stops. -/
inductive Failure where
  | simplify (e : SimplifyError)
  | expand (e : ExpandError)
  | eval (e : EvalError)

namespace Failure

/-- A simplification that fails has broken one of its own invariants. -/
def stage : Failure → Stage
  | simplify _ => .internal
  | expand _ => .expand
  | eval _ => .eval

def detail : Failure → String
  | simplify e => e.text
  | expand e => e.text
  | eval e => e.text

def report (f : Failure) : String := f.stage.report f.detail

end Failure

/-- A program and the supply of its fresh names, which hands out no tag of the program. -/
structure Compilation where
  program : Program
  names : NameSupply

namespace Compilation

def simplify (options : SimplifyOptions) (c : Compilation) : Except Failure Compilation :=
  match c.program.simplify options c.names with
  | .ok (program, names) => .ok ⟨program, names⟩
  | .error e => .error (.simplify e)

/-- Moves the allocations of threads out of kernels. -/
def expand (options : ExpandOptions) (c : Compilation) : Except Failure Expansion :=
  match c.program.expand options c.names with
  | .ok e => .ok e
  | .error e => .error (.expand e)

end Compilation

/-- The expanded program as the input of further passes. -/
def Expansion.compilation (e : Expansion) : Compilation := ⟨e.program, e.names⟩

def Program.run (p : Program) (name : String) (args : List Value) : Except Failure (List Value) :=
  match p.call name args with
  | .ok values => .ok values
  | .error e => .error (.eval e)

end ArrayKernels
