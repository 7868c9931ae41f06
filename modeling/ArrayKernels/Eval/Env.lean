import ArrayKernels.Eval.Value

/-! Environments. The newest binding of a name is the one that counts. -/
namespace ArrayKernels

structure Env where
  bindings : List (Name × Value)

namespace Env

def empty : Env := ⟨[]⟩

def bind (env : Env) (v : Name) (x : Value) : Env := ⟨(v, x) :: env.bindings⟩

/-- Binds from left to right, so that a later binding of a name hides an earlier one. -/
def bindAll (env : Env) (bs : List (Name × Value)) : Env := bs.foldl (fun e b => e.bind b.1 b.2) env

def get? (env : Env) (v : Name) : Option Value := env.bindings.lookup v

def lookup (env : Env) (v : Name) : Eval Value :=
  match env.get? v with
  | some x => .ok x
  | none => .error (.unbound v)

def operand (env : Env) : Operand → Eval Value
  | .const c => .ok (.scalar c)
  | .var v => env.lookup v

def scalar (env : Env) (x : Operand) : Eval Scalar := do
  match ← env.operand x with
  | .scalar c => .ok c
  | _ => .error (.notScalar x)

/-- The value of an integer operand. -/
def word (env : Env) (x : Operand) : Eval Int64 := do
  match (← env.scalar x).asWord with
  | some n => .ok n
  | none => .error (.notInteger x)

def size (env : Env) (x : Operand) : Eval Nat := do
  let n ← env.word x
  if n < 0 then .error (.negativeSize n x) else .ok n.toInt.toNat

def array (env : Env) (v : Name) : Eval ArrayValue := do
  match ← env.lookup v with
  | .array a => .ok a
  | _ => .error (.notArray v)

def sizes (env : Env) (xs : List Operand) : Eval (List Nat) := xs.mapM env.size

/-- The zero of a type. -/
def blank (env : Env) : Ty → Eval Value
  | .scalar e => .ok (.scalar (.blank e))
  | .array e dims _ => do
    let shape ← env.sizes dims
    .ok (.array ⟨e, shape, Array.replicate (volume shape) (.blank e)⟩)
  | .mem size space => do .ok (.mem (← env.word size) space)

/-- The shape of a row of the type, without dimensions if one of its sizes has no value. -/
def rowShape (env : Env) (ty : Ty) : List Nat := (env.sizes ty.row.shape).toOption.getD []

/-- Binds the values to all binders of the pattern, or to its value binders alone when there are
no values for the context. -/
def bindValues (env : Env) (pat : Pattern) (values : List Value) : Eval Env :=
  if values.length = pat.binders.length then .ok (env.bindAll (pat.names.zip values))
  else if values.length = pat.values.length then .ok (env.bindAll (pat.valueNames.zip values))
  else .error (.patternArity pat.binders.length values.length)

end Env

end ArrayKernels
