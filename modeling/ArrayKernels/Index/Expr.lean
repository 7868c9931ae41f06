import ArrayKernels.Scalar.Basic
import ArrayKernels.Scalar.Word

/-! Symbolic index arithmetic over 64-bit words. An expression is evaluated with
overflow checks; the folding operators below simplify constants with wrapping sums and
products, and have no answer where a constant quotient does not fit the word. -/
namespace ArrayKernels

inductive IndexExpr where
  | const (n : Int64)
  | var (v : Name)
  | add (a b : IndexExpr)
  | sub (a b : IndexExpr)
  | mul (a b : IndexExpr)
  | div (a b : IndexExpr)
  | mod (a b : IndexExpr)
deriving DecidableEq

namespace IndexExpr

/-- Only integers have a meaning as an index. -/
def ofOperand : Operand → Option IndexExpr
  | .var v => some (var v)
  | .const c => c.asWord.map const

def asConst : IndexExpr → Option Int64
  | const n => some n
  | _ => none

def plus : IndexExpr → IndexExpr → IndexExpr
  | const a, const b => const (a + b)
  | x, y => if x = const 0 then y else if y = const 0 then x else add x y

def minus : IndexExpr → IndexExpr → IndexExpr
  | const a, const b => const (a - b)
  | x, y => if y = const 0 then x else sub x y

def times : IndexExpr → IndexExpr → IndexExpr
  | const a, const b => const (a * b)
  | x, y =>
    if x = const 0 ∨ y = const 0 then const 0
    else if x = const 1 then y
    else if y = const 1 then x
    else mul x y

def quotient (x y : IndexExpr) : Option IndexExpr :=
  match x, y with
  | const a, const b => if b = 0 then some (div x y) else (Word.quotient a b).map const
  | _, _ => if y = const 1 then some x else some (div x y)

def remainder (x y : IndexExpr) : Option IndexExpr :=
  match x, y with
  | const a, const b => if b = 0 then some (mod x y) else (Word.remainder a b).map const
  | _, _ => if y = const 1 then some (const 0) else some (mod x y)

/-- The folded product of a list from left to right; that of no factors is one. -/
def product (factors : List IndexExpr) : IndexExpr := factors.foldl times (const 1)

/-- The value in an environment; there is none for an unbound variable, a zero divisor
or a result outside the word. -/
def eval (env : Name → Option Int64) : IndexExpr → Option Int64
  | const n => some n
  | var v => env v
  | add a b => do Word.fit ((← a.eval env).toInt + (← b.eval env).toInt)
  | sub a b => do Word.fit ((← a.eval env).toInt - (← b.eval env).toInt)
  | mul a b => do Word.fit ((← a.eval env).toInt * (← b.eval env).toInt)
  | div a b => do Word.quotient (← a.eval env) (← b.eval env)
  | mod a b => do Word.remainder (← a.eval env) (← b.eval env)

def free : IndexExpr → NameSet
  | const _ => ∅
  | var v => {v}
  | add a b | sub a b | mul a b | div a b | mod a b => a.free ∪ b.free

def text : IndexExpr → String
  | const n => toString n.toInt
  | var v => v.text
  | add a b => "(" ++ a.text ++ " + " ++ b.text ++ ")"
  | sub a b => "(" ++ a.text ++ " - " ++ b.text ++ ")"
  | mul a b => "(" ++ a.text ++ " * " ++ b.text ++ ")"
  | div a b => "(" ++ a.text ++ " / " ++ b.text ++ ")"
  | mod a b => "(" ++ a.text ++ " % " ++ b.text ++ ")"

end IndexExpr

end ArrayKernels
