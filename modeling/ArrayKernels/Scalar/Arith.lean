import ArrayKernels.Scalar.Basic
import ArrayKernels.Scalar.Word

/-! Arithmetic and comparison of scalars. Integers of 32 bits are computed as 64-bit
words and cut off; single-precision numbers are computed in double precision and rounded. -/
namespace ArrayKernels

inductive BinOp where
  | add | sub | mul | div | mod | min | max | and | or
deriving DecidableEq

def BinOp.label : BinOp → String
  | add => "Add"
  | sub => "Sub"
  | mul => "Mul"
  | div => "Div"
  | mod => "Mod"
  | min => "Min"
  | max => "Max"
  | and => "And"
  | or => "Or"

inductive CmpOp where
  | eq | lt | le
deriving DecidableEq

def CmpOp.label : CmpOp → String
  | eq => "Eq"
  | lt => "Lt"
  | le => "Le"

/-- Why an operator has no value. -/
inductive ScalarError where
  | divisionByZero
  | onFloats (op : BinOp)
  | onBooleans (op : BinOp)
  | differentTypes (x y : Scalar) (op : String)

def ScalarError.text : ScalarError → String
  | divisionByZero => "division by zero"
  | onFloats op => op.label ++ " is not defined on floats"
  | onBooleans op => op.label ++ " is not defined on booleans"
  | differentTypes x y op => "operands " ++ x.text ++ " and " ++ y.text ++ " of " ++ op ++ " have different types"

namespace BinOp

def words (op : BinOp) (x y : Int64) : Except ScalarError Int64 :=
  match op with
  | add => .ok (x + y)
  | sub => .ok (x - y)
  | mul => .ok (x * y)
  | div => (Word.quotient x y).elim (.error .divisionByZero) .ok
  | mod => (Word.remainder x y).elim (.error .divisionByZero) .ok
  | min => .ok (if x ≤ y then x else y)
  | max => .ok (if x ≤ y then y else x)
  | and => .ok (x &&& y)
  | or => .ok (x ||| y)

/-- A minimum or maximum with a NaN is the other operand. -/
def floats (op : BinOp) (x y : Float) : Except ScalarError Float :=
  match op with
  | add => .ok (x + y)
  | sub => .ok (x - y)
  | mul => .ok (x * y)
  | div => .ok (x / y)
  | mod => .ok (floatRemainder x y)
  | min => .ok (if x.isNaN then y else if y.isNaN then x else if x < y then x else y)
  | max => .ok (if x.isNaN then y else if y.isNaN then x else if x < y then y else x)
  | and => .error (.onFloats and)
  | or => .error (.onFloats or)

def booleans (op : BinOp) (x y : Bool) : Except ScalarError Bool :=
  match op with
  | and => .ok (x && y)
  | or => .ok (x || y)
  | _ => .error (.onBooleans op)

def apply (op : BinOp) (x y : Scalar) : Except ScalarError Scalar :=
  match x, y with
  | .i64 a, .i64 b => (op.words a b).map .i64
  | .i32 a, .i32 b => (op.words a.toInt64 b.toInt64).map fun n => .i32 n.toInt32
  | .f64 a, .f64 b => (op.floats a b).map .f64
  | .f32 a, .f32 b => (op.floats a.toFloat b.toFloat).map fun r => .f32 r.toFloat32
  | .bool a, .bool b => (op.booleans a b).map .bool
  | x, y => .error (.differentTypes x y op.label)

end BinOp

/-- Any comparison with a NaN is false, and false is less than true. -/
def CmpOp.apply (op : CmpOp) (x y : Scalar) : Except ScalarError Bool :=
  match x, y with
  | .i64 a, .i64 b => .ok (match op with | eq => a == b | lt => a < b | le => a ≤ b)
  | .i32 a, .i32 b => .ok (match op with | eq => a == b | lt => a < b | le => a ≤ b)
  | .f64 a, .f64 b => .ok (match op with | eq => a == b | lt => a < b | le => a ≤ b)
  | .f32 a, .f32 b => .ok (match op with | eq => a == b | lt => a < b | le => a ≤ b)
  | .bool a, .bool b => .ok (match op with | eq => a == b | lt => !a && b | le => !a || b)
  | x, y => .error (.differentTypes x y op.label)

end ArrayKernels
