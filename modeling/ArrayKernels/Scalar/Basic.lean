import ArrayKernels.Name
import ArrayKernels.Scalar.Decimal

/-! Scalar types, scalar constants and operands. -/
namespace ArrayKernels

inductive ScalarType where
  | bool | i32 | i64 | f32 | f64
deriving DecidableEq

/-- The size of one element in bytes. -/
def ScalarType.bytes : ScalarType → Nat
  | .bool => 1
  | .i32 | .f32 => 4
  | .i64 | .f64 => 8

def ScalarType.isInteger : ScalarType → Bool
  | .i32 | .i64 => true
  | _ => false

inductive Scalar where
  | bool (b : Bool)
  | i32 (n : Int32)
  | i64 (n : Int64)
  | f32 (x : Float32)
  | f64 (x : Float)

namespace Scalar

def type : Scalar → ScalarType
  | bool _ => .bool
  | i32 _ => .i32
  | i64 _ => .i64
  | f32 _ => .f32
  | f64 _ => .f64

/-- The value of an integer of either width, as a 64-bit word. -/
def asWord : Scalar → Option Int64
  | i32 n => some n.toInt64
  | i64 n => some n
  | _ => none

/-- The zero of a type. -/
def blank : ScalarType → Scalar
  | .bool => bool false
  | .i32 => i32 0
  | .i64 => i64 0
  | .f32 => f32 0
  | .f64 => f64 0

/-- Equality of values: floating-point numbers compare as numbers, so a NaN differs
from itself and the two zeros are equal. -/
def same : Scalar → Scalar → Bool
  | bool a, bool b => a == b
  | i32 a, i32 b => a == b
  | i64 a, i64 b => a == b
  | f32 a, f32 b => a == b
  | f64 a, f64 b => a == b
  | _, _ => false

def text : Scalar → String
  | bool b => if b then "true" else "false"
  | i32 n => toString n.toInt ++ "i32"
  | i64 n => toString n.toInt ++ "i64"
  | f32 x => (Binary.ofFloat32 x).text ++ "f32"
  | f64 x => (Binary.ofFloat x).text ++ "f64"

end Scalar

/-- An operand: a constant or a variable. -/
inductive Operand where
  | const (c : Scalar)
  | var (v : Name)

namespace Operand

def word (n : Int64) : Operand := const (.i64 n)

def asName : Operand → Option Name
  | var v => some v
  | const _ => none

def asConst : Operand → Option Scalar
  | const c => some c
  | var _ => none

/-- The value of an integer constant. -/
def asWord (x : Operand) : Option Int64 := x.asConst.bind Scalar.asWord

def text : Operand → String
  | const c => c.text
  | var v => v.text

def same : Operand → Operand → Bool
  | const a, const b => a.same b
  | var v, var w => v == w
  | _, _ => false

def free : Operand → NameSet
  | const _ => ∅
  | var v => {v}

end Operand

end ArrayKernels
