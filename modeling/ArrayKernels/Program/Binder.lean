import ArrayKernels.Index.Function

/-! Types, memory placements and the binders of a program. -/
namespace ArrayKernels

/-- The address space of a memory block. -/
inductive Space where
  | default | workgroup
deriving DecidableEq

/-- The type of a value: a scalar, an array with its sizes from the outside in, or a
memory block with its size in bytes. -/
inductive Ty where
  | scalar (elem : ScalarType)
  | array (elem : ScalarType) (shape : List Operand) (unique : Bool)
  | mem (size : Operand) (space : Space)

namespace Ty

/-- The array type of the given shape; without dimensions it is the element type. -/
def ofShape (elem : ScalarType) : List Operand → Ty
  | [] => scalar elem
  | shape => array elem shape false

def shape : Ty → List Operand
  | array _ shape _ => shape
  | _ => []

def rank (t : Ty) : Nat := t.shape.length

def elem : Ty → Option ScalarType
  | scalar e => some e
  | array e _ _ => some e
  | mem _ _ => none

def isArray : Ty → Bool
  | array .. => true
  | _ => false

def isMem : Ty → Bool
  | mem .. => true
  | _ => false

def isUnique : Ty → Bool
  | array _ _ unique => unique
  | _ => false

def setUnique : Ty → Bool → Ty
  | array e shape _, unique => array e shape unique
  | t, _ => t

/-- Adds outer dimensions. A memory type stays as it is. -/
def addDims (outer : List Operand) : Ty → Ty
  | scalar e => ofShape e outer
  | array e shape unique => array e (outer ++ shape) unique
  | mem size space => mem size space

/-- Drops the `n` outermost dimensions; an array that has no more is a scalar. -/
def dropDims (n : Nat) : Ty → Ty
  | array e shape unique => if shape.length ≤ n then scalar e else array e (shape.drop n) unique
  | t => t

def row (t : Ty) : Ty := t.dropDims 1

def free : Ty → NameSet
  | scalar _ => ∅
  | array _ shape _ => NameSet.gather Operand.free shape
  | mem size _ => size.free

end Ty

/-- The block that holds an array and the index function that places it there. -/
structure Placement where
  block : Name
  index : IndexFn
deriving DecidableEq

def Placement.free (p : Placement) : NameSet := {p.block} ∪ p.index.free

/-- A bound name with its type and, for an array in memory, its placement. -/
structure Binder where
  name : Name
  ty : Ty
  place : Option Placement

/-- The names in the annotations of a binder; the bound name is not a use. -/
def Binder.free (b : Binder) : NameSet :=
  b.ty.free ∪ match b.place with
    | none => ∅
    | some p => p.free

/-- What a statement binds. The context holds the sizes and memory blocks that the
values depend on. -/
structure Pattern where
  context : List Binder
  values : List Binder

namespace Pattern

def single (name : Name) (ty : Ty) : Pattern := ⟨[], [⟨name, ty, none⟩]⟩

/-- All binders, the context first. -/
def binders (p : Pattern) : List Binder := p.context ++ p.values

def names (p : Pattern) : List Name := p.binders.map Binder.name

def valueNames (p : Pattern) : List Name := p.values.map Binder.name

/-- The name of a pattern that binds one value and no context. -/
def soleName (p : Pattern) : Option Name :=
  match p.context, p.values with
  | [], [b] => some b.name
  | _, _ => none

/-- The names in the annotations that the pattern does not bind itself. -/
def free (p : Pattern) : NameSet := (NameSet.gather Binder.free p.binders).without p.names

end Pattern

end ArrayKernels
