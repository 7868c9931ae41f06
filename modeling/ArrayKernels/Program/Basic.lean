import ArrayKernels.Program.Binder
import ArrayKernels.Scalar.Arith

/-! Programs: functions whose bodies are sequences of bindings, with kernels that run a
body or an operator once for every logical thread. -/
namespace ArrayKernels

/-- The launch geometry of a kernel. `chunk` is the number of elements of a thread in the
contiguous division, `threads` the number of logical threads. -/
structure LaunchSize where
  groups : Operand
  groupSize : Operand
  chunk : Operand
  elements : Operand
  multiple : Operand
  threads : Operand

namespace LaunchSize

def operands (s : LaunchSize) : List Operand :=
  [s.groups, s.groupSize, s.chunk, s.elements, s.multiple, s.threads]

def map (f : Operand → Operand) (s : LaunchSize) : LaunchSize :=
  ⟨f s.groups, f s.groupSize, f s.chunk, f s.elements, f s.multiple, f s.threads⟩

end LaunchSize

/-- How rows are divided between threads: one contiguous range each, or every row whose
number is the thread's number modulo the number of threads. -/
inductive Division where
  | contiguous | strided
deriving DecidableEq

/-- Binds a parameter of a thread to `array[indices]`. -/
structure MapInput where
  param : Binder
  array : Name
  indices : List Operand

/-- The names by which a thread of a group kernel knows itself: its number in the launch,
its number in its group, and the number of the group. -/
structure ThreadNames where
  thread : Name
  lane : Name
  group : Name

def ThreadNames.names (s : ThreadNames) : List Name := [s.thread, s.lane, s.group]

/-- A result of a group kernel. -/
inductive GroupResult where
  /-- Row `t` is the value of thread `t`. -/
  | row (value : Operand)
  /-- Each thread writes its value at an index of its own. -/
  | write (index value : Operand)
  /-- The rows of the threads' chunks, divided as given. -/
  | chunks (division : Division) (width perThread : Operand) (array : Name)

mutual

inductive Exp where
  | operand (x : Operand)
  | binary (op : BinOp) (x y : Operand)
  | compare (op : CmpOp) (x y : Operand)
  /-- The element or subarray at a list of outer indices. -/
  | index (array : Name) (indices : List Operand)
  /-- The array with the part at the indices replaced; it consumes the old array. -/
  | update (array : Name) (indices : List Operand) (value : Operand)
  /-- The numbers `start`, `start + stride`, … of which there are `count`. -/
  | iota (count start stride : Operand)
  | replicate (shape : List Operand) (value : Operand)
  | reshape (shape : List Operand) (array : Name)
  | rearrange (perm : List Nat) (array : Name)
  | copy (array : Name)
  | alloc (size : Operand) (space : Space)
  | branch (cond : Operand) (onTrue onFalse : Body) (ret : List Ty)
  /-- Runs the body for each index below the bound. The result of the body lists the next
  values of the context parameters, then those of the value parameters. -/
  | loop (context values : List (Binder × Operand)) (index : Name) (bound : Operand) (body : Body)
  | launch (kernel : Kernel)

/-- Binds a pattern to the values of an expression. The certificates are names that the
computation depends on. -/
structure Stm where
  pat : Pattern
  certs : List Name
  exp : Exp

structure Body where
  stms : List Stm
  result : List Operand

structure Lambda where
  params : List Binder
  body : Body
  ret : List Ty

inductive Kernel where
  | map (k : MapKernel)
  | scan (k : ScanKernel)
  | chunked (k : ChunkedKernel)
  | scatter (k : ScatterKernel)
  | group (k : GroupKernel)
  /-- The number of groups that the launch chooses. -/
  | numGroups
  /-- The group size that the launch chooses. -/
  | groupSize

/-- One thread for every point of an index space. A return is the type of one thread's
result and the order of the dimensions of the assembled one. -/
structure MapKernel where
  certs : List Name
  width : Operand
  thread : Name
  space : List (Name × Operand)
  inputs : List MapInput
  returns : List (Ty × List Nat)
  body : Body

/-- An inclusive scan. Both operators take the index, the accumulators and the elements;
`fold` is applied in sequence and `combine` joins the results of threads. -/
structure ScanKernel where
  certs : List Name
  width : Operand
  size : LaunchSize
  combine : Lambda
  fold : Lambda
  neutral : List Operand
  arrays : List Name

/-- One chunk of the arrays for each thread. The operator takes the thread, the number of
rows and the chunks, and returns one chunk for each output. -/
structure ChunkedKernel where
  certs : List Name
  width : Operand
  size : LaunchSize
  division : Division
  op : Lambda
  arrays : List Name

/-- Writes rows into the destinations, which it consumes. The operator takes the thread and
the elements, and returns the indices followed by the values. -/
structure ScatterKernel where
  certs : List Name
  width : Operand
  op : Lambda
  arrays : List Name
  dests : List (Operand × Name)

/-- A kernel whose statements run across groups of threads. -/
structure GroupKernel where
  certs : List Name
  size : LaunchSize
  space : ThreadNames
  returns : List Ty
  body : GroupBody

structure GroupBody where
  stms : List GroupStm
  result : List GroupResult

inductive GroupStm where
  /-- Divides the arrays, which have `width` rows, into one chunk for each thread. -/
  | split (size : Binder) (chunks : List Binder) (division : Division) (width perThread : Operand)
      (arrays : List Name)
  /-- Runs the body in every thread, or only in the given lane of each group while the
  others see blank values. -/
  | thread (pat : Pattern) (only : Option Operand) (body : Body)
  /-- Reduces the values of the first `width` threads of each group. -/
  | reduce (pat : Pattern) (width : Operand) (op : Lambda) (inputs : List (Operand × Name))

end

structure FunDecl where
  name : String
  params : List Binder
  ret : List Ty
  body : Body

structure Program where
  funs : List FunDecl

def Stm.single (name : Name) (ty : Ty) (exp : Exp) : Stm := ⟨.single name ty, [], exp⟩

/-- A binding of a 64-bit integer. -/
def Stm.ofWord (name : Name) (exp : Exp) : Stm := .single name (.scalar .i64) exp

namespace Exp

/-- Expressions that may be moved to a place where they are evaluated speculatively. -/
def isSpeculable : Exp → Bool
  | operand _ | compare .. | iota .. | replicate .. | rearrange .. | copy _ => true
  | binary op _ _ => op != .div && op != .mod
  | _ => false

def isLaunch : Exp → Bool
  | launch _ => true
  | _ => false

def isAlloc : Exp → Bool
  | alloc .. => true
  | _ => false

end Exp

def Kernel.label : Kernel → String
  | map _ => "map_kernel"
  | scan _ => "scan_kernel"
  | chunked _ => "chunked_map_kernel"
  | scatter _ => "write_kernel"
  | group _ => "kernel"
  | numGroups => "num_groups"
  | groupSize => "group_size"

namespace MapKernel

def extents (k : MapKernel) : List Operand := k.space.map Prod.snd

/-- The names that a thread sees: its number, its point of the space and its inputs. -/
def threadNames (k : MapKernel) : List Name :=
  k.thread :: k.space.map Prod.fst ++ k.inputs.map fun i => i.param.name

end MapKernel

/-- The names that a kernel statement binds. -/
def GroupStm.names : GroupStm → List Name
  | split size chunks _ _ _ _ => size.name :: chunks.map Binder.name
  | thread pat _ _ => pat.names
  | reduce pat _ _ _ => pat.names

end ArrayKernels
