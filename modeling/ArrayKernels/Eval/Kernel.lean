import ArrayKernels.Eval.Chunks
import ArrayKernels.Eval.Env
import ArrayKernels.Index.Function

/-! The meaning of kernels. Each kernel is given the meaning of its body or operator, and
says which environments or arguments it is run on and how the results are put together. -/
namespace ArrayKernels

def Ty.resultElem (ty : Ty) : Eval ScalarType :=
  match ty.elem with
  | some e => .ok e
  | none => .error .memoryResult

namespace MapKernel

/-- Binds the inputs in order, each in the scope of the ones before it. -/
def bindInputs (env : Env) (inputs : List MapInput) : Eval Env :=
  inputs.foldlM (fun env i => do
    let a ← env.array i.array
    let indices ← i.indices.mapM env.word
    .ok (env.bind i.param.name (← a.index indices))) env

/-- The environment of thread `t`: its number, its point of the space, and its inputs. -/
def threadEnv (k : MapKernel) (dims : List Nat) (env : Env) (t : Nat) : Eval Env :=
  let point := (k.space.map Prod.fst).zip ((coordinates t dims).2.map Value.count)
  bindInputs ((env.bind k.thread (.count t)).bindAll point.reverse) k.inputs

/-- Assembles the results of all threads over the index space. -/
def assemble (env : Env) (space : List Nat) (ret : Ty × List Nat) (rows : List Value) : Eval Value := do
  let rowShape ← env.sizes ret.1.shape
  let flat ← ArrayValue.ofRows (← ret.1.resultElem) rowShape rows
  if volume (space ++ rowShape) = flat.data.size then
    let out : ArrayValue := { flat with shape := space ++ rowShape }
    if inPlace ret.2 then .ok (.array out) else do .ok (.array (← out.rearrange ret.2))
  else .error (.spaceMismatch space)

/-- The results of thread `t`, one for each output. -/
def runThread (k : MapKernel) (thread : Env → Eval (List Value)) (dims : List Nat) (env : Env) (t : Nat) :
    Eval (List Value) := do
  let values ← thread (← k.threadEnv dims env t)
  if values.length = k.returns.length then .ok values
  else .error (.mapArity values.length k.returns.length)

def run (k : MapKernel) (thread : Env → Eval (List Value)) (env : Env) : Eval (List Value) := do
  let width ← env.size k.width
  let dims ← env.sizes k.extents
  let results ← collect (k.runThread thread dims env) width
  let space := if dims = [] then [width] else dims
  k.returns.zipIdx.mapM fun rj => assemble env space rj.1 (column rj.2 results)

end MapKernel

namespace ScanKernel

def step (fold : List Value → Eval (List Value)) (arrays : List ArrayValue) (width : Nat) (i : Nat)
    (accs : List Value) : Eval (List Value) := do
  let elems ← arrays.mapM (·.row i)
  let next ← fold (.count i :: accs ++ elems)
  if next.length = width then .ok next else .error (.scanArity next.length width)

/-- Stacks one accumulator over all steps; the neutral element gives the type and the row shape. -/
def assemble (env : Env) (neutral : Operand) (rows : List Value) : Eval Value := do
  let ne ← env.operand neutral
  match ne.elem with
  | some e => .ok (.array (← ArrayValue.ofRows e ne.shape rows))
  | none => .error .scanMemory

def run (k : ScanKernel) (fold : List Value → Eval (List Value)) (env : Env) : Eval (List Value) := do
  let width ← env.size k.width
  let arrays ← k.arrays.mapM env.array
  let accs ← k.neutral.mapM env.operand
  let steps ← scanFrom (step fold arrays accs.length) width 0 accs
  k.neutral.zipIdx.mapM fun nj => assemble env nj.1 (column nj.2 steps)

end ScanKernel

namespace ChunkedKernel

/-- The row numbers and the results of thread `t`. -/
def thread (op : List Value → Eval (List Value)) (arrays : List ArrayValue) (numbers : List Nat) (t : Nat) :
    Eval (List Nat × List Value) := do
  let chunks ← arrays.mapM (·.takeRows numbers)
  .ok (numbers, ← op (.count t :: .count numbers.length :: chunks.map .array))

/-- The shape of the rows of a chunk that has some. -/
def chunkRowShape : Value → Option (List Nat)
  | .array a => if 0 < a.rows then some a.shape.tail else none
  | _ => none

/-- Puts the chunks of one output together. The first chunk with rows gives the row shape. -/
def assemble (env : Env) (width : Nat) (ty : Ty) (chunks : List (List Nat × Value)) : Eval Value := do
  let rowShape := (chunks.findSome? fun c => chunkRowShape c.2).getD (env.rowShape ty)
  joinChunks (← ty.resultElem) rowShape width chunks

def run (k : ChunkedKernel) (op : List Value → Eval (List Value)) (env : Env) : Eval (List Value) := do
  let width ← env.size k.width
  let threads ← env.size k.size.threads
  let chunk ← env.size k.size.chunk
  let arrays ← k.arrays.mapM env.array
  let results ← collect (fun t => thread op arrays (k.division.rows t threads chunk width) t) threads
  k.op.ret.zipIdx.mapM fun tj =>
    assemble env width tj.1 (results.filterMap fun r => (r.2[tj.2]?).map (r.1, ·))

end ChunkedKernel

namespace ScatterKernel

/-- Writes what thread results say about the destination with number `j` of `n`. -/
def writeDest (results : List Value) (n j : Nat) (dest : ArrayValue) : Eval ArrayValue :=
  match results[j]?, results[n + j]? with
  | some (.scalar c), some value =>
    match c.asWord with
    | some i => dest.writeRow i (.ok value) .scatterShape
    | none => .error .scatterIndexNotInteger
  | some _, _ => .error .scatterIndexNotScalar
  | none, _ => .error .storage

/-- The destinations after thread `i`. -/
def step (op : List Value → Eval (List Value)) (arrays : List ArrayValue) (i : Nat)
    (dests : List ArrayValue) : Eval (List ArrayValue) := do
  let elems ← arrays.mapM (·.row i)
  let results ← op (.count i :: elems)
  if results.length = 2 * dests.length then
    let n := dests.length
    dests.zipIdx.mapM fun dj => writeDest results n dj.2 dj.1
  else .error (.scatterArity results.length dests.length)

def run (k : ScatterKernel) (op : List Value → Eval (List Value)) (env : Env) : Eval (List Value) := do
  let width ← env.size k.width
  let arrays ← k.arrays.mapM env.array
  let dests ← k.dests.mapM fun d => env.array d.2
  let dests ← iterate (step op arrays) width 0 dests
  .ok (dests.map .array)

end ScatterKernel

namespace GroupKernel

/-- The environment in which thread `t` starts. -/
def threadEnv (space : ThreadNames) (groupSize : Nat) (env : Env) (t : Nat) : Env :=
  env.bindAll [(space.thread, .count t), (space.lane, .count (t % groupSize)), (space.group, .count (t / groupSize))]

/-- Divides the arrays and binds the number of rows and the chunks of thread `t`. -/
def split (size : Binder) (chunks : List Binder) (division : Division) (width perThread : Operand)
    (arrays : List Name) (threads : Nat) (env : Env) (t : Nat) : Eval Env := do
  let width ← env.size width
  let perThread ← env.size perThread
  let numbers := division.rows t threads perThread width
  let parts ← (chunks.zip arrays).mapM fun ca => do
    .ok (ca.1.name, Value.array (← (← env.array ca.2).takeRows numbers))
  .ok (env.bindAll ((size.name, .count numbers.length) :: parts))

/-- Runs a thread statement in thread `t`; a thread that is left out sees blank values. -/
def runThread (pat : Pattern) (only : Option Operand) (run : Env → Eval (List Value)) (groupSize : Nat)
    (env : Env) (t : Nat) : Eval Env := do
  let active ← match only with
    | none => .ok true
    | some lane => do .ok ((← env.size lane) == t % groupSize)
  let values ← if active then run env else pat.values.mapM fun b => env.blank b.ty
  env.bindValues pat values

/-- The arguments of lane `l` in a reduction. -/
def reduceArgs (inputs : List (Operand × Name)) (accs : List Value) (env : Env) (l : Nat) : Eval (List Value) := do
  .ok (.count l :: accs ++ (← inputs.mapM fun i => env.lookup i.2))

/-- Folds the operator over the lanes that take part in one group. -/
def reduceGroup (width : Operand) (inputs : List (Operand × Name)) (op : Env → List Value → Eval (List Value)) :
    List Env → Eval (List Value)
  | [] => .ok []
  | first :: rest => do
    let width ← first.size width
    let accs ← inputs.mapM fun i => first.operand i.1
    ((first :: rest).take width).zipIdx.foldlM
      (fun accs el => do op el.1 (← reduceArgs inputs accs el.1 el.2)) accs

/-- The first `n` blocks of `size` items. -/
def blocks {α : Type} (size : Nat) : Nat → List α → List (List α)
  | 0, _ => []
  | n + 1, xs => xs.take size :: blocks size n (xs.drop size)

/-- The threads of each group, of which the last may be smaller. -/
def groups (groupSize : Nat) (threads : List Env) : List (List Env) :=
  blocks groupSize ((threads.length + (groupSize - 1)) / groupSize) threads

/-- Reduces every group and binds its results in each of its threads. -/
def reduce (pat : Pattern) (width : Operand) (inputs : List (Operand × Name))
    (op : Env → List Value → Eval (List Value)) (groupSize : Nat) (threads : List Env) : Eval (List Env) := do
  let members := groups groupSize threads
  let reduced ← members.mapM (reduceGroup width inputs op)
  let bound ← (members.zip reduced).mapM fun mr => mr.1.mapM fun e => e.bindValues pat mr.2
  .ok bound.flatten

/-- The chunk of thread `t`, cut to the rows that it contributes. -/
def threadChunk (division : Division) (width perThread : Nat) (array : Name) (threads : Nat) (env : Env) (t : Nat) :
    Eval (List Nat × ArrayValue) := do
  let numbers := division.rows t threads perThread width
  let chunk ← env.array array
  let chunk ← if numbers.length < chunk.rows then chunk.takeRows (List.range numbers.length) else .ok chunk
  if t = 0 ∧ chunk.shape = [] then .error .storage else .ok (numbers, chunk)

/-- The value of one kernel result. -/
def assemble (env : Env) (threads : List Env) (ty : Ty) : GroupResult → Eval Value
  | .row value => do
    let rows ← threads.mapM fun e => e.operand value
    let rowShape := (rows.head?.map Value.shape).getD (env.rowShape ty)
    .ok (.array (← ArrayValue.ofRows (← ty.resultElem) rowShape rows))
  | .write index value => do
    match ← env.blank ty with
    | .array a => do
      let out ← threads.foldlM (fun out e => do
        out.writeRow (← e.word index) (e.operand value) .writeShape) a
      .ok (.array out)
    | _ => .error .writeNotArray
  | .chunks division width perThread array => do
    let width ← env.size width
    let perThread ← env.size perThread
    let chunks ← threads.zipIdx.mapM fun et =>
      threadChunk division width perThread array threads.length et.1 et.2
    let rowShape := (chunks.head?.map fun c => c.2.shape.tail).getD (env.rowShape ty)
    joinChunks (← ty.resultElem) rowShape width (chunks.map fun c => (c.1, .array c.2))

def results (env : Env) (threads : List Env) (returns : List Ty) (result : List GroupResult) : Eval (List Value) :=
  if result.length = returns.length then
    (result.zip returns).mapM fun rt => assemble env threads rt.2 rt.1
  else .error (.resultArity result.length returns.length)

def run (k : GroupKernel) (stms : Nat → List Env → Eval (List Env)) (env : Env) : Eval (List Value) := do
  let threads ← env.size k.size.threads
  let groupSize := max (← env.size k.size.groupSize) 1
  let final ← stms groupSize ((List.range threads).map (threadEnv k.space groupSize env))
  results env final k.returns k.body.result

end GroupKernel

end ArrayKernels
