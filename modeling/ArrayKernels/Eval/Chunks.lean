import ArrayKernels.Eval.Value

/-! Dividing the rows of an array between threads and putting chunks together again. -/
namespace ArrayKernels

/-- The rows of thread `t` among `width` rows. -/
def Division.rows (division : Division) (t threads perThread width : Nat) : List Nat :=
  match division with
  | .contiguous =>
    let start := min (t * perThread) width
    List.range' start (min (start + perThread) width - start)
  | .strided =>
    let step := max threads 1
    List.range' t ((width - t + (step - 1)) / step) step

/-- Puts row `j` of the chunk in the slot of the `j`-th row number. -/
def fillSlots (slots : Array (Option Value)) (numbers : List Nat) (chunk : ArrayValue) :
    Eval (Array (Option Value)) :=
  numbers.zipIdx.foldlM (fun slots nj => do .ok (slots.setIfInBounds nj.1 (some (← chunk.row nj.2)))) slots

/-- Puts a chunk in the slots of its row numbers. -/
def addChunk (slots : Array (Option Value)) (chunk : List Nat × Value) : Eval (Array (Option Value)) :=
  match chunk.2 with
  | .array a =>
    if a.rows = chunk.1.length then fillSlots slots chunk.1 a
    else .error (.chunkRows a.rows chunk.1.length)
  | _ => .error .chunkNotArray

/-- One array of `width` rows from the chunks of the threads, each with its row numbers. -/
def joinChunks (elem : ScalarType) (rowShape : List Nat) (width : Nat)
    (chunks : List (List Nat × Value)) : Eval Value := do
  let slots ← chunks.foldlM addChunk (Array.replicate width none)
  let rows ← slots.toList.zipIdx.mapM fun si =>
    match si.1 with
    | some row => .ok row
    | none => .error (.rowMissing si.2)
  .ok (.array (← ArrayValue.ofRows elem rowShape rows))

/-- The `j`-th value of every step that has one. -/
def column (j : Nat) (steps : List (List Value)) : List Value := steps.filterMap (·[j]?)

end ArrayKernels
