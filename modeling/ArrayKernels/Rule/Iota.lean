import ArrayKernels.Rule.RuleSet

/-! Rules on streamed iotas: a kernel computes the elements of an iota with stride one instead
of reading them. -/
namespace ArrayKernels

/-- The start of an array that is bound to an iota with stride one. -/
def countsFrom (table : SymbolTable) (array : Name) : Option Operand :=
  match table.defn array with
  | some (.iota _ start stride) => if stride.asWord = some 1 then some start else none
  | _ => none

/-- The streamed parameters whose arrays are iotas, with the starts. -/
def iotaParams (table : SymbolTable) (streams : List (Binder × Name)) : List (Binder × Operand) :=
  streams.filterMap fun s => (countsFrom table s.2).map (s.1, ·)

/-- The other streamed parameters with their arrays. -/
def otherStreams (table : SymbolTable) (streams : List (Binder × Name)) : List (Binder × Name) :=
  streams.filter fun s => (countsFrom table s.2).isNone

/-- The operator with its streamed parameters replaced and statements put before its body. -/
def Lambda.withStreams (op : Lambda) (leading : List Binder) (streams : List (Binder × Name)) (before : List Stm) :
    Lambda :=
  ⟨leading ++ streams.map Prod.fst, ⟨before ++ op.body.stms, op.body.result⟩, op.ret⟩

/-- The elements of iotas at a position. -/
def iotaElements (position : Name) (fused : List (Binder × Operand)) : List Stm :=
  fused.map fun f => .ofWord f.1.name (.binary .add (.var position) f.2)

/-- The chunks of iotas that a thread is given. -/
def iotaChunks (thread count : Name) (size : LaunchSize) (division : Division) :
    List (Binder × Operand) → NameSupply → List Stm × NameSupply
  | [], names => ([], names)
  | (param, x) :: fused, names =>
    let (start, names) := names.fresh "iota_start"
    match division with
    | .strided =>
      let (stms, names) := iotaChunks thread count size division fused names
      (.ofWord start (.binary .add (.var thread) x)
        :: .single param.name param.ty (.iota (.var count) (.var start) size.threads) :: stms, names)
    | .contiguous =>
      let (offset, names) := names.fresh "iota_offset"
      let (stms, names) := iotaChunks thread count size division fused names
      (.ofWord offset (.binary .mul (.var thread) size.chunk)
        :: .ofWord start (.binary .add (.var offset) x)
        :: .single param.name param.ty (.iota (.var count) (.var start) (.word 1)) :: stms, names)

def inlineChunkIotas : TopDownRule := fun table stm names =>
  match stm.exp with
  | .launch (.chunked k) =>
    match k.op.params with
    | thread :: count :: params =>
      let streams := params.zip k.arrays
      let fused := iotaParams table streams
      if params.length ≠ k.arrays.length || fused.isEmpty then none
      else
        let (before, names) := iotaChunks thread.name count.name k.size k.division fused names
        let kept := otherStreams table streams
        some ([stm.withKernel (.chunked { k with
          op := k.op.withStreams [thread, count] kept before
          arrays := kept.map Prod.snd })], names)
    | _ => none
  | _ => none

def inlineScanIotas : TopDownRule := fun table stm names =>
  match stm.exp with
  | .launch (.scan k) =>
    match k.fold.params with
    | index :: params =>
      let streams := (params.drop k.neutral.length).zip k.arrays
      let fused := iotaParams table streams
      if params.length ≠ k.neutral.length + k.arrays.length || fused.isEmpty then none
      else
        let kept := otherStreams table streams
        some ([stm.withKernel (.scan { k with
          fold := k.fold.withStreams (index :: params.take k.neutral.length) kept (iotaElements index.name fused)
          arrays := kept.map Prod.snd })], names)
    | [] => none
  | _ => none

def inlineScatterIotas : TopDownRule := fun table stm names =>
  match stm.exp with
  | .launch (.scatter k) =>
    match k.op.params with
    | index :: params =>
      let streams := params.zip k.arrays
      let fused := iotaParams table streams
      if params.length ≠ k.arrays.length || fused.isEmpty then none
      else
        let kept := otherStreams table streams
        some ([stm.withKernel (.scatter { k with
          op := k.op.withStreams [index] kept (iotaElements index.name fused)
          arrays := kept.map Prod.snd })], names)
    | [] => none
  | _ => none

end ArrayKernels
