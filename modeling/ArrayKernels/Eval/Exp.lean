import ArrayKernels.Eval.Kernel

/-! The reference evaluator: values without memory. Memory placements are ignored and an
allocation yields a token. A kernel runs one thread after another, except that the statements
of a group kernel run one by one across all threads. -/
namespace ArrayKernels

/-- Binds the parameters of an operator. -/
def Env.bindParams (env : Env) (params : List Binder) (args : List Value) : Eval Env :=
  if params.length = args.length then .ok (env.bindAll ((params.map Binder.name).zip args))
  else .error (.lambdaArity params.length args.length)

def liftScalar {α : Type} : Except ScalarError α → Eval α
  | .ok a => .ok a
  | .error e => .error (.scalar e)

/-- The array with the part at the indices replaced by the value. -/
def updateAt (v : Name) (a : ArrayValue) (indices : List Int64) (value : Eval Value) : Eval ArrayValue := do
  let (start, len) ← a.blockAt indices
  match a.accepts indices len (← value) with
  | some new => a.write start new
  | none => .error (.updateShape v)

def iotaValues (count : Nat) (start stride : Int64) : List Int64 :=
  (List.range count).map fun i => start + .ofNat i * stride

/-- One round of a loop: binds the index and the parameters and runs the body. -/
def loopStep (params : List Name) (index : Name) (run : Env → Eval (List Value)) (env : Env) (i : Nat)
    (values : List Value) : Eval (List Value) := do
  let next ← run ((env.bind index (.count i)).bindAll (params.zip values))
  if next.length = params.length then .ok next else .error (.loopArity next.length params.length)

mutual

def Exp.eval (env : Env) : Exp → Eval (List Value)
  | .operand x => do .ok [← env.operand x]
  | .binary op x y => do
    let a ← env.scalar x
    let b ← env.scalar y
    .ok [.scalar (← liftScalar (op.apply a b))]
  | .compare op x y => do
    let a ← env.scalar x
    let b ← env.scalar y
    .ok [.scalar (.bool (← liftScalar (op.apply a b)))]
  | .index array indices => do
    let a ← env.array array
    .ok [← a.index (← indices.mapM env.word)]
  | .update array indices value => do
    let a ← env.array array
    .ok [.array (← updateAt array a (← indices.mapM env.word) (env.operand value))]
  | .iota count start stride => do
    let n ← env.size count
    let start ← env.word start
    .ok [.words (iotaValues n start (← env.word stride))]
  | .replicate shape value => do
    let outer ← env.sizes shape
    .ok [.array (← ArrayValue.replicate outer (← env.operand value))]
  | .reshape shape array => do
    let a ← env.array array
    let new ← env.sizes shape
    match a.reshape new with
    | some b => .ok [.array b]
    | none => .error (.reshape array a.shape new)
  | .rearrange perm array => do .ok [.array (← (← env.array array).rearrange perm)]
  | .copy array => do .ok [← env.lookup array]
  | .alloc size space => do .ok [.mem (← env.word size) space]
  | .branch cond onTrue onFalse _ => do
    match ← env.scalar cond with
    | .bool true => onTrue.eval env
    | .bool false => onFalse.eval env
    | c => .error (.notBoolean c)
  | .loop context values index bound body => do
    let merge := context ++ values
    let init ← merge.mapM fun m => env.operand m.2
    let n ← env.word bound
    iterate (loopStep (merge.map (·.1.name)) index (fun e => body.eval e) env) n.toInt.toNat 0 init
  | .launch kernel => kernel.eval env

/-- The environment after the statements. -/
def evalStms (env : Env) : List Stm → Eval Env
  | [] => .ok env
  | ⟨pat, _, exp⟩ :: stms => do
    let env ← env.bindValues pat (← exp.eval env)
    evalStms env stms

def Body.eval (env : Env) : Body → Eval (List Value)
  | ⟨stms, result⟩ => do
    let env ← evalStms env stms
    result.mapM env.operand

def Lambda.eval (env : Env) : Lambda → List Value → Eval (List Value)
  | ⟨params, body, _⟩, args => do body.eval (← env.bindParams params args)

def Kernel.eval (env : Env) : Kernel → Eval (List Value)
  | .map k@⟨_, _, _, _, _, _, body⟩ => k.run (fun e => body.eval e) env
  | .scan k@⟨_, _, _, _, fold, _, _⟩ => k.run (fun args => fold.eval env args) env
  | .chunked k@⟨_, _, _, _, op, _⟩ => k.run (fun args => op.eval env args) env
  | .scatter k@⟨_, _, op, _, _⟩ => k.run (fun args => op.eval env args) env
  | .group k@⟨_, _, _, _, ⟨stms, _⟩⟩ => k.run (fun groupSize threads => evalGroupStms groupSize stms threads) env
  | .numGroups => .error (.outsideKernel Kernel.numGroups.label)
  | .groupSize => .error (.outsideKernel Kernel.groupSize.label)

/-- The environments of all threads after the statements of a group kernel. -/
def evalGroupStms (groupSize : Nat) : List GroupStm → List Env → Eval (List Env)
  | [], threads => .ok threads
  | .split size chunks division width perThread arrays :: stms, threads => do
    let next ← threads.zipIdx.mapM fun et =>
      GroupKernel.split size chunks division width perThread arrays threads.length et.1 et.2
    evalGroupStms groupSize stms next
  | .thread pat only body :: stms, threads => do
    let next ← threads.zipIdx.mapM fun et =>
      GroupKernel.runThread pat only (fun e => body.eval e) groupSize et.1 et.2
    evalGroupStms groupSize stms next
  | .reduce pat width op inputs :: stms, threads => do
    let next ← GroupKernel.reduce pat width inputs (fun e args => op.eval e args) groupSize threads
    evalGroupStms groupSize stms next

end

/-- Calls a function of the program. -/
def Program.call (p : Program) (name : String) (args : List Value) : Eval (List Value) :=
  match p.funs.find? (·.name == name) with
  | none => .error (.noFunction name)
  | some f =>
    if f.params.length = args.length then
      f.body.eval (Env.empty.bindAll ((f.params.map Binder.name).zip args))
    else .error (.functionArity name f.params.length args.length)

end ArrayKernels
