import ArrayKernels.Program.Basic

/-! Free names. Types and memory placements count as uses: an array in a block keeps the
block and the sizes of its index function alive. -/
namespace ArrayKernels

def freeOperands : List Operand → NameSet := NameSet.gather Operand.free
def freeTypes : List Ty → NameSet := NameSet.gather Ty.free
def freeBinders : List Binder → NameSet := NameSet.gather Binder.free
def freeNames : List Name → NameSet := NameSet.ofList

def LaunchSize.free (s : LaunchSize) : NameSet := freeOperands s.operands

def GroupResult.free : GroupResult → NameSet
  | row value => value.free
  | write index value => index.free ∪ value.free
  | chunks _ width perThread array => width.free ∪ perThread.free ∪ {array}

/-- The names in the inputs of a map kernel: their arrays, indices and annotations. -/
def MapInput.free (i : MapInput) : NameSet := {i.array} ∪ freeOperands i.indices ∪ i.param.free

mutual

def Exp.free : Exp → NameSet
  | .operand x => x.free
  | .binary _ x y => x.free ∪ y.free
  | .compare _ x y => x.free ∪ y.free
  | .index array indices => {array} ∪ freeOperands indices
  | .update array indices value => {array} ∪ freeOperands indices ∪ value.free
  | .iota count start stride => count.free ∪ start.free ∪ stride.free
  | .replicate shape value => freeOperands shape ∪ value.free
  | .reshape shape array => freeOperands shape ∪ {array}
  | .rearrange _ array => {array}
  | .copy array => {array}
  | .alloc size _ => size.free
  | .branch cond onTrue onFalse ret => cond.free ∪ onTrue.free ∪ onFalse.free ∪ freeTypes ret
  | .loop context values index bound body =>
    let merge := context ++ values
    (body.free ∪ freeBinders (merge.map Prod.fst)).without (merge.map (·.1.name) ++ [index])
      ∪ freeOperands (merge.map Prod.snd) ∪ bound.free
  | .launch kernel => kernel.free

def Stm.free : Stm → NameSet
  | ⟨pat, certs, exp⟩ => pat.free ∪ freeNames certs ∪ exp.free

/-- The free names of statements that are followed by a use of the names in `after`. -/
def freeBefore (after : NameSet) : List Stm → NameSet
  | [] => after
  | stm :: stms => (freeBefore after stms).without stm.pat.names ∪ stm.free

def Body.free : Body → NameSet
  | ⟨stms, result⟩ => freeBefore (freeOperands result) stms

/-- The annotations of parameters use enclosing names only. -/
def Lambda.free : Lambda → NameSet
  | ⟨params, body, ret⟩ =>
    (body.free ∪ freeTypes ret).without (params.map Binder.name) ∪ freeBinders params

def Kernel.free : Kernel → NameSet
  | .map ⟨certs, width, thread, space, inputs, returns, body⟩ =>
    freeNames certs ∪ width.free ∪ freeOperands (space.map Prod.snd)
      ∪ (body.free ∪ NameSet.gather MapInput.free inputs ∪ freeTypes (returns.map Prod.fst)).without
        (thread :: space.map Prod.fst ++ inputs.map fun i => i.param.name)
  | .scan ⟨certs, width, size, combine, fold, neutral, arrays⟩ =>
    freeNames certs ∪ width.free ∪ size.free ∪ combine.free ∪ fold.free ∪ freeOperands neutral
      ∪ freeNames arrays
  | .chunked ⟨certs, width, size, _, op, arrays⟩ =>
    freeNames certs ∪ width.free ∪ size.free ∪ op.free ∪ freeNames arrays
  | .scatter ⟨certs, width, op, arrays, dests⟩ =>
    freeNames certs ∪ width.free ∪ op.free ∪ freeNames arrays
      ∪ NameSet.gather (fun d => d.1.free ∪ {d.2}) dests
  | .group ⟨certs, size, space, returns, body⟩ =>
    freeNames certs ∪ size.free ∪ freeTypes returns ∪ body.free.without space.names
  | .numGroups => ∅
  | .groupSize => ∅

def GroupStm.free : GroupStm → NameSet
  | .split size chunks _ width perThread arrays =>
    size.free ∪ freeBinders chunks ∪ width.free ∪ perThread.free ∪ freeNames arrays
  | .thread pat only body => pat.free ∪ freeOperands only.toList ∪ body.free
  | .reduce pat width op inputs =>
    pat.free ∪ width.free ∪ op.free ∪ NameSet.gather (fun i => i.1.free ∪ {i.2}) inputs

/-- The free names of kernel statements that are followed by a use of the names in `after`. -/
def freeBeforeGroup (after : NameSet) : List GroupStm → NameSet
  | [] => after
  | stm :: stms => (freeBeforeGroup after stms).without stm.names ∪ stm.free

def GroupBody.free : GroupBody → NameSet
  | ⟨stms, result⟩ => freeBeforeGroup (NameSet.gather GroupResult.free result) stms

end

end ArrayKernels
