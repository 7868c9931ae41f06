import ArrayKernels.Program.Bound

/-! Consumption: the arrays that evaluating a piece of program updates in place. A consumed
parameter stands for the array that it is bound to. -/
namespace ArrayKernels

/-- What consumption inside a scope means outside it: the arrays bound to consumed parameters,
then the consumed names that the scope does not hide. -/
def escaping (inner : NameSet) (bindings : List (Binder × Name)) (hidden : List Name) : NameSet :=
  NameSet.ofList (bindings.filterMap fun b => if b.1.name ∈ inner then some b.2 else none)
    ∪ inner.without hidden

/-- The parameters of a loop that start from a variable. -/
def variableInits (merge : List (Binder × Operand)) : List (Binder × Name) :=
  merge.filterMap fun m => m.2.asName.map (m.1, ·)

mutual

def Exp.consumed : Exp → NameSet
  | .update array _ _ => {array}
  | .branch _ onTrue onFalse _ => onTrue.consumed ∪ onFalse.consumed
  | .loop context values index _ body =>
    escaping body.consumed (variableInits (context ++ values))
      (body.bound ++ (context ++ values).map (·.1.name) ++ [index])
  | .launch kernel => kernel.consumed
  | _ => ∅

def consumedInStms : List Stm → NameSet
  | [] => ∅
  | ⟨_, _, exp⟩ :: stms => exp.consumed ∪ consumedInStms stms

/-- Names bound inside the body are included. -/
def Body.consumed : Body → NameSet
  | ⟨stms, _⟩ => consumedInStms stms

/-- The consumption of an operator whose parameters from number `skip` on are bound to rows
or chunks of the arrays. -/
def Lambda.consumed : Lambda → Nat → List Name → NameSet
  | ⟨params, body, _⟩, skip, arrays =>
    escaping body.consumed ((params.drop skip).zip arrays) (body.bound ++ params.map Binder.name)

def Kernel.consumed : Kernel → NameSet
  | .map ⟨_, _, thread, space, inputs, _, body⟩ =>
    escaping body.consumed (inputs.map fun i => (i.param, i.array))
      (body.bound ++ (thread :: space.map Prod.fst ++ inputs.map fun i => i.param.name))
  | .scan ⟨_, _, _, combine, fold, neutral, arrays⟩ =>
    fold.consumed (1 + neutral.length) arrays ∪ combine.consumed 0 []
  | .chunked ⟨_, _, _, _, op, arrays⟩ => op.consumed 2 arrays
  | .scatter ⟨_, _, op, arrays, dests⟩ => op.consumed 1 arrays ∪ NameSet.ofList (dests.map Prod.snd)
  | .group ⟨_, _, _, _, ⟨stms, _⟩⟩ => consumedInThreads (boundInGroupStms stms) stms
  | .numGroups => ∅
  | .groupSize => ∅

/-- The consumption of the thread statements, apart from the names in `inside`. -/
def consumedInThreads (inside : List Name) : List GroupStm → NameSet
  | [] => ∅
  | .thread _ _ body :: stms => body.consumed.without inside ∪ consumedInThreads inside stms
  | .split .. :: stms => consumedInThreads inside stms
  | .reduce .. :: stms => consumedInThreads inside stms

end

end ArrayKernels
