import ArrayKernels.Program.Basic

/-! The names that a piece of program binds, at every depth and in program order. -/
namespace ArrayKernels

mutual

def Exp.bound : Exp → List Name
  | .branch _ onTrue onFalse _ => onTrue.bound ++ onFalse.bound
  | .loop context values index _ body =>
    (context ++ values).map (·.1.name) ++ [index] ++ body.bound
  | .launch kernel => kernel.bound
  | _ => []

def boundInStms : List Stm → List Name
  | [] => []
  | ⟨pat, _, exp⟩ :: stms => pat.names ++ exp.bound ++ boundInStms stms

def Body.bound : Body → List Name
  | ⟨stms, _⟩ => boundInStms stms

def Lambda.bound : Lambda → List Name
  | ⟨params, body, _⟩ => params.map Binder.name ++ body.bound

def Kernel.bound : Kernel → List Name
  | .map ⟨_, _, thread, space, inputs, _, body⟩ =>
    (thread :: space.map Prod.fst ++ inputs.map fun i => i.param.name) ++ body.bound
  | .scan ⟨_, _, _, combine, fold, _, _⟩ => combine.bound ++ fold.bound
  | .chunked ⟨_, _, _, _, op, _⟩ => op.bound
  | .scatter ⟨_, _, op, _, _⟩ => op.bound
  | .group ⟨_, _, space, _, body⟩ => space.names ++ body.bound
  | .numGroups => []
  | .groupSize => []

def GroupStm.bound : GroupStm → List Name
  | .split size chunks _ _ _ _ => size.name :: chunks.map Binder.name
  | .thread pat _ body => pat.names ++ body.bound
  | .reduce pat _ op _ => pat.names ++ op.bound

def boundInGroupStms : List GroupStm → List Name
  | [] => []
  | stm :: stms => stm.bound ++ boundInGroupStms stms

def GroupBody.bound : GroupBody → List Name
  | ⟨stms, _⟩ => boundInGroupStms stms

end

end ArrayKernels
