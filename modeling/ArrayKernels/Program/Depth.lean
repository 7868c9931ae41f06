import ArrayKernels.Program.Basic

/-! Nesting depth: how many bodies stand one inside the other. -/
namespace ArrayKernels

mutual

def Exp.depth : Exp → Nat
  | .branch _ onTrue onFalse _ => max onTrue.depth onFalse.depth
  | .loop _ _ _ _ body => body.depth
  | .launch kernel => kernel.depth
  | _ => 0

def stmsDepth : List Stm → Nat
  | [] => 0
  | ⟨_, _, exp⟩ :: stms => max exp.depth (stmsDepth stms)

def Body.depth : Body → Nat
  | ⟨stms, _⟩ => stmsDepth stms + 1

def Lambda.depth : Lambda → Nat
  | ⟨_, body, _⟩ => body.depth

def Kernel.depth : Kernel → Nat
  | .map ⟨_, _, _, _, _, _, body⟩ => body.depth
  | .scan ⟨_, _, _, combine, fold, _, _⟩ => max combine.depth fold.depth
  | .chunked ⟨_, _, _, _, op, _⟩ => op.depth
  | .scatter ⟨_, _, op, _, _⟩ => op.depth
  | .group ⟨_, _, _, _, body⟩ => body.depth
  | .numGroups => 0
  | .groupSize => 0

def groupStmsDepth : List GroupStm → Nat
  | [] => 0
  | .split .. :: stms => groupStmsDepth stms
  | .thread _ _ body :: stms => max body.depth (groupStmsDepth stms)
  | .reduce _ _ op _ :: stms => max op.depth (groupStmsDepth stms)

def GroupBody.depth : GroupBody → Nat
  | ⟨stms, _⟩ => groupStmsDepth stms

end

end ArrayKernels
