import ArrayKernels.Index.ThreadPlace
import ArrayKernels.Program.Basic

/-! Rebasing the arrays of a thread that lie in lifted blocks. -/
namespace ArrayKernels

/-- The lifted blocks of one kernel, and how arrays in them move. -/
structure Lift where
  blocks : List Name
  place : ThreadPlace

def Lift.placement (l : Lift) (p : Placement) : Placement :=
  if p.block ∈ l.blocks then { p with index := l.place.rebase p.index } else p

def Binder.rebased (l : Lift) (b : Binder) : Binder := { b with place := b.place.map l.placement }

def Pattern.rebased (l : Lift) (p : Pattern) : Pattern :=
  ⟨p.context.map (·.rebased l), p.values.map (·.rebased l)⟩

/-- The memory blocks in the context of a pattern: which block they are is decided when the code runs,
so that arrays in them cannot be rebased. -/
def Pattern.existentials (p : Pattern) : List Name := (p.context.filter fun b => b.ty.isMem).map Binder.name

mutual

def Exp.existentials : Exp → List Name
  | .branch _ onTrue onFalse _ => onTrue.existentials ++ onFalse.existentials
  | .loop _ _ _ _ body => body.existentials
  | _ => []

def existentialsIn : List Stm → List Name
  | [] => []
  | ⟨pat, _, exp⟩ :: stms => pat.existentials ++ exp.existentials ++ existentialsIn stms

def Body.existentials : Body → List Name
  | ⟨stms, _⟩ => existentialsIn stms

end

def GroupStm.existentials : GroupStm → List Name
  | .split .. => []
  | .thread pat _ body => pat.existentials ++ body.existentials
  | .reduce pat _ op _ => pat.existentials ++ op.body.existentials

mutual

def Exp.rebased (l : Lift) : Exp → Exp
  | .branch cond onTrue onFalse ret => .branch cond (onTrue.rebased l) (onFalse.rebased l) ret
  | .loop context values index bound body =>
    .loop (context.map fun m => (m.1.rebased l, m.2)) (values.map fun m => (m.1.rebased l, m.2)) index bound
      (body.rebased l)
  | e => e

def stmsRebased (l : Lift) : List Stm → List Stm
  | [] => []
  | ⟨pat, certs, exp⟩ :: stms => ⟨pat.rebased l, certs, exp.rebased l⟩ :: stmsRebased l stms

def Body.rebased (l : Lift) : Body → Body
  | ⟨stms, result⟩ => ⟨stmsRebased l stms, result⟩

end

def Lambda.rebased (l : Lift) (op : Lambda) : Lambda :=
  { op with params := op.params.map (·.rebased l), body := op.body.rebased l }

def GroupStm.rebased (l : Lift) : GroupStm → GroupStm
  | .split size chunks division width perThread arrays =>
    .split (size.rebased l) (chunks.map (·.rebased l)) division width perThread arrays
  | .thread pat only body => .thread (pat.rebased l) only (body.rebased l)
  | .reduce pat width op inputs => .reduce (pat.rebased l) width (op.rebased l) inputs

end ArrayKernels
