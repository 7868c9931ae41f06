import ArrayKernels.Program.Basic

/-! The allocations in the code of one thread. Branches, loops and the statements of group kernels
are searched; kernels nested in the code are not. -/
namespace ArrayKernels

/-- A statement that binds one block to an allocation. -/
structure AllocSite where
  block : Binder
  size : Operand
  space : Space

/-- An allocation that stays in a kernel because its size is computed there. -/
structure Diagnostic where
  size : Name
  block : Binder

def Diagnostic.text (d : Diagnostic) : String :=
  "allocation of " ++ d.block.name.text ++ " has size " ++ d.size.text ++ ", which is not invariant to the kernel"

/-- The allocation of a statement with the given pattern and expression. -/
def allocSite (pat : Pattern) (exp : Exp) : Option AllocSite :=
  match pat.context, pat.values, exp with
  | [], [b], .alloc size space => some ⟨b, size, space⟩
  | _, _, _ => none

namespace AllocSite

/-- The size, if it is one of the names bound inside the kernel. -/
def variantSize (inside : List Name) (a : AllocSite) : Option Name :=
  a.size.asName.filter fun v => v ∈ inside

def isVariant (inside : List Name) (a : AllocSite) : Bool := (a.variantSize inside).isSome

end AllocSite

mutual

def Exp.allocSites : Exp → List AllocSite
  | .branch _ onTrue onFalse _ => onTrue.allocSites ++ onFalse.allocSites
  | .loop _ _ _ _ body => body.allocSites
  | _ => []

def allocSitesIn : List Stm → List AllocSite
  | [] => []
  | ⟨pat, _, exp⟩ :: stms => (allocSite pat exp).toList ++ exp.allocSites ++ allocSitesIn stms

def Body.allocSites : Body → List AllocSite
  | ⟨stms, _⟩ => allocSitesIn stms

end

def GroupStm.allocSites : GroupStm → List AllocSite
  | .split .. => []
  | .thread _ _ body => body.allocSites
  | .reduce _ _ op _ => op.body.allocSites

/-- The allocations whose size is bound inside the kernel. -/
def variantSites (inside : List Name) (sites : List AllocSite) : List Diagnostic :=
  sites.filterMap fun a => (a.variantSize inside).map (⟨·, a.block⟩)

/-- The allocations that can be lifted out of the kernel. -/
def liftedSites (inside : List Name) (sites : List AllocSite) : List AllocSite :=
  sites.filter fun a => !a.isVariant inside

mutual

def Exp.withoutLifted (inside : List Name) : Exp → Exp
  | .branch cond onTrue onFalse ret => .branch cond (onTrue.withoutLifted inside) (onFalse.withoutLifted inside) ret
  | .loop context values index bound body => .loop context values index bound (body.withoutLifted inside)
  | e => e

/-- The statements without the allocations that are lifted. -/
def stmsWithoutLifted (inside : List Name) : List Stm → List Stm
  | [] => []
  | ⟨pat, certs, exp⟩ :: stms =>
    match allocSite pat exp with
    | some a =>
      if a.isVariant inside then ⟨pat, certs, exp⟩ :: stmsWithoutLifted inside stms
      else stmsWithoutLifted inside stms
    | none => ⟨pat, certs, exp.withoutLifted inside⟩ :: stmsWithoutLifted inside stms

def Body.withoutLifted (inside : List Name) : Body → Body
  | ⟨stms, result⟩ => ⟨stmsWithoutLifted inside stms, result⟩

end

def GroupStm.withoutLifted (inside : List Name) : GroupStm → GroupStm
  | .thread pat only body => .thread pat only (body.withoutLifted inside)
  | .reduce pat width op inputs => .reduce pat width { op with body := op.body.withoutLifted inside } inputs
  | stm => stm

end ArrayKernels
