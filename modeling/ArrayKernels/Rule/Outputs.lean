import ArrayKernels.Program.Bound
import ArrayKernels.Rule.RuleSet

/-! Rules on the outputs of map kernels. -/
namespace ArrayKernels

/-- The elements whose flags are set. -/
def pick {α : Type} (flags : List Bool) (xs : List α) : List α :=
  (flags.zip xs).filterMap fun p => if p.1 then some p.2 else none

/-- The pattern, the returns and the results of the body have one entry for each output. -/
def outputsAgree (stm : Stm) (k : MapKernel) : Bool :=
  stm.pat.context.isEmpty && stm.pat.values.length == k.returns.length
    && k.body.result.length == k.returns.length

/-- The kernel statement with the flagged outputs only. -/
def keepOutputs (flags : List Bool) (stm : Stm) (k : MapKernel) : Stm :=
  { stm with
    pat := { stm.pat with values := pick flags stm.pat.values }
    exp := .launch (.map { k with
      returns := pick flags k.returns
      body := { k.body with result := pick flags k.body.result } }) }

def nondecreasing : List Nat → Bool
  | a :: b :: rest => a ≤ b && nondecreasing (b :: rest)
  | _ => true

/-- A result that is the same in every thread. -/
def invariantResult (table : SymbolTable) (inside : List Name) : Operand → Bool
  | .const _ => true
  | .var v => table.contains v && v ∉ inside

/-- Builds each output from copies of its value: one for each thread, in the shape of the space. -/
def replicateOutputs (stm : Stm) (k : MapKernel) :
    List (Binder × (Ty × List Nat) × Operand) → NameSupply → List Stm × NameSupply
  | [], names => ([], names)
  | (b, (ty, _), value) :: outputs, names =>
    let (flat, names) := names.fresh (b.name.base ++ "_flat")
    let (stms, names) := replicateOutputs stm k outputs names
    (⟨.single flat (ty.addDims [k.width]), stm.certs, .replicate [k.width] value⟩
      :: ⟨⟨[], [b]⟩, stm.certs, .reshape (k.extents ++ ty.shape) flat⟩ :: stms, names)

/-- Moves the outputs that are the same in every thread out of the kernel. Nothing moves if one
of them has its dimensions in another order. -/
def hoistInvariantOutputs : TopDownRule := fun table stm names =>
  match stm.exp with
  | .launch (.map k) =>
    let flags := k.body.result.map (invariantResult table (k.body.bound ++ k.threadNames))
    if !outputsAgree stm k || flags.all (!·) || (pick flags k.returns).any (fun r => !nondecreasing r.2) then none
    else
      let outputs := (pick flags stm.pat.values).zip ((pick flags k.returns).zip (pick flags k.body.result))
      let (stms, names) := replicateOutputs stm k outputs names
      if flags.all id then some (stms, names)
      else some (stms ++ [keepOutputs (flags.map (!·)) stm k], names)
  | _ => none

/-- Drops the outputs that nothing refers to, and the kernel with the last of them. -/
def dropDeadOutputs : BottomUpRule := fun _ usage stm names =>
  match stm.exp with
  | .launch (.map k) =>
    let flags := stm.pat.values.map fun b => usage.isUsed b.name
    if !outputsAgree stm k || flags.all id then none
    else if flags.all (!·) then some ([], names)
    else some ([keepOutputs flags stm k], names)
  | _ => none

end ArrayKernels
