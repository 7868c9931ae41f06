import ArrayKernels.Rule.Inputs
import ArrayKernels.Rule.Iota
import ArrayKernels.Rule.Outputs

/-! The standard rules, and a rule that shows what a table knows. -/
namespace ArrayKernels

/-- Shows what is known about `v` in a statement that binds a name with base `probe` to `v`: the
type of the name, the bounds and the presence of `v` as the operands of an iota, and the aliases
as certificates. -/
def showFacts : TopDownRule := fun table stm names =>
  match stm.pat.soleName, stm.exp with
  | some name, .operand (.var v) =>
    if name.base = "probe" then
      let bound (x : Option Operand) : Operand := x.getD (.const (.bool false))
      let range := table.range v
      some ([⟨.single name ((table.type v).getD (.scalar .bool)), (table.aliases v).toList,
        .iota (bound range.lower) (bound range.upper) (.const (.bool (table.contains v)))⟩], names)
    else none
  | _, _ => none

namespace RuleSet

def standard : RuleSet where
  topDown := [dropUnusedInputs, inlineInputs, hoistInvariantOutputs, inlineChunkIotas, inlineScanIotas, inlineScatterIotas]
  bottomUp := [dropDeadOutputs]

/-- The standard rules, then the one that shows facts. -/
def showing : RuleSet := { standard with topDown := standard.topDown ++ [showFacts] }

end RuleSet

end ArrayKernels
