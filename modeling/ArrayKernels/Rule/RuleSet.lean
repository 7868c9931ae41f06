import ArrayKernels.Scope.SymbolTable
import ArrayKernels.Scope.Usage

/-! Simplification rules. A rule sees one statement under the tables of its place. It declines, or
gives the statements that replace it and the rest of the name supply; a rule that declines
draws no name. -/
namespace ArrayKernels

abbrev TopDownRule := SymbolTable → Stm → NameSupply → Option (List Stm × NameSupply)
abbrev BottomUpRule := SymbolTable → Usage → Stm → NameSupply → Option (List Stm × NameSupply)

/-- Rules in the order in which they are tried. -/
structure RuleSet where
  topDown : List TopDownRule
  bottomUp : List BottomUpRule

namespace RuleSet

def empty : RuleSet := ⟨[], []⟩

/-- What the first rule that does not decline gives. -/
def replaceDown (rules : RuleSet) (table : SymbolTable) (stm : Stm) (names : NameSupply) :
    Option (List Stm × NameSupply) :=
  rules.topDown.findSome? fun rule => rule table stm names

def replaceUp (rules : RuleSet) (table : SymbolTable) (usage : Usage) (stm : Stm) (names : NameSupply) :
    Option (List Stm × NameSupply) :=
  rules.bottomUp.findSome? fun rule => rule table usage stm names

end RuleSet

/-- The statement with another kernel. -/
def Stm.withKernel (stm : Stm) (k : Kernel) : Stm := { stm with exp := .launch k }

end ArrayKernels
