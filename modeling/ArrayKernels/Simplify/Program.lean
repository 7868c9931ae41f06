import ArrayKernels.Program.Same
import ArrayKernels.Rule.Standard
import ArrayKernels.Simplify.Body

/-! Simplification of functions and programs: sweeps are repeated until a function stops
changing. -/
namespace ArrayKernels

/-- At most `passes` sweeps over a function; `keepFailing` keeps everything that may fail in the body
that binds it. -/
structure SimplifyOptions where
  passes : Nat := 64
  keepFailing : Bool := true

/-- One sweep. Nothing leaves the body of a function. -/
def FunDecl.sweep (s : Simplifier) (f : FunDecl) : Simplify FunDecl := do
  let (hoisted, body) ← s.body (SymbolTable.empty.bindParams f.params) .always f.body
  if hoisted.isEmpty then pure { f with body } else throw (.leftFunction f.name)

/-- Sweeps until a sweep changes nothing, at most `n` times. -/
def FunDecl.simplify (s : Simplifier) : Nat → FunDecl → Simplify FunDecl
  | 0, f => pure f
  | n + 1, f => do
    let next ← f.sweep s
    if next.same f then pure next else next.simplify s n

def Program.simplifyWith (rules : RuleSet) (options : SimplifyOptions) (p : Program) : Simplify Program := do
  pure ⟨← p.funs.mapM (FunDecl.simplify (.make rules options.keepFailing) options.passes)⟩

/-- The program simplified with the standard rules, and the rest of the name supply. -/
def Program.simplify (options : SimplifyOptions) (names : NameSupply) (p : Program) :
    Except SimplifyError (Program × NameSupply) :=
  (p.simplifyWith .standard options ⟨names, 0⟩).map fun r => (r.1, r.2.names)

end ArrayKernels
