import ArrayKernels.Program.Depth
import ArrayKernels.Simplify.Kernel

/-! Simplification of statements and bodies. A sweep over a body resolves copies, applies rules,
sweeps the nested bodies, and moves statements out as far as the blockers let them. -/
namespace ArrayKernels.Simplifier

def resolveMerge (scope : SymbolTable) (merge : List (Binder × Operand)) : List (Binder × Operand) :=
  merge.map fun m => (scope.resolveBinder m.1, scope.resolveOperand m.2)

/-- Simplifies an expression; gives what leaves its nested bodies and the expression. -/
def exp (s : Simplifier) (inner : BodySimplifier) (scope : SymbolTable) : Exp → Simplify (List Stm × Exp)
  | .operand x => pure ([], .operand (scope.resolveOperand x))
  | .binary op x y => pure ([], .binary op (scope.resolveOperand x) (scope.resolveOperand y))
  | .compare op x y => pure ([], .compare op (scope.resolveOperand x) (scope.resolveOperand y))
  | .index array indices => pure ([], .index (scope.resolve array) (scope.resolveOperands indices))
  | .update array indices value =>
    pure ([], .update (scope.resolve array) (scope.resolveOperands indices) (scope.resolveOperand value))
  | .iota count start stride =>
    pure ([], .iota (scope.resolveOperand count) (scope.resolveOperand start) (scope.resolveOperand stride))
  | .replicate shape value => pure ([], .replicate (scope.resolveOperands shape) (scope.resolveOperand value))
  | .reshape shape array => pure ([], .reshape (scope.resolveOperands shape) (scope.resolve array))
  | .rearrange perm array => pure ([], .rearrange perm (scope.resolve array))
  | .copy array => pure ([], .copy (scope.resolve array))
  | .alloc size space => pure ([], .alloc (scope.resolveOperand size) space)
  | .branch cond onTrue onFalse ret => do
    let blocker := (Blocker.consuming.or .failing).or s.parallel
    let (hoisted, onTrue) ← inner scope blocker onTrue
    let (more, onFalse) ← inner scope blocker onFalse
    pure (hoisted ++ more, .branch (scope.resolveOperand cond) onTrue onFalse (ret.map scope.resolveTy))
  | .loop context values index bound body => do
    let context := resolveMerge scope context
    let values := resolveMerge scope values
    let bound := scope.resolveOperand bound
    let params := (context ++ values).map Prod.fst
    let blocker := ((Blocker.mentioning (params.map Binder.name ++ [index])).or .consuming).or s.parallel
    let (hoisted, body) ← inner ((scope.bindParams params).bindIndex index bound) blocker body
    pure (hoisted, .loop context values index bound body)
  | .launch k => do
    let (hoisted, k) ← s.kernel inner scope k
    pure (hoisted, .launch k)

def stm (s : Simplifier) (inner : BodySimplifier) (scope : SymbolTable) (st : Stm) : Simplify (List Stm × Stm) := do
  let (hoisted, e) ← s.exp inner scope st.exp
  pure (hoisted, ⟨scope.resolvePattern st.pat, scope.resolveCerts st.certs, e⟩)

/-- Simplifies a statement and places it after what leaves its nested bodies. -/
def settle (s : Simplifier) (inner : BodySimplifier) (blocker : Blocker) (level : Level) (st : Stm) : Simplify Level := do
  let (hoisted, st) ← s.stm inner level.scope st
  pure ((hoisted ++ [st]).foldl (fun level st => level.add blocker st) level)

/-- One sweep over a body whose nested bodies are simplified by `inner`. -/
def sweepBody (s : Simplifier) (inner : BodySimplifier) : BodySimplifier := fun scope blocker body => do
  let level ← drain (fun level st => s.fireDown level.scope st) (s.settle inner blocker)
    (replacementsIn body.stms) body.stms (.start scope body)
  let result := level.scope.resolveOperands body.result
  let (_, stms) ← s.sweepUp level.scope result level.kept
  pure (level.hoisted, ⟨stms, result⟩)

/-- A sweep that reaches bodies down to the given depth; deeper ones stay as they are. -/
def bodyTo (s : Simplifier) : Nat → BodySimplifier
  | 0 => fun _ _ body => pure ([], body)
  | depth + 1 => s.sweepBody (s.bodyTo depth)

/-- A sweep over a body and all its nested bodies. -/
def body (s : Simplifier) : BodySimplifier := fun scope blocker body => s.bodyTo body.depth scope blocker body

def sweepLambda (s : Simplifier) (scope : SymbolTable) (op : Lambda) : Simplify (List Stm × Lambda) :=
  s.lambda (s.bodyTo op.depth) scope op

def sweepLambdaWith (s : Simplifier) (scope : SymbolTable) (blocker : Blocker) (op : Lambda) :
    Simplify (List Stm × Lambda) :=
  lambdaWith (s.bodyTo op.depth) scope blocker op

def sweepKernel (s : Simplifier) (scope : SymbolTable) (k : Kernel) : Simplify (List Stm × Kernel) :=
  s.kernel (s.bodyTo k.depth) scope k

def sweepGroupBody (s : Simplifier) (scope : SymbolTable) (bound : List Name) (body : GroupBody) :
    Simplify (List Stm × GroupBody) :=
  s.groupBody (s.bodyTo body.depth) scope bound body

end ArrayKernels.Simplifier
