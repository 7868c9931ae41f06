import ArrayKernels.Simplify.Basic
import ArrayKernels.Simplify.Copies

/-! Simplification of operators and kernels. Operands are resolved in the enclosing scope. The code
of threads is simplified in a scope with the names of the thread; what leaves it is returned to
the caller, who places it before the kernel. -/
namespace ArrayKernels.Simplifier

/-- Nothing that mentions a parameter or consumes an array leaves an operator. -/
def lambdaWith (inner : BodySimplifier) (scope : SymbolTable) (blocker : Blocker) (op : Lambda) :
    Simplify (List Stm × Lambda) := do
  let params := op.params.map scope.resolveBinder
  let blocker := ((Blocker.mentioning (params.map Binder.name)).or .consuming).or blocker
  let (hoisted, body) ← inner (scope.bindParams params) blocker op.body
  pure (hoisted, ⟨params, body, op.ret.map scope.resolveTy⟩)

def lambda (s : Simplifier) (inner : BodySimplifier) (scope : SymbolTable) (op : Lambda) : Simplify (List Stm × Lambda) :=
  lambdaWith inner scope s.parallel op

/-- The scope of one thread of a map kernel. An input shares the storage of its array. -/
def mapScope (scope : SymbolTable) (k : MapKernel) : SymbolTable :=
  let indexed := k.space.foldl (fun t d => t.bindIndex d.1 d.2) (scope.bindIndex k.thread k.width)
  indexed.extend (k.inputs.map fun i =>
    (i.param.name, { Entry.ofTy i.param.ty with
      aliases := if i.param.ty.isArray then scope.aliasesThrough i.array else ∅ }))

def resolveInput (scope : SymbolTable) (i : MapInput) : MapInput :=
  ⟨scope.resolveBinder i.param, scope.resolve i.array, scope.resolveOperands i.indices⟩

def sweepMap (s : Simplifier) (inner : BodySimplifier) (scope : SymbolTable) (k : MapKernel) :
    Simplify (List Stm × MapKernel) := do
  let k : MapKernel :=
    { k with
      certs := scope.resolveCerts k.certs
      width := scope.resolveOperand k.width
      space := k.space.map fun d => (d.1, scope.resolveOperand d.2)
      inputs := k.inputs.map (resolveInput scope)
      returns := k.returns.map fun r => (scope.resolveTy r.1, r.2) }
  let blocker := ((Blocker.mentioning k.threadNames).or .consuming).or s.parallel
  let (hoisted, body) ← inner (mapScope scope k) blocker k.body
  pure (hoisted, { k with body })

/-- What is known about the names of a divided array: the number of rows is at most that of a full
chunk, and a chunk shares the storage and the elements of its array. -/
def splitEntries (scope : SymbolTable) (size : Binder) (chunks : List Binder) (perThread : Operand)
    (arrays : List Name) : List (Name × Entry) :=
  (size.name, { Entry.ofTy size.ty with range := .between (.word 0) perThread })
    :: (chunks.zip arrays).map fun ca =>
      (ca.1.name, { Entry.ofTy ca.1.ty with
        aliases := scope.aliasesThrough ca.2
        range := .between (.var ca.2) (.var ca.2) })

/-- The range, if it mentions only names that are visible outside. -/
def visibleRange (visible : Name → Bool) (r : Range) : Range :=
  let shown (x : Option Operand) : Bool := (x.bind Operand.asName).elim true visible
  if shown r.lower && shown r.upper then r else .unknown

/-- What is known about a value of a thread statement whose body ends in the scope `inside`. Only
names that outlive the body are mentioned. -/
def threadEntry (scope inside : SymbolTable) (bound : NameSet) (b : Binder) : Operand → Entry
  | .const _ => .ofTy b.ty
  | .var v =>
    let visible (w : Name) : Bool := scope.contains w || w ∈ bound
    let aliases := (inside.aliases v).filter visible
    { Entry.ofTy b.ty with
      aliases := if scope.contains v && b.ty.isArray then aliases.insert v else aliases
      range := visibleRange visible (inside.range v) }

def threadEntries (scope : SymbolTable) (bound : NameSet) (pat : Pattern) (body : Body) : List (Name × Entry) :=
  ((pat.values.zip body.result).map fun br =>
      (br.1.name, threadEntry scope (scope.bindStms body.stms) bound br.1 br.2))
    ++ pat.context.map fun b => (b.name, .ofTy b.ty)

/-- Simplifies a statement of a group kernel; gives what leaves it, the statement and the scope after it. -/
def groupStm (s : Simplifier) (inner : BodySimplifier) (scope : SymbolTable) (bound : NameSet) :
    GroupStm → Simplify (List Stm × GroupStm × SymbolTable)
  | .split size chunks division width perThread arrays =>
    let size := scope.resolveBinder size
    let chunks := chunks.map scope.resolveBinder
    let perThread := scope.resolveOperand perThread
    let arrays := scope.resolveAll arrays
    pure ([], .split size chunks division (scope.resolveOperand width) perThread arrays,
      scope.extend (splitEntries scope size chunks perThread arrays))
  | .thread pat only body => do
    let pat := scope.resolvePattern pat
    let blocker := ((Blocker.mentions bound).or .consuming).or s.parallel
    let (hoisted, body) ← inner scope blocker body
    pure (hoisted, .thread pat (only.map scope.resolveOperand) body,
      scope.extend (threadEntries scope bound pat body))
  | .reduce pat width op inputs => do
    let (hoisted, op) ← lambdaWith inner scope .always op
    if hoisted.isEmpty then
      let pat := scope.resolvePattern pat
      let inputs := inputs.map fun i => (scope.resolveOperand i.1, scope.resolve i.2)
      pure ([], .reduce pat (scope.resolveOperand width) op inputs, scope.bindParams pat.binders)
    else throw .leftReduction

def groupStms (s : Simplifier) (inner : BodySimplifier) :
    SymbolTable → NameSet → List GroupStm → Simplify (List Stm × List GroupStm × SymbolTable)
  | scope, _, [] => pure ([], [], scope)
  | scope, bound, stm :: stms => do
    let (hoisted, stm, scope) ← s.groupStm inner scope bound stm
    let (more, stms, scope) ← s.groupStms inner scope (bound.insertAll stm.names) stms
    pure (hoisted ++ more, stm :: stms, scope)

def resolveResult (scope : SymbolTable) : GroupResult → GroupResult
  | .row value => .row (scope.resolveOperand value)
  | .write index value => .write (scope.resolveOperand index) (scope.resolveOperand value)
  | .chunks division width perThread array =>
    .chunks division (scope.resolveOperand width) (scope.resolveOperand perThread) (scope.resolve array)

/-- The names used from a list of kernel statements on, and the statements without those that bind
nothing that is used. -/
def liveGroupStms (result : List GroupResult) : List GroupStm → NameSet × List GroupStm
  | [] => (NameSet.gather GroupResult.free result, [])
  | stm :: stms =>
    let (used, live) := liveGroupStms result stms
    if stm.names.any (· ∈ used) then (used ∪ stm.free, stm :: live) else (used, live)

def dropDeadGroupStms (stms : List GroupStm) (result : List GroupResult) : List GroupStm :=
  (liveGroupStms result stms).2

def groupBody (s : Simplifier) (inner : BodySimplifier) (scope : SymbolTable) (bound : List Name) (body : GroupBody) :
    Simplify (List Stm × GroupBody) := do
  let (hoisted, stms, scope) ← s.groupStms inner scope (.ofList bound) body.stms
  let result := body.result.map (resolveResult scope)
  pure (hoisted, ⟨dropDeadGroupStms stms result, result⟩)

def groupScope (scope : SymbolTable) (size : LaunchSize) (space : ThreadNames) : SymbolTable :=
  ((scope.bindIndex space.thread size.threads).bindIndex space.lane size.groupSize).bindIndex space.group size.groups

def kernel (s : Simplifier) (inner : BodySimplifier) (scope : SymbolTable) : Kernel → Simplify (List Stm × Kernel)
  | .map k => do
    let (hoisted, k) ← s.sweepMap inner scope k
    pure (hoisted, .map k)
  | .scan k => do
    let (hoisted, combine) ← s.lambda inner scope k.combine
    let (more, fold) ← s.lambda inner scope k.fold
    pure (hoisted ++ more, .scan
      ⟨scope.resolveCerts k.certs, scope.resolveOperand k.width, scope.resolveSize k.size, combine, fold,
        scope.resolveOperands k.neutral, scope.resolveAll k.arrays⟩)
  | .chunked k => do
    let (hoisted, op) ← s.lambda inner scope k.op
    pure (hoisted, .chunked
      ⟨scope.resolveCerts k.certs, scope.resolveOperand k.width, scope.resolveSize k.size, k.division, op,
        scope.resolveAll k.arrays⟩)
  | .scatter k => do
    let (hoisted, op) ← s.lambda inner scope k.op
    pure (hoisted, .scatter
      ⟨scope.resolveCerts k.certs, scope.resolveOperand k.width, op, scope.resolveAll k.arrays,
        k.dests.map fun d => (scope.resolveOperand d.1, scope.resolve d.2)⟩)
  | .group k => do
    let size := scope.resolveSize k.size
    let (hoisted, body) ← s.groupBody inner (groupScope scope size k.space) k.space.names k.body
    pure (hoisted, .group
      ⟨scope.resolveCerts k.certs, size, k.space, k.returns.map scope.resolveTy, body⟩)
  | .numGroups => pure ([], .numGroups)
  | .groupSize => pure ([], .groupSize)

end ArrayKernels.Simplifier
