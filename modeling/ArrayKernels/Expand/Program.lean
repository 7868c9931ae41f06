import ArrayKernels.Expand.AllocSite
import ArrayKernels.Expand.Rebased
import ArrayKernels.Program.Bound

/-! Allocation expansion. An allocation in the code of a thread whose size does not depend on the
thread moves in front of the kernel, with room for all threads, and the arrays in it are rebased
so that every thread has its own part. -/
namespace ArrayKernels

inductive ExpandCause where
  | threadCount (x : Operand)
  | variantSize (kernel : String) (d : Diagnostic)
  | existential (block : Name)

def ExpandCause.text : ExpandCause → String
  | threadCount x => "thread count " ++ x.text ++ " is not an integer"
  | variantSize kernel d => kernel ++ ": " ++ d.text
  | existential block => "cannot rebase existential memory block " ++ block.text

/-- Why a function cannot be expanded. -/
structure ExpandError where
  function : String
  cause : ExpandCause

def ExpandError.text (e : ExpandError) : String := "in function " ++ e.function ++ ": " ++ e.cause.text

/-- `strict` refuses a size that depends on the thread instead of reporting it. -/
structure ExpandOptions where
  strict : Bool := false

structure ExpandState where
  names : NameSupply
  diagnostics : List Diagnostic

abbrev Expand := StateT ExpandState (Except ExpandCause)

/-- Reports the allocations that stay. -/
def reportVariant (options : ExpandOptions) (kernel : String) (found : List Diagnostic) : Expand Unit := fun s =>
  match options.strict, found with
  | true, d :: _ => .error (.variantSize kernel d)
  | _, _ => .ok ((), { s with diagnostics := s.diagnostics ++ found })

/-- The statements that allocate each lifted block once for all threads. -/
def liftedStms (threads : Operand) : List AllocSite → NameSupply → List Stm × NameSupply
  | [], names => ([], names)
  | a :: sites, names =>
    let (total, names) := names.fresh (a.block.name.base ++ "_total")
    let (stms, names) := liftedStms threads sites names
    (.ofWord total (.binary .mul threads a.size)
      :: ⟨⟨[], [{ a.block with ty := .mem (.var total) a.space }]⟩, [], .alloc (.var total) a.space⟩ :: stms, names)

def drawLifted (threads : Operand) (sites : List AllocSite) : Expand (List Stm) := fun s =>
  let (stms, names) := liftedStms threads sites s.names
  .ok (stms, { s with names })

/-- The place of a thread among a number of threads. -/
def threadPlace (thread : Name) (threads : Operand) : Except ExpandCause ThreadPlace :=
  match IndexExpr.ofOperand threads with
  | some n => .ok ⟨.var thread, n⟩
  | none => .error (.threadCount threads)

/-- Lifts the allocations out of the code of one thread; gives the statements that go in front of the
kernel, and what becomes of the code. Without lifted blocks the code is not searched for existential
memory. -/
def liftSites (options : ExpandOptions) (kernel : String) (thread : Name) (threads : Operand) (inside : List Name)
    (sites : List AllocSite) (existentials : List Name) : Expand (List Stm × Option Lift) := do
  let place ← threadPlace thread threads
  reportVariant options kernel (variantSites inside sites)
  let lifted := liftedSites inside sites
  let stms ← drawLifted threads lifted
  match lifted, existentials with
  | [], _ => pure (stms, none)
  | _, block :: _ => throw (.existential block)
  | _, [] => pure (stms, some ⟨lifted.map fun a => a.block.name, place⟩)

/-- The code of a thread without its lifted allocations and with its arrays rebased. -/
def Body.lifted (inside : List Name) (lift : Option Lift) (body : Body) : Body :=
  match lift with
  | some l => (body.withoutLifted inside).rebased l
  | none => body.withoutLifted inside

def GroupStm.lifted (inside : List Name) (lift : Option Lift) (stm : GroupStm) : GroupStm :=
  match lift with
  | some l => (stm.withoutLifted inside).rebased l
  | none => stm.withoutLifted inside

def Binder.lifted (lift : Option Lift) (b : Binder) : Binder :=
  match lift with
  | some l => b.rebased l
  | none => b

/-- An operator whose first parameter is the thread. Without parameters it stays as it is. -/
def Lambda.expand (options : ExpandOptions) (kernel : String) (threads : Operand) (op : Lambda) : Expand (List Stm × Lambda) :=
  match op.params with
  | [] => pure ([], op)
  | thread :: _ => do
    let inside := op.body.bound ++ op.params.map Binder.name
    let (stms, lift) ← liftSites options kernel thread.name threads inside op.body.allocSites
      op.body.existentials
    pure (stms, { op with params := op.params.map (·.lifted lift), body := op.body.lifted inside lift })

/-- Expands a kernel; gives the statements that go in front of it and the kernel. Scatter kernels have
no memory of their own. -/
def Kernel.expand (options : ExpandOptions) : Kernel → Expand (List Stm × Kernel)
  | .map k => do
    let inside := k.body.bound ++ k.threadNames
    let (stms, lift) ← liftSites options (Kernel.map k).label k.thread k.width inside k.body.allocSites
      k.body.existentials
    pure (stms, .map { k with
      body := k.body.lifted inside lift
      inputs := k.inputs.map fun i => { i with param := i.param.lifted lift } })
  | .chunked k => do
    let (stms, op) ← k.op.expand options (Kernel.chunked k).label k.size.threads
    pure (stms, .chunked { k with op })
  | .scan k => do
    let (stms, combine) ← k.combine.expand options (Kernel.scan k).label k.size.threads
    let (more, fold) ← k.fold.expand options (Kernel.scan k).label k.size.threads
    pure (stms ++ more, .scan { k with combine, fold })
  | .group k => do
    let inside := k.body.bound ++ k.space.names
    let (stms, lift) ← liftSites options (Kernel.group k).label k.space.thread k.size.threads inside
      (k.body.stms.flatMap GroupStm.allocSites)
      (k.body.stms.flatMap GroupStm.existentials)
    pure (stms, .group { k with body := ⟨k.body.stms.map (·.lifted inside lift), k.body.result⟩ })
  | k => pure ([], k)

mutual

/-- Expands the kernels of host code. -/
def Exp.expandHost (options : ExpandOptions) : Exp → Expand (List Stm × Exp)
  | .branch cond onTrue onFalse ret => do
    let onTrue ← onTrue.expandHost options
    let onFalse ← onFalse.expandHost options
    pure ([], .branch cond onTrue onFalse ret)
  | .loop context values index bound body => do
    let body ← body.expandHost options
    pure ([], .loop context values index bound body)
  | .launch k => do
    let (stms, k) ← k.expand options
    pure (stms, .launch k)
  | e => pure ([], e)

def expandHostStms (options : ExpandOptions) : List Stm → Expand (List Stm)
  | [] => pure []
  | ⟨pat, certs, exp⟩ :: stms => do
    let (before, exp) ← exp.expandHost options
    let rest ← expandHostStms options stms
    pure (before ++ ⟨pat, certs, exp⟩ :: rest)

def Body.expandHost (options : ExpandOptions) : Body → Expand Body
  | ⟨stms, result⟩ => do
    let stms ← expandHostStms options stms
    pure ⟨stms, result⟩

end

/-- An expanded program, the allocations left in kernels, and the rest of the name supply. -/
structure Expansion where
  program : Program
  names : NameSupply
  diagnostics : List Diagnostic

def Expansion.leavesAllocs (e : Expansion) : Bool := !e.diagnostics.isEmpty

/-- Expands the functions in order. -/
def expandFuns (options : ExpandOptions) : List FunDecl → ExpandState → Except ExpandError (List FunDecl × ExpandState)
  | [], s => .ok ([], s)
  | f :: funs, s =>
    match f.body.expandHost options s with
    | .error cause => .error ⟨f.name, cause⟩
    | .ok (body, s) => do
      let (rest, s) ← expandFuns options funs s
      .ok ({ f with body } :: rest, s)

def Program.expand (options : ExpandOptions) (names : NameSupply) (p : Program) : Except ExpandError Expansion := do
  let (funs, s) ← expandFuns options p.funs ⟨names, []⟩
  .ok ⟨⟨funs⟩, s.names, s.diagnostics⟩

end ArrayKernels
