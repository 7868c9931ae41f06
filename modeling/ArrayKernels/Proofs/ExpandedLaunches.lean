import ArrayKernels.Proofs.ThreadCode

/-! Host code before and after expansion. Each launch of a kernel is one step: the kernel is replaced,
and the statements that allocate what is lifted out of it stand in front of the launch. The other
statements of host code stay as they are. -/
namespace ArrayKernels

def Kernel.spreads (k : Kernel) : List (Operand × AllocSite) := k.threadCodes.flatMap ThreadCode.spreads

/-- The allocations that stay in the kernel. -/
def Kernel.diagnostics (k : Kernel) : List Diagnostic := k.threadCodes.flatMap ThreadCode.diagnostics

/-- A launch of a kernel, the totals that are computed in front of it, and the kernel that is launched
instead. -/
structure LaunchStep where
  kernel : Kernel
  totals : List Name
  expanded : Kernel

def LaunchStep.front (step : LaunchStep) : List Stm := spreadStms step.totals step.kernel.spreads

mutual

/-- An expression becomes some statements and an expression behind them. -/
inductive Exp.StepsTo : List LaunchStep → Exp → List Stm → Exp → Prop where
  | launch (step : LaunchStep) : Exp.StepsTo [step] (.launch step.kernel) step.front (.launch step.expanded)
  | branch (cond : Operand) (ret : List Ty) {first second : List LaunchStep} {onTrue onTrue' onFalse onFalse' : Body}
      (yes : Body.StepsTo first onTrue onTrue') (no : Body.StepsTo second onFalse onFalse') :
      Exp.StepsTo (first ++ second) (.branch cond onTrue onFalse ret) [] (.branch cond onTrue' onFalse' ret)
  | loop (context values : List (Binder × Operand)) (index : Name) (bound : Operand) {steps : List LaunchStep} {body body' : Body}
      (inner : Body.StepsTo steps body body') :
      Exp.StepsTo steps (.loop context values index bound body) [] (.loop context values index bound body')
  | leaf {e : Exp} (leaf : e.isNested = false) : Exp.StepsTo [] e [] e

inductive StmsStepTo : List LaunchStep → List Stm → List Stm → Prop where
  | nil : StmsStepTo [] [] []
  | cons (pat : Pattern) (certs : List Name) {first rest : List LaunchStep} {e e' : Exp} {front stms stms' : List Stm}
      (here : e.StepsTo first front e') (later : StmsStepTo rest stms stms') :
      StmsStepTo (first ++ rest) (⟨pat, certs, e⟩ :: stms) (front ++ ⟨pat, certs, e'⟩ :: stms')

inductive Body.StepsTo : List LaunchStep → Body → Body → Prop where
  | mk (result : List Operand) {steps : List LaunchStep} {stms stms' : List Stm} (inner : StmsStepTo steps stms stms') :
      Body.StepsTo steps ⟨stms, result⟩ ⟨stms', result⟩

end

inductive FunsStepTo : List LaunchStep → List FunDecl → List FunDecl → Prop where
  | nil : FunsStepTo [] [] []
  | cons (f : FunDecl) {body : Body} {first rest : List LaunchStep} {funs funs' : List FunDecl} (here : f.body.StepsTo first body)
      (later : FunsStepTo rest funs funs') : FunsStepTo (first ++ rest) (f :: funs) ({ f with body } :: funs')

/-- The kernels are expanded one after another. -/
inductive Steps (options : ExpandOptions) : ExpandState → List LaunchStep → ExpandState → Prop where
  | nil (s : ExpandState) : Steps options s [] s
  | cons {s r t : ExpandState} {step : LaunchStep} {steps : List LaunchStep}
      (here : step.kernel.expand options s = .ok ((step.front, step.expanded), r))
      (codes : CodesExpand options step.kernel.threadCodes step.expanded.threadCodes step.totals step.front s r)
      (later : Steps options r steps t) : Steps options s (step :: steps) t

section
variable {options : ExpandOptions}

theorem Steps.append {s r t : ExpandState} {steps others : List LaunchStep} (h : Steps options s steps r) (h' : Steps options r others t) :
    Steps options s (steps ++ others) t := by
  induction h with
  | nil s => exact h'
  | cons here codes _ ih => exact .cons here codes (ih h')

mutual

theorem Exp.expandHost_steps : ∀ (e : Exp) {e' : Exp} {front : List Stm} {s t : ExpandState},
    e.expandHost options s = .ok ((front, e'), t) → ∃ steps, e.StepsTo steps front e' ∧ Steps options s steps t
  | .branch cond onTrue onFalse ret, _, _, _, _, made => by
    obtain ⟨onTrue', r, madeTrue, made⟩ := Pass.bind_eq_ok.mp made
    obtain ⟨onFalse', r', madeFalse, made⟩ := Pass.bind_eq_ok.mp made
    obtain ⟨same, rfl⟩ := Pass.pure_eq_ok.mp made
    cases same
    obtain ⟨first, yes, ran⟩ := onTrue.expandHost_steps madeTrue
    obtain ⟨second, no, ran'⟩ := onFalse.expandHost_steps madeFalse
    exact ⟨first ++ second, .branch cond ret yes no, ran.append ran'⟩
  | .loop context values index bound body, _, _, _, _, made => by
    obtain ⟨body', r, madeBody, made⟩ := Pass.bind_eq_ok.mp made
    obtain ⟨same, rfl⟩ := Pass.pure_eq_ok.mp made
    cases same
    obtain ⟨steps, inner, ran⟩ := body.expandHost_steps madeBody
    exact ⟨steps, .loop context values index bound inner, ran⟩
  | .launch kernel, _, front, s, t, made => by
    obtain ⟨⟨stms, kernel'⟩, r, madeKernel, made⟩ := Pass.bind_eq_ok.mp made
    obtain ⟨same, rfl⟩ := Pass.pure_eq_ok.mp made
    cases same
    obtain ⟨totals, codes⟩ := Kernel.expand_codes madeKernel
    obtain rfl : front = spreadStms totals kernel.spreads := codes.front
    exact ⟨[⟨kernel, totals, kernel'⟩], .launch ⟨kernel, totals, kernel'⟩, .cons madeKernel codes (.nil r)⟩
  | .operand _, _, _, _, _, made | .binary .., _, _, _, _, made | .compare .., _, _, _, _, made | .index .., _, _, _, _, made
  | .update .., _, _, _, _, made | .iota .., _, _, _, _, made | .replicate .., _, _, _, _, made | .reshape .., _, _, _, _, made
  | .rearrange .., _, _, _, _, made | .copy _, _, _, _, _, made | .alloc .., _, _, _, _, made => by
    obtain ⟨same, rfl⟩ := Pass.pure_eq_ok.mp made
    cases same
    exact ⟨[], .leaf rfl, .nil _⟩

theorem expandHostStms_steps : ∀ (stms : List Stm) {stms' : List Stm} {s t : ExpandState},
    expandHostStms options stms s = .ok (stms', t) → ∃ steps, StmsStepTo steps stms stms' ∧ Steps options s steps t
  | [], _, _, _, made => by
    obtain ⟨rfl, rfl⟩ := Pass.pure_eq_ok.mp made
    exact ⟨[], .nil, .nil _⟩
  | ⟨pat, certs, e⟩ :: stms, _, _, _, made => by
    obtain ⟨⟨front, e'⟩, r, madeExp, made⟩ := Pass.bind_eq_ok.mp made
    obtain ⟨stms', r', madeRest, made⟩ := Pass.bind_eq_ok.mp made
    obtain ⟨rfl, rfl⟩ := Pass.pure_eq_ok.mp made
    obtain ⟨first, here, ran⟩ := e.expandHost_steps madeExp
    obtain ⟨rest, later, ran'⟩ := expandHostStms_steps stms madeRest
    exact ⟨first ++ rest, .cons pat certs here later, ran.append ran'⟩

theorem Body.expandHost_steps : ∀ (body : Body) {body' : Body} {s t : ExpandState},
    body.expandHost options s = .ok (body', t) → ∃ steps, body.StepsTo steps body' ∧ Steps options s steps t
  | ⟨stms, result⟩, _, _, _, made => by
    obtain ⟨stms', r, madeStms, made⟩ := Pass.bind_eq_ok.mp made
    obtain ⟨rfl, rfl⟩ := Pass.pure_eq_ok.mp made
    obtain ⟨steps, inner, ran⟩ := expandHostStms_steps stms madeStms
    exact ⟨steps, .mk result inner, ran⟩

end

theorem expandFuns_steps {funs funs' : List FunDecl} {s t : ExpandState} (made : expandFuns options funs s = .ok (funs', t)) :
    ∃ steps, FunsStepTo steps funs funs' ∧ Steps options s steps t := by
  induction funs generalizing funs' s with
  | nil =>
    cases made
    exact ⟨[], .nil, .nil _⟩
  | cons f funs ih =>
    obtain ⟨body, r, rest, madeBody, others, rfl⟩ := expandFuns_cons made
    obtain ⟨first, here, ran⟩ := f.body.expandHost_steps madeBody
    obtain ⟨steps, later, ran'⟩ := ih others
    exact ⟨first ++ steps, .cons f here later, ran.append ran'⟩

/-- Expansion of a program as a sequence of steps, one for each launch. -/
theorem Program.expand_steps {names : NameSupply} {p : Program} {e : Expansion} (made : p.expand options names = .ok e) :
    ∃ steps, FunsStepTo steps p.funs e.program.funs ∧ Steps options ⟨names, []⟩ steps ⟨e.names, e.diagnostics⟩ := by
  unfold Program.expand at made
  cases ran : expandFuns options p.funs ⟨names, []⟩ with
  | error cause => simp [ran, bind, Except.bind] at made
  | ok out =>
    obtain ⟨funs, s⟩ := out
    simp only [ran, bind, Except.bind, Except.ok.injEq] at made
    subst made
    exact expandFuns_steps ran

end

/-! The kernels of host code -/

/-- The kernels launched in an expression, through branches and loops. -/
def Exp.launches (e : Exp) : List Kernel := e.sites.filterMap CodeSite.launch?

def launchesIn (stms : List Stm) : List Kernel := (sitesIn stms).filterMap CodeSite.launch?

def Body.launches (body : Body) : List Kernel := body.sites.filterMap CodeSite.launch?

def Program.launches (p : Program) : List Kernel := p.funs.flatMap fun f => f.body.launches

theorem sitesIn_append (stms more : List Stm) : sitesIn (stms ++ more) = sitesIn stms ++ sitesIn more := by
  induction stms with
  | nil => rfl
  | cons stm stms ih =>
    obtain ⟨pat, certs, e⟩ := stm
    rw [List.cons_append, sitesIn, sitesIn, ih, List.append_assoc _ (sitesIn stms)]

theorem filterMap_launch_boundSites (pat : Pattern) (e : Exp) : (boundSites pat e).filterMap CodeSite.launch? = [] := by
  unfold boundSites
  cases allocSite pat e with
  | some a => rfl
  | none =>
    rw [binderSites, List.filterMap_map]
    exact List.filterMap_eq_nil_iff.mpr fun _ _ => rfl

theorem launchesIn_cons (pat : Pattern) (certs : List Name) (e : Exp) (stms : List Stm) :
    launchesIn (⟨pat, certs, e⟩ :: stms) = e.launches ++ launchesIn stms := by
  rw [launchesIn, sitesIn, List.filterMap_append, List.filterMap_append, filterMap_launch_boundSites]
  rfl

theorem launchesIn_append (stms more : List Stm) : launchesIn (stms ++ more) = launchesIn stms ++ launchesIn more := by
  rw [launchesIn, sitesIn_append, List.filterMap_append]
  rfl

theorem launchesIn_spreadStms (totals : List Name) (lifted : List (Operand × AllocSite)) : launchesIn (spreadStms totals lifted) = [] := by
  induction totals generalizing lifted with
  | nil => rfl
  | cons total totals ih =>
    cases lifted with
    | nil => rfl
    | cons p lifted => exact (launchesIn_append (p.2.spread p.1 total) _).trans (ih lifted)

theorem Exp.launches_leaf {e : Exp} (leaf : e.isNested = false) : e.launches = [] := by
  cases e with
  | branch | loop | launch => cases leaf
  | operand | binary | compare | index | update | iota | replicate | reshape | rearrange | copy | alloc => rfl

theorem Exp.launches_branch (cond : Operand) (onTrue onFalse : Body) (ret : List Ty) :
    (Exp.branch cond onTrue onFalse ret).launches = onTrue.launches ++ onFalse.launches := by
  rw [launches, sites, List.filterMap_append]
  rfl

theorem Exp.launches_loop (context values : List (Binder × Operand)) (index : Name) (bound : Operand) (body : Body) :
    (Exp.loop context values index bound body).launches = body.launches := by
  rw [launches, sites, List.filterMap_append, binderSites, List.filterMap_map]
  exact congrArg (· ++ body.launches) (List.filterMap_eq_nil_iff.mpr fun _ _ => rfl)

-- The induction is on the derivation, and each step accounts for one launch on both sides.
mutual

theorem Exp.StepsTo.launches : ∀ {steps : List LaunchStep} {e e' : Exp} {front : List Stm}, e.StepsTo steps front e' →
    e.launches = steps.map LaunchStep.kernel ∧ launchesIn front ++ e'.launches = steps.map LaunchStep.expanded
  | _, _, _, _, .launch step => by
    rw [LaunchStep.front, launchesIn_spreadStms]
    exact ⟨rfl, rfl⟩
  | _, _, _, _, .branch _ _ yes no => by
    obtain ⟨before, after⟩ := yes.launches
    obtain ⟨before', after'⟩ := no.launches
    rw [Exp.launches_branch, Exp.launches_branch, List.map_append, List.map_append, before, before', after, after']
    exact ⟨rfl, rfl⟩
  | _, _, _, _, .loop _ _ _ _ inner => by
    rw [Exp.launches_loop, Exp.launches_loop]
    exact inner.launches
  | _, _, _, _, .leaf leaf => by
    rw [Exp.launches_leaf leaf]
    exact ⟨rfl, rfl⟩

theorem StmsStepTo.launches : ∀ {steps : List LaunchStep} {stms stms' : List Stm}, StmsStepTo steps stms stms' →
    launchesIn stms = steps.map LaunchStep.kernel ∧ launchesIn stms' = steps.map LaunchStep.expanded
  | _, _, _, .nil => ⟨rfl, rfl⟩
  | _, _, _, .cons pat certs here later => by
    obtain ⟨before, after⟩ := here.launches
    obtain ⟨before', after'⟩ := later.launches
    rw [launchesIn_cons, launchesIn_append, launchesIn_cons, before, before', after', ← List.append_assoc, after, List.map_append,
      List.map_append]
    exact ⟨rfl, rfl⟩

theorem Body.StepsTo.launches : ∀ {steps : List LaunchStep} {body body' : Body}, body.StepsTo steps body' →
    body.launches = steps.map LaunchStep.kernel ∧ body'.launches = steps.map LaunchStep.expanded
  | _, _, _, .mk _ inner => inner.launches

end

theorem FunsStepTo.launches {steps : List LaunchStep} {p p' : Program} (h : FunsStepTo steps p.funs p'.funs) :
    p.launches = steps.map LaunchStep.kernel ∧ p'.launches = steps.map LaunchStep.expanded := by
  obtain ⟨funs⟩ := p
  obtain ⟨funs'⟩ := p'
  dsimp only at h
  unfold Program.launches
  induction h with
  | nil => exact ⟨rfl, rfl⟩
  | cons f here _ ih =>
    obtain ⟨before, after⟩ := here.launches
    rw [List.flatMap_cons, List.flatMap_cons, ih.1, ih.2, List.map_append, List.map_append, ← before, ← after]
    exact ⟨rfl, rfl⟩

end ArrayKernels
