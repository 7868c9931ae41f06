import ArrayKernels.Proofs.ExpandedLaunches

/-! What becomes of the allocations of a program. An allocation in the code of a thread whose size is
bound in that code stays where it is and is reported; any other leaves the code, and one total and one
allocation stand for it in front of the launch. Of all the rest only the index functions of placements
change. An operator without parameters has no thread, and nothing is lifted out of it. -/
namespace ArrayKernels

/-- The same binder but for the index function that places it. -/
structure Binder.Moved (b b' : Binder) : Prop where
  name : b'.name = b.name
  ty : b'.ty = b.ty
  block : b'.place.map Placement.block = b.place.map Placement.block

structure Pattern.Moved (pat pat' : Pattern) : Prop where
  context : List.Forall₂ Binder.Moved pat.context pat'.context
  values : List.Forall₂ Binder.Moved pat.values pat'.values

/-- The parameters of a loop move, and start from the same values. -/
def MergeMoved : List (Binder × Operand) → List (Binder × Operand) → Prop :=
  List.Forall₂ fun m m' => m.1.Moved m'.1 ∧ m'.2 = m.2

-- `inside` are the names by which the allocations that stay are told from those that are lifted.
mutual

inductive Exp.Thins (inside : List Name) : Exp → Exp → Prop where
  | branch (cond : Operand) (ret : List Ty) {onTrue onTrue' onFalse onFalse' : Body} (yes : Body.Thins inside onTrue onTrue')
      (no : Body.Thins inside onFalse onFalse') :
      Exp.Thins inside (.branch cond onTrue onFalse ret) (.branch cond onTrue' onFalse' ret)
  | loop (index : Name) (bound : Operand) {context context' values values' : List (Binder × Operand)} {body body' : Body}
      (first : MergeMoved context context') (second : MergeMoved values values') (inner : Body.Thins inside body body') :
      Exp.Thins inside (.loop context values index bound body) (.loop context' values' index bound body')
  | launch (k : Kernel) : Exp.Thins inside (.launch k) (.launch k)
  | leaf {e : Exp} (leaf : e.isNested = false) : Exp.Thins inside e e

inductive StmsThin (inside : List Name) : List Stm → List Stm → Prop where
  | nil : StmsThin inside [] []
  | lifted (certs : List Name) {pat : Pattern} {e : Exp} {a : AllocSite} {stms stms' : List Stm} (site : allocSite pat e = some a)
      (invariant : a.isVariant inside = false) (rest : StmsThin inside stms stms') :
      StmsThin inside (⟨pat, certs, e⟩ :: stms) stms'
  | kept (certs : List Name) {pat pat' : Pattern} {e e' : Exp} {stms stms' : List Stm}
      (stays : ∀ a, allocSite pat e = some a → a.isVariant inside = true) (moved : pat.Moved pat') (inner : Exp.Thins inside e e')
      (rest : StmsThin inside stms stms') : StmsThin inside (⟨pat, certs, e⟩ :: stms) (⟨pat', certs, e'⟩ :: stms')

inductive Body.Thins (inside : List Name) : Body → Body → Prop where
  | mk (result : List Operand) {stms stms' : List Stm} (inner : StmsThin inside stms stms') :
      Body.Thins inside ⟨stms, result⟩ ⟨stms', result⟩

end

inductive Lambda.Thins : Lambda → Lambda → Prop where
  | thread (op : Lambda) {params : List Binder} {body : Body} (threaded : op.params ≠ [])
      (moved : List.Forall₂ Binder.Moved op.params params) (inner : op.body.Thins op.innerNames body) :
      Thins op { op with params, body }
  | threadless {op : Lambda} (none : op.params = []) : Thins op op

inductive GroupStm.Thins (inside : List Name) : GroupStm → GroupStm → Prop where
  | split (division : Division) (width perThread : Operand) (arrays : List Name) {size size' : Binder} {chunks chunks' : List Binder}
      (first : size.Moved size') (others : List.Forall₂ Binder.Moved chunks chunks') :
      Thins inside (.split size chunks division width perThread arrays) (.split size' chunks' division width perThread arrays)
  | thread (only : Option Operand) {pat pat' : Pattern} {body body' : Body} (moved : pat.Moved pat')
      (inner : body.Thins inside body') : Thins inside (.thread pat only body) (.thread pat' only body')
  | reduce (width : Operand) (inputs : List (Operand × Name)) (op : Lambda) {pat pat' : Pattern} {params : List Binder} {body : Body}
      (moved : pat.Moved pat') (movedParams : List.Forall₂ Binder.Moved op.params params) (inner : op.body.Thins inside body) :
      Thins inside (.reduce pat width op inputs) (.reduce pat' width { op with params, body } inputs)

/-- A kernel loses the allocations that are lifted, and of the rest only index functions change. -/
inductive Kernel.Thins : Kernel → Kernel → Prop where
  | map (k : MapKernel) {inputs : List MapInput} {body : Body}
      (moved : List.Forall₂ (fun i i' => i.param.Moved i'.param ∧ i' = { i with param := i'.param }) k.inputs inputs)
      (inner : k.body.Thins k.threadCode.inside body) : Thins (.map k) (.map { k with inputs, body })
  | chunked (k : ChunkedKernel) {op : Lambda} (inner : k.op.Thins op) : Thins (.chunked k) (.chunked { k with op })
  | scan (k : ScanKernel) {combine fold : Lambda} (first : k.combine.Thins combine) (second : k.fold.Thins fold) :
      Thins (.scan k) (.scan { k with combine, fold })
  | group (k : GroupKernel) {stms : List GroupStm} (inner : List.Forall₂ (GroupStm.Thins k.threadCode.inside) k.body.stms stms) :
      Thins (.group k) (.group { k with body := ⟨stms, k.body.result⟩ })
  | scatter (k : ScatterKernel) : Thins (.scatter k) (.scatter k)
  | numGroups : Thins .numGroups .numGroups
  | groupSize : Thins .groupSize .groupSize

/-! Binders move -/

namespace Binder.Moved

theorem refl (b : Binder) : b.Moved b := ⟨rfl, rfl, rfl⟩

theorem rebased {b b' : Binder} (h : b.Moved b') (l : Lift) : b.Moved (b'.rebased l) := by
  refine ⟨h.name, h.ty, Eq.trans ?_ h.block⟩
  have same (p : Placement) : (l.placement p).block = p.block := by
    unfold Lift.placement
    split <;> rfl
  rw [Binder.rebased, Option.map_map]
  exact congrArg (Option.map · b'.place) (funext same)

theorem lifted (b : Binder) (lift : Option Lift) : b.Moved (b.lifted lift) := by
  cases lift with
  | none => exact refl b
  | some l => exact (refl b).rebased l

end Binder.Moved

theorem bindersMoved_refl (bs : List Binder) : List.Forall₂ Binder.Moved bs bs := List.forall₂_same.mpr fun b _ => .refl b

theorem bindersMoved_rebased {bs bs' : List Binder} (h : List.Forall₂ Binder.Moved bs bs') (l : Lift) :
    List.Forall₂ Binder.Moved bs (bs'.map (·.rebased l)) :=
  List.forall₂_map_right_iff.mpr (h.imp fun _ _ moved => moved.rebased l)

theorem bindersMoved_lifted (bs : List Binder) (lift : Option Lift) : List.Forall₂ Binder.Moved bs (bs.map (·.lifted lift)) :=
  List.forall₂_map_right_iff.mpr (List.forall₂_same.mpr fun b _ => .lifted b lift)

theorem Pattern.Moved.refl (pat : Pattern) : pat.Moved pat := ⟨bindersMoved_refl _, bindersMoved_refl _⟩

theorem Pattern.Moved.rebased {pat pat' : Pattern} (h : pat.Moved pat') (l : Lift) : pat.Moved (pat'.rebased l) :=
  ⟨bindersMoved_rebased h.context l, bindersMoved_rebased h.values l⟩

theorem Pattern.Moved.lifted (pat : Pattern) (lift : Option Lift) : pat.Moved (pat.lifted lift) :=
  ⟨bindersMoved_lifted _ lift, bindersMoved_lifted _ lift⟩

theorem MergeMoved.refl (ms : List (Binder × Operand)) : MergeMoved ms ms := List.forall₂_same.mpr fun m _ => ⟨.refl m.1, rfl⟩

theorem MergeMoved.rebased {ms ms' : List (Binder × Operand)} (h : MergeMoved ms ms') (l : Lift) :
    MergeMoved ms (ms'.map fun m => (m.1.rebased l, m.2)) :=
  List.forall₂_map_right_iff.mpr (h.imp fun _ _ moved => ⟨moved.1.rebased l, moved.2⟩)

/-! Code loses its lifted allocations -/

section
variable {inside : List Name}

mutual

theorem Exp.thins_withoutLifted : ∀ e : Exp, e.Thins inside (e.withoutLifted inside)
  | .operand _ | .binary .. | .compare .. | .index .. | .update .. | .iota .. | .replicate .. | .reshape ..
  | .rearrange .. | .copy _ | .alloc .. => .leaf rfl
  | .launch k => .launch k
  | .branch cond onTrue onFalse ret => .branch cond ret onTrue.thins_withoutLifted onFalse.thins_withoutLifted
  | .loop context values index bound body => .loop index bound (.refl context) (.refl values) body.thins_withoutLifted

theorem stmsThin_withoutLifted : ∀ stms : List Stm, StmsThin inside stms (stmsWithoutLifted inside stms)
  | [] => .nil
  | ⟨pat, certs, e⟩ :: stms => by
    have rest := stmsThin_withoutLifted stms
    rw [stmsWithoutLifted]
    split
    · rename_i a site
      split
      · rename_i variant
        obtain ⟨rfl, rfl⟩ := allocSite_eq_some.mp site
        refine .kept certs (fun b found => ?_) (.refl _) (.leaf rfl) rest
        cases found
        exact variant
      · rename_i invariant
        exact .lifted certs site (Bool.not_eq_true _ ▸ invariant) rest
    · rename_i none
      refine .kept certs (fun b found => ?_) (.refl pat) e.thins_withoutLifted rest
      cases none.symm.trans found

theorem Body.thins_withoutLifted : ∀ body : Body, body.Thins inside (body.withoutLifted inside)
  | ⟨stms, result⟩ => .mk result (stmsThin_withoutLifted stms)

end

mutual

theorem Exp.Thins.rebased (l : Lift) : ∀ {e e' : Exp}, e.Thins inside e' → e.Thins inside (e'.rebased l)
  | _, _, .branch cond ret yes no => .branch cond ret (yes.rebased l) (no.rebased l)
  | _, _, .loop index bound first second inner => .loop index bound (first.rebased l) (second.rebased l) (inner.rebased l)
  | _, _, .launch k => .launch k
  | e, _, .leaf leaf => by
    cases e with
    | branch | loop | launch => cases leaf
    | operand | binary | compare | index | update | iota | replicate | reshape | rearrange | copy | alloc => exact .leaf rfl

theorem StmsThin.rebased (l : Lift) : ∀ {stms stms' : List Stm}, StmsThin inside stms stms' → StmsThin inside stms (stmsRebased l stms')
  | _, _, .nil => .nil
  | _, _, .lifted certs site invariant rest => .lifted certs site invariant (rest.rebased l)
  | _, _, .kept certs stays moved inner rest => .kept certs stays (moved.rebased l) (inner.rebased l) (rest.rebased l)

theorem Body.Thins.rebased (l : Lift) : ∀ {body body' : Body}, body.Thins inside body' → body.Thins inside (body'.rebased l)
  | _, _, .mk result inner => .mk result (inner.rebased l)

end

theorem Body.thins_lifted (body : Body) (lift : Option Lift) : body.Thins inside (body.lifted inside lift) := by
  cases lift with
  | none => exact body.thins_withoutLifted
  | some l => exact body.thins_withoutLifted.rebased l

theorem GroupStm.thins_lifted (stm : GroupStm) (lift : Option Lift) : stm.Thins inside (stm.lifted inside lift) := by
  cases stm with
  | split size chunks division width perThread arrays =>
    rw [lifted_split]
    exact .split division width perThread arrays (.lifted size lift) (bindersMoved_lifted chunks lift)
  | thread pat only body =>
    rw [lifted_thread]
    exact .thread only (.lifted pat lift) (body.thins_lifted lift)
  | reduce pat width op inputs =>
    rw [lifted_reduce]
    exact .reduce width inputs op (.lifted pat lift) (bindersMoved_lifted op.params lift) (op.body.thins_lifted lift)

end

section
variable {options : ExpandOptions} {s t : ExpandState} {stms : List Stm}

theorem Lambda.expand_thins {label : String} {threads : Operand} {op op' : Lambda}
    (made : op.expand options label threads s = .ok ((stms, op'), t)) : op.Thins op' := by
  obtain ⟨params, body, ret⟩ := op
  cases params with
  | nil =>
    obtain ⟨same, rfl⟩ := Pass.pure_eq_ok.mp made
    cases same
    exact .threadless rfl
  | cons thread params =>
    obtain ⟨⟨drawn, lift⟩, r, lifts, made⟩ := Pass.bind_eq_ok.mp made
    obtain ⟨same, rfl⟩ := Pass.pure_eq_ok.mp made
    cases same
    exact .thread ⟨thread :: params, body, ret⟩ (List.cons_ne_nil _ _) (bindersMoved_lifted _ lift) (body.thins_lifted lift)

theorem Kernel.expand_thins {k k' : Kernel} (made : k.expand options s = .ok ((stms, k'), t)) : k.Thins k' := by
  cases k with
  | map k =>
    obtain ⟨⟨drawn, lift⟩, r, lifts, made⟩ := Pass.bind_eq_ok.mp made
    obtain ⟨same, rfl⟩ := Pass.pure_eq_ok.mp made
    cases same
    refine .map k (List.forall₂_map_right_iff.mpr (List.forall₂_same.mpr fun i _ => ⟨.lifted i.param lift, rfl⟩)) ?_
    exact k.body.thins_lifted lift
  | chunked k =>
    obtain ⟨⟨drawn, op⟩, r, madeOp, made⟩ := Pass.bind_eq_ok.mp made
    obtain ⟨same, rfl⟩ := Pass.pure_eq_ok.mp made
    cases same
    exact .chunked k (Lambda.expand_thins madeOp)
  | scan k =>
    obtain ⟨⟨first, combine⟩, r, madeCombine, made⟩ := Pass.bind_eq_ok.mp made
    obtain ⟨⟨second, fold⟩, r', madeFold, made⟩ := Pass.bind_eq_ok.mp made
    obtain ⟨same, rfl⟩ := Pass.pure_eq_ok.mp made
    cases same
    exact .scan k (Lambda.expand_thins madeCombine) (Lambda.expand_thins madeFold)
  | group k =>
    obtain ⟨⟨drawn, lift⟩, r, lifts, made⟩ := Pass.bind_eq_ok.mp made
    obtain ⟨same, rfl⟩ := Pass.pure_eq_ok.mp made
    cases same
    exact .group k (List.forall₂_map_right_iff.mpr (List.forall₂_same.mpr fun stm _ => stm.thins_lifted lift))
  | scatter k | numGroups | groupSize =>
    obtain ⟨same, rfl⟩ := Pass.pure_eq_ok.mp made
    cases same
    constructor

end

/-! The whole program -/

/-- The step computes one total for each lifted allocation, and the kernel loses just these. -/
structure LaunchStep.Accounts (step : LaunchStep) : Prop where
  length : step.totals.length = step.kernel.spreads.length
  thins : step.kernel.Thins step.expanded

section
variable {options : ExpandOptions} {s t : ExpandState} {steps : List LaunchStep}

theorem Steps.accounts (h : Steps options s steps t) : ∀ step ∈ steps, step.Accounts := by
  induction h with
  | nil s => exact fun _ mem => nomatch mem
  | cons here codes _ ih =>
    intro step mem
    rcases List.mem_cons.mp mem with rfl | later
    · exact ⟨codes.drawn.length, Kernel.expand_thins here⟩
    · exact ih step later

theorem Steps.reported (h : Steps options s steps t) :
    t.diagnostics = s.diagnostics ++ steps.flatMap fun step => step.kernel.diagnostics := by
  induction h with
  | nil s => exact (List.append_nil _).symm
  | cons here codes _ ih =>
    rw [ih, codes.reported, List.append_assoc]
    rfl

/-- The totals are drawn one after another. -/
theorem Steps.drawn (h : Steps options s steps t) :
    (steps.flatMap LaunchStep.totals).map Name.tag = List.range' s.names.next (steps.flatMap LaunchStep.totals).length := by
  suffices all : Drawn (steps.flatMap fun step => step.kernel.spreads) (steps.flatMap LaunchStep.totals) s.names.next t.names.next from all.tags
  induction h with
  | nil s => exact ⟨rfl, rfl, rfl⟩
  | cons here codes _ ih => exact codes.drawn.append ih

end

theorem Program.expand_accounts {options : ExpandOptions} {names : NameSupply} {p : Program} {e : Expansion}
    (expanded : p.expand options names = .ok e) :
    ∃ steps, FunsStepTo steps p.funs e.program.funs ∧ (∀ step ∈ steps, step.Accounts) ∧
      (e.diagnostics = steps.flatMap fun step => step.kernel.diagnostics) ∧
      (steps.flatMap LaunchStep.totals).Nodup ∧ ∀ total ∈ steps.flatMap LaunchStep.totals, names.next ≤ total.tag := by
  obtain ⟨steps, funs, ran⟩ := Program.expand_steps expanded
  have tags := ran.drawn
  refine ⟨steps, funs, ran.accounts, ran.reported, ?_, fun total mem => ?_⟩
  · have distinct : ((steps.flatMap LaunchStep.totals).map Name.tag).Nodup := tags ▸ List.nodup_range'
    exact List.Pairwise.of_map Name.tag (fun _ _ differ same => differ (congrArg Name.tag same)) distinct
  · have tag := List.mem_map_of_mem (f := Name.tag) mem
    rw [tags] at tag
    exact (List.mem_range'_1.mp tag).1

/-- Each thread has two blocks. The size of the second is computed by the thread, and the second is placed
in the first. -/
def twoBlocks : Program :=
  let ys : Name := ⟨"ys", 0⟩
  let t : Name := ⟨"t", 1⟩
  let first : Name := ⟨"first", 3⟩
  let size : Name := ⟨"size", 4⟩
  let word (n : Int64) : Operand := .const (.i64 n)
  let body : Body :=
    ⟨[⟨.single first (.mem (word 16) .default), [], .alloc (word 16) .default⟩, .ofWord size (.binary .add (.var t) (word 8)),
      ⟨⟨[], [⟨⟨"second", 5⟩, .mem (.var size) .default, some ⟨first, .rowMajor [.const 2]⟩⟩]⟩, [], .alloc (.var size) .default⟩],
      [.var size]⟩
  let kernel : MapKernel := ⟨[], word 2, t, [(⟨"i", 2⟩, word 2)], [], [(.scalar .i64, [0])], body⟩
  ⟨[⟨"main", [], [.array .i64 [word 2] false],
    ⟨[⟨.single ys (.array .i64 [word 2] false), [], .launch (.map kernel)⟩], [.var ys]⟩⟩]⟩

theorem twoBlocks_expand_accounts :
    ∃ e, twoBlocks.expand {} ⟨6⟩ = .ok e ∧ e.diagnostics.length = 1 ∧ ∃ steps, FunsStepTo steps twoBlocks.funs e.program.funs ∧
      (∀ step ∈ steps, step.Accounts) ∧ (e.diagnostics = steps.flatMap fun step => step.kernel.diagnostics) ∧
      (steps.flatMap LaunchStep.totals).Nodup ∧ ∀ total ∈ steps.flatMap LaunchStep.totals, 6 ≤ total.tag := by
  obtain ⟨e, expanded, reported⟩ : ∃ e, twoBlocks.expand {} ⟨6⟩ = .ok e ∧ e.diagnostics.length = 1 := ⟨_, rfl, rfl⟩
  exact ⟨e, expanded, reported, Program.expand_accounts expanded⟩

/-- A scan that joins results by an operator without parameters, which allocates a block. -/
def threadlessScan : ScanKernel :=
  let x : Name := ⟨"x", 3⟩
  let word (n : Int64) : Operand := .const (.i64 n)
  let parameter (name : Name) : Binder := ⟨name, .scalar .i64, none⟩
  ⟨[], word 2, ⟨word 1, word 2, word 1, word 2, word 1, word 2⟩,
    ⟨[], ⟨[⟨.single ⟨"block", 5⟩ (.mem (word 16) .default), [], .alloc (word 16) .default⟩], [word 0]⟩, [.scalar .i64]⟩,
    ⟨[parameter ⟨"i", 1⟩, parameter ⟨"sum", 2⟩, parameter x], ⟨[], [.var x]⟩, [.scalar .i64]⟩, [word 0], [⟨"xs", 0⟩]⟩

def scansThreadless : Program :=
  let xs : Name := ⟨"xs", 0⟩
  let ys : Name := ⟨"ys", 4⟩
  let pair : Ty := .array .i64 [.const (.i64 2)] false
  ⟨[⟨"main", [⟨xs, pair, none⟩], [pair], ⟨[⟨.single ys pair, [], .launch (.scan threadlessScan)⟩], [.var ys]⟩⟩]⟩

/-- The block has a constant size, but it is neither lifted nor reported. -/
theorem scansThreadless_passes_over : ∃ e, scansThreadless.expand {} ⟨6⟩ = .ok e ∧ e.diagnostics = [] ∧
    e.program.launches = [.scan threadlessScan] ∧
    ∃ a ∈ threadlessScan.combine.body.allocSites, a.size = .const (.i64 16) :=
  ⟨_, rfl, rfl, rfl, _, .head _, rfl⟩

end ArrayKernels
