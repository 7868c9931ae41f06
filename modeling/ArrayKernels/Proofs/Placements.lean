import ArrayKernels.Expand.Program
import ArrayKernels.Proofs.GroupFollows

/-! The evaluator does not look at memory placements, so that rebased code has the same meaning. -/
namespace ArrayKernels

variable (l : Lift)

theorem names_rebased (bs : List Binder) : (bs.map (·.rebased l)).map Binder.name = bs.map Binder.name := by
  rw [List.map_map]
  rfl

theorem Pattern.names_rebased (pat : Pattern) : (pat.rebased l).names = pat.names := by
  simp only [Pattern.rebased, Pattern.names, Pattern.binders, List.map_append, ArrayKernels.names_rebased]

theorem Env.bindValues_rebased (env : Env) (pat : Pattern) (values : List Value) :
    env.bindValues (pat.rebased l) values = env.bindValues pat values := by
  have some : (pat.rebased l).valueNames = pat.valueNames := names_rebased l pat.values
  have length : (pat.rebased l).binders.length = pat.binders.length := by
    simp [Pattern.rebased, Pattern.binders]
  have lengthSome : (pat.rebased l).values.length = pat.values.length := List.length_map _
  rw [bindValues, bindValues, pat.names_rebased, some, length, lengthSome]

theorem Env.bindParams_rebased (env : Env) (params : List Binder) (args : List Value) :
    env.bindParams (params.map (·.rebased l)) args = env.bindParams params args := by
  rw [bindParams, bindParams, names_rebased, List.length_map]

mutual

theorem Exp.eval_rebased : ∀ (e : Exp) (env : Env), (e.rebased l).eval env = e.eval env
  | .operand _, _ | .binary .., _ | .compare .., _ | .index .., _ | .update .., _ | .iota .., _ | .replicate .., _
  | .reshape .., _ | .rearrange .., _ | .copy _, _ | .alloc .., _ | .launch _, _ => rfl
  | .branch cond onTrue onFalse ret, env => by
    rw [Exp.rebased, Exp.eval, Exp.eval, onTrue.eval_rebased env, onFalse.eval_rebased env]
  | .loop context values index bound body, env => by
    have run : (fun e => (body.rebased l).eval e) = fun e => body.eval e := funext body.eval_rebased
    have names : (((context.map fun m => (m.1.rebased l, m.2)) ++ values.map fun m => (m.1.rebased l, m.2)).map
        (·.1.name)) = (context ++ values).map (·.1.name) := by
      rw [← List.map_append, List.map_map]
      rfl
    rw [Exp.rebased, Exp.eval, Exp.eval, run, names, ← List.map_append]
    simp only [List.mapM_map, Function.comp_def]

theorem evalStms_rebased : ∀ (stms : List Stm) (env : Env), evalStms env (stmsRebased l stms) = evalStms env stms
  | [], _ => rfl
  | ⟨pat, certs, exp⟩ :: stms, env => by
    rw [stmsRebased, evalStms, evalStms, exp.eval_rebased env]
    simp only [Env.bindValues_rebased, evalStms_rebased stms]

theorem Body.eval_rebased : ∀ (body : Body) (env : Env), (body.rebased l).eval env = body.eval env
  | ⟨stms, result⟩, env => by rw [Body.rebased, Body.eval, Body.eval, evalStms_rebased stms env]

end

theorem Body.eval_lifted (inside : List Name) (lift : Option Lift) (body : Body) (env : Env) :
    (body.lifted inside lift).eval env = (body.withoutLifted inside).eval env := by
  cases lift with
  | none => rfl
  | some l => exact (body.withoutLifted inside).eval_rebased l env

theorem names_lifted (lift : Option Lift) (bs : List Binder) :
    (bs.map (·.lifted lift)).map Binder.name = bs.map Binder.name := by
  cases lift with
  | none => simp [Binder.lifted]
  | some l => exact names_rebased l bs

theorem MapKernel.bindInputs_lifted (lift : Option Lift) (env : Env) (inputs : List MapInput) :
    bindInputs env (inputs.map fun i => { i with param := i.param.lifted lift }) = bindInputs env inputs := by
  have names (b : Binder) : (b.lifted lift).name = b.name := by cases lift <;> rfl
  simp only [bindInputs, List.foldlM_map, names]

theorem GroupKernel.split_rebased (size : Binder) (chunks : List Binder) (division : Division) (width perThread : Operand)
    (arrays : List Name) (threads : Nat) (env : Env) (t : Nat) :
    split (size.rebased l) (chunks.map (·.rebased l)) division width perThread arrays threads env t =
      split size chunks division width perThread arrays threads env t := by
  rw [split, split, List.zip_map_left]
  simp only [List.mapM_map, Function.comp_def]
  rfl

theorem GroupKernel.runThread_rebased (pat : Pattern) (only : Option Operand) (run : Env → Eval (List Value))
    (groupSize : Nat) (env : Env) (t : Nat) :
    runThread (pat.rebased l) only run groupSize env t = runThread pat only run groupSize env t := by
  have blanks : ((pat.rebased l).values.mapM fun b => env.blank b.ty) = pat.values.mapM fun b => env.blank b.ty := by
    rw [Pattern.rebased, List.mapM_map]
    rfl
  rw [runThread_eq, runThread_eq, blanks]
  simp only [Env.bindValues_rebased]

theorem GroupStm.eval_rebased (groupSize : Nat) (stm : GroupStm) (threads : List Env) :
    evalGroupStms groupSize [stm.rebased l] threads = evalGroupStms groupSize [stm] threads := by
  cases stm with
  | split size chunks division width perThread arrays =>
    rw [GroupStm.rebased, evalGroupStms, evalGroupStms]
    simp only [GroupKernel.split_rebased]
  | thread pat only body =>
    rw [GroupStm.rebased, evalGroupStms, evalGroupStms]
    simp only [GroupKernel.runThread_rebased, Body.eval_rebased]
  | reduce pat width op inputs =>
    obtain ⟨params, body, ret⟩ := op
    rw [GroupStm.rebased, evalGroupStms, evalGroupStms]
    simp only [GroupKernel.reduce, Env.bindValues_rebased, Lambda.rebased, Lambda.eval, Env.bindParams_rebased,
      Body.eval_rebased]

end ArrayKernels
