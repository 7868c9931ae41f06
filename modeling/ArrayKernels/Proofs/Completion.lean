import ArrayKernels.Proofs.GroupFollows

/-! A run that ends well gets past every statement that it comes to. -/
namespace ArrayKernels

/-- The evaluator gets past the statement. -/
def Stm.Succeeds (env : Env) (stm : Stm) : Prop := ∃ next, evalStms env [stm] = .ok next

theorem Stm.Succeeds.values {env : Env} {stm : Stm} (h : stm.Succeeds env) :
    ∃ vs next, stm.exp.eval env = .ok vs ∧ env.bindValues stm.pat vs = .ok next := by
  obtain ⟨pat, certs, e⟩ := stm
  obtain ⟨next, ran⟩ := h
  rw [evalStms] at ran
  obtain ⟨vs, value, ran⟩ := bind_eq_ok.mp ran
  obtain ⟨env', bound, _⟩ := bind_eq_ok.mp ran
  exact ⟨vs, env', value, bound⟩

section
variable {α β γ : Type}

/-- A fold that ends well has a state after each item. -/
theorem FoldReaches.step {f : γ → α → Eval γ} {start c last : γ} {xs : List α} {x : α} (h : FoldReaches f start xs x c)
    (ran : xs.foldlM f start = .ok last) : ∃ next, f c x = .ok next := by
  obtain ⟨before, after, rfl, done⟩ := h
  rw [List.foldlM_append, done, ok_bind] at ran
  obtain ⟨next, stepped, _⟩ := bind_eq_ok.mp ran
  exact ⟨next, stepped⟩

/-- An iteration that ends well has a state after each step. -/
theorem iterate_step {step : Nat → γ → Eval γ} {n i j : Nat} {s t last : γ} (ran : iterate step n i s = .ok last) (below : j < n)
    (done : iterate step j i s = .ok t) : ∃ next, step (i + j) t = .ok next := by
  induction j generalizing n i s with
  | zero =>
    cases done
    obtain ⟨n, rfl⟩ := Nat.exists_eq_succ_of_ne_zero (Nat.ne_of_gt below)
    obtain ⟨next, stepped, _⟩ := bind_eq_ok.mp ran
    exact ⟨next, stepped⟩
  | succ j ih =>
    obtain ⟨n, rfl⟩ := Nat.exists_eq_succ_of_ne_zero (Nat.ne_of_gt (Nat.lt_of_le_of_lt (Nat.zero_le _) below))
    obtain ⟨first, stepped, ran⟩ := bind_eq_ok.mp ran
    obtain ⟨_, stepped', done⟩ := bind_eq_ok.mp done
    cases stepped.symm.trans stepped'
    obtain ⟨next, later⟩ := ih ran (Nat.lt_of_succ_lt_succ below) done
    exact ⟨next, by rwa [Nat.add_assoc, Nat.add_comm 1 j] at later⟩

/-- A scan keeps the states of an iteration. -/
theorem iterate_of_scanFrom {step : Nat → γ → Eval γ} {n i : Nat} {s : γ} {states : List γ} (ran : scanFrom step n i s = .ok states) :
    ∃ last, iterate step n i s = .ok last := by
  obtain ⟨last, ran, _⟩ := bind_eq_ok.mp ran
  have same : Follows False (fun p c => p.1 = c)
      (iterate (fun i (p : γ × List γ) => do let next ← step i p.1; .ok (next, next :: p.2)) n i (s, [])) (iterate step n i s) := by
    refine @Follows.iterate _ _ _ _ _ (fun _ (p : γ × List γ) c => p.1 = c) _ _ _ _ rfl ?_
    rintro j p _ _ _ rfl
    refine ⟨fun q ran => ?_, False.elim⟩
    obtain ⟨next, stepped, made⟩ := bind_eq_ok.mp ran
    cases made
    exact ⟨next, stepped, rfl⟩
  obtain ⟨c, done, _⟩ := same.forth last ran
  exact ⟨c, done⟩

theorem exists_of_collect {f : Nat → Eval α} {n : Nat} {ys : List α} (ran : collect f n = .ok ys) {t : Nat} (mem : t ∈ List.range n) :
    ∃ y, f t = .ok y := by
  rw [collect_eq_mapM] at ran
  exact exists_of_mapM ran mem

end

theorem Lambda.body_of_eval {op : Lambda} {env thread : Env} {args vs : List Value} (ran : op.eval env args = .ok vs)
    (bound : env.bindParams op.params args = .ok thread) : op.body.eval thread = .ok vs := by
  obtain ⟨params, body, ret⟩ := op
  rw [Lambda.eval, bound] at ran
  exact ran

theorem evalGroupStms_append (groupSize : Nat) (before after : List GroupStm) (threads : List Env) :
    evalGroupStms groupSize (before ++ after) threads = (evalGroupStms groupSize before threads >>= evalGroupStms groupSize after) := by
  induction before generalizing threads with
  | nil => rfl
  | cons stm before ih =>
    rw [List.cons_append, evalGroupStms_cons, evalGroupStms_cons groupSize stm before, bind_assoc]
    exact bind_congr fun next => ih next

/-- A statement of a group kernel that has a value. -/
theorem GroupKernel.stm_of_eval {k : GroupKernel} {env : Env} {threads groupSize : Nat} {before after : List GroupStm} {stm : GroupStm}
    {now : List Env} {vs : List Value} (counted : env.size k.size.threads = .ok threads) (sized : env.size k.size.groupSize = .ok groupSize)
    (split : k.body.stms = before ++ stm :: after)
    (done : evalGroupStms (max groupSize 1) before ((List.range threads).map (threadEnv k.space (max groupSize 1) env)) = .ok now)
    (ran : (Exp.launch (.group k)).eval env = .ok vs) : ∃ next, evalGroupStms (max groupSize 1) [stm] now = .ok next := by
  obtain ⟨certs, size, space, returns, stms, result⟩ := k
  have ran : GroupKernel.run _ (fun groupSize threads => evalGroupStms groupSize stms threads) env = .ok vs := ran
  rw [run, counted, ok_bind, sized, ok_bind] at ran
  obtain ⟨final, ran, _⟩ := bind_eq_ok.mp ran
  have split : stms = before ++ stm :: after := split
  rw [split, evalGroupStms_append, done, ok_bind, evalGroupStms_cons] at ran
  obtain ⟨next, ran, _⟩ := bind_eq_ok.mp ran
  exact ⟨next, ran⟩

/-- A body inside an expression that has a value has one wherever it is entered. -/
theorem Enters.eval_ok {env thread : Env} {e : Exp} {inner : Body} {vs : List Value} (h : Enters env e inner thread)
    (ran : e.eval env = .ok vs) : ∃ ws, inner.eval thread = .ok ws := by
  cases h with
  | onTrue chosen =>
    rw [Exp.eval, chosen, ok_bind] at ran
    exact ⟨vs, ran⟩
  | onFalse chosen =>
    rw [Exp.eval, chosen, ok_bind] at ran
    exact ⟨vs, ran⟩
  | round started counted below done =>
    rw [Exp.eval, started, ok_bind, counted, ok_bind] at ran
    obtain ⟨next, stepped⟩ := iterate_step ran below done
    rw [Nat.zero_add] at stepped
    obtain ⟨ws, ran, _⟩ := bind_eq_ok.mp stepped
    exact ⟨ws, ran⟩
  | @map k _ fed =>
    obtain ⟨certs, width, index, space, inputs, returns, body⟩ := k
    obtain ⟨count, dims, t, sized, measured, reached, made⟩ := fed
    have ran : MapKernel.run _ (fun e => body.eval e) env = .ok vs := ran
    rw [MapKernel.run, sized, ok_bind, measured, ok_bind] at ran
    obtain ⟨results, collected, _⟩ := bind_eq_ok.mp ran
    obtain ⟨values, thread⟩ := exists_of_collect collected reached.mem
    rw [MapKernel.runThread, made, ok_bind] at thread
    obtain ⟨ws, value, _⟩ := bind_eq_ok.mp thread
    exact ⟨ws, value⟩
  | @scan k args _ fed bound =>
    obtain ⟨certs, width, size, combine, fold, neutral, arrays⟩ := k
    obtain ⟨count, inputs, start, i, accs, elems, sized, read, begun, below, done, taken, rfl⟩ := fed
    have ran : ScanKernel.run _ (fun args => fold.eval env args) env = .ok vs := ran
    rw [ScanKernel.run, sized, ok_bind, read, ok_bind, begun, ok_bind] at ran
    obtain ⟨states, scanned, _⟩ := bind_eq_ok.mp ran
    obtain ⟨last, iterated⟩ := iterate_of_scanFrom scanned
    obtain ⟨next, stepped⟩ := iterate_step iterated below done
    rw [Nat.zero_add, ScanKernel.step, taken, ok_bind] at stepped
    obtain ⟨ws, value, _⟩ := bind_eq_ok.mp stepped
    exact ⟨ws, Lambda.body_of_eval value bound⟩
  | @chunked k args _ fed bound =>
    obtain ⟨certs, width, size, division, op, arrays⟩ := k
    obtain ⟨count, threads, chunk, inputs, t, chunks, counted, sized, divided, read, reached, taken, rfl⟩ := fed
    have ran : ChunkedKernel.run _ (fun args => op.eval env args) env = .ok vs := ran
    rw [ChunkedKernel.run, counted, ok_bind, sized, ok_bind, divided, ok_bind, read, ok_bind] at ran
    obtain ⟨results, collected, _⟩ := bind_eq_ok.mp ran
    obtain ⟨result, thread⟩ := exists_of_collect collected reached.mem
    rw [ChunkedKernel.thread, taken, ok_bind] at thread
    obtain ⟨ws, value, _⟩ := bind_eq_ok.mp thread
    exact ⟨ws, Lambda.body_of_eval value bound⟩
  | @scatter k args _ fed bound =>
    obtain ⟨certs, width, op, arrays, dests⟩ := k
    obtain ⟨count, inputs, start, i, now, elems, sized, read, begun, below, done, taken, rfl⟩ := fed
    have ran : ScatterKernel.run _ (fun args => op.eval env args) env = .ok vs := ran
    rw [ScatterKernel.run, sized, ok_bind, read, ok_bind, begun, ok_bind] at ran
    obtain ⟨last, iterated, _⟩ := bind_eq_ok.mp ran
    obtain ⟨next, stepped⟩ := iterate_step iterated below done
    rw [Nat.zero_add, ScatterKernel.step, taken, ok_bind] at stepped
    obtain ⟨ws, value, _⟩ := bind_eq_ok.mp stepped
    exact ⟨ws, Lambda.body_of_eval value bound⟩
  | @groupThread k threads groupSize before after pat only body now _ counted sized split done fed =>
    obtain ⟨next, ran⟩ := GroupKernel.stm_of_eval counted sized split done ran
    obtain ⟨t, reached, active⟩ := fed
    obtain ⟨_, ran, _⟩ := bind_eq_ok.mp ran
    obtain ⟨bound, ran⟩ := exists_of_mapM ran reached.mem
    dsimp only at ran
    rw [GroupKernel.runThread_eq, active, ok_bind, if_pos rfl] at ran
    obtain ⟨ws, value, _⟩ := bind_eq_ok.mp ran
    exact ⟨ws, value⟩
  | @groupReduce k threads groupSize before after pat width op inputs now lane _ args counted sized split done fed bound =>
    obtain ⟨next, ran⟩ := GroupKernel.stm_of_eval counted sized split done ran
    obtain ⟨first, rest, n, start, l, accs, reached, extent, begun, come, given⟩ := fed
    obtain ⟨_, ran, _⟩ := bind_eq_ok.mp ran
    obtain ⟨reduced, ran, _⟩ := bind_eq_ok.mp ran
    obtain ⟨sum, ran⟩ := exists_of_mapM ran reached.mem
    rw [GroupKernel.reduceGroup, extent, ok_bind, begun, ok_bind] at ran
    obtain ⟨next, ran⟩ := come.step ran
    dsimp only at ran
    rw [given, ok_bind] at ran
    exact ⟨next, Lambda.body_of_eval ran bound⟩

/-- An evaluation that has a value gets past every statement. -/
theorem Throughout.succeeds {env : Env} {body : Body} {vs : List Value} (ran : body.eval env = .ok vs) : Throughout Stm.Succeeds env body := by
  intro now stm executed
  induction executed generalizing vs with
  | @here env now before after stm result done =>
    rw [Body.eval, evalStms_append, done, ok_bind] at ran
    obtain ⟨last, ran, _⟩ := bind_eq_ok.mp ran
    rw [← List.singleton_append, evalStms_append] at ran
    obtain ⟨next, ran, _⟩ := bind_eq_ok.mp ran
    exact ⟨next, ran⟩
  | inside executed entered rest ih ih' =>
    obtain ⟨values, _, value, _⟩ := (ih ran).values
    obtain ⟨ws, inner⟩ := entered.eval_ok value
    exact ih' inner

end ArrayKernels
