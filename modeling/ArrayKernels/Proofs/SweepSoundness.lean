import ArrayKernels.Proofs.GroupSoundness
import ArrayKernels.Proofs.ThreadInvariance

/-! A sweep keeps the values of a body. Statements take the place of statements that their names are known no better by, so
that what follows has the same values. -/
namespace ArrayKernels

section
variable {how : Leniency} {S : Scope} {s : Simplifier} {inner : BodySimplifier} {scope : SymbolTable} {p q : Progress} {hoisted : List Stm}
  {σ : Store}

theorem Follows.keeps {x y : Eval (List Value)} (h : Follows False (ValuesAlike .exact) x y) {vs : List Value} (ran : x = .ok vs) :
    y = .ok vs := by
  obtain ⟨vs', ran', alike⟩ := h.forth vs ran
  rw [ran', alike.eq_of_exact]

namespace Simplifier

theorem groupScope_known (known : scope.Known how σ) (size : LaunchSize) (space : ThreadNames) :
    (groupScope scope size space).Known how σ :=
  ((known.bindIndex _ _).bindIndex _ _).bindIndex _ _

theorem kernel_runs (h : inner.Sound how) {k k' : Kernel} (ran : s.kernel inner scope k p = .ok ((hoisted, k'), q))
    (within : scope.Within S) (fits : Fits S p.names.next k.bound) (inside : k.Scoped S) (known : scope.Known how σ)
    (holds : HoldsAll how σ hoisted) {vs : List Value} (runs : k.run (.lenient how) σ = .ok vs) : k'.run (.lenient how) σ = .ok vs := by
  cases k with
  | map k =>
    obtain ⟨⟨left, k'⟩, between, swept, ran⟩ := Pass.bind_eq_ok.mp ran
    obtain ⟨same, rfl⟩ := Pass.pure_eq_ok.mp ran
    cases same
    exact (sweepMap_follows h swept within fits inside known holds).keeps runs
  | scan k =>
    obtain ⟨⟨left, combine⟩, between, sweptCombine, ran⟩ := Pass.bind_eq_ok.mp ran
    obtain ⟨⟨more, fold⟩, last, sweptFold, ran⟩ := Pass.bind_eq_ok.mp ran
    obtain ⟨same, rfl⟩ := Pass.pure_eq_ok.mp ran
    cases same
    obtain ⟨_, insideCombine, insideFold⟩ := (Kernel.scoped_scan k).mp inside
    rw [Kernel.bound_scan] at fits
    have moves := (lambdaWith_moves h.scoping sweptCombine within fits.left insideCombine).2
    refine (scan_follows known fun alike => ?_).keeps runs
    exact lambdaWith_follows h sweptFold within (fits.right.later moves.grows) insideFold known (HoldsAll.append_iff.mp holds).2 alike
  | chunked k =>
    obtain ⟨⟨left, op⟩, between, swept, ran⟩ := Pass.bind_eq_ok.mp ran
    obtain ⟨same, rfl⟩ := Pass.pure_eq_ok.mp ran
    cases same
    have inside := ((Kernel.scoped_chunked k).mp inside).2
    rw [Kernel.bound_chunked] at fits
    have resolved : op.params = k.op.params.map scope.resolveBinder ∧ op.ret = k.op.ret.map scope.resolveTy := by
      obtain ⟨_, _, _, made⟩ := Pass.bind_eq_ok.mp swept
      obtain ⟨same, _⟩ := Pass.pure_eq_ok.mp made
      cases same
      exact ⟨rfl, rfl⟩
    refine (chunked_follows known within (k.op.bound_eq ▸ fits).left ?_ resolved.2 fun alike => ?_).keeps runs
    · rw [resolved.1]
      exact SymbolTable.names_map_resolveBinder _
    · exact lambdaWith_follows h swept within fits inside known holds alike
  | scatter k =>
    obtain ⟨⟨left, op⟩, between, swept, ran⟩ := Pass.bind_eq_ok.mp ran
    obtain ⟨same, rfl⟩ := Pass.pure_eq_ok.mp ran
    cases same
    have inside := ((Kernel.scoped_scatter k).mp inside).2
    refine (scatter_follows known fun alike => ?_).keeps runs
    exact lambdaWith_follows h swept within (Kernel.bound_scatter k ▸ fits) inside known holds alike
  | group k =>
    obtain ⟨⟨left, body⟩, between, swept, ran⟩ := Pass.bind_eq_ok.mp ran
    obtain ⟨same, rfl⟩ := Pass.pure_eq_ok.mp ran
    cases same
    obtain ⟨⟨left, stms, scope'⟩, between, sweptStms, swept⟩ := Pass.bind_eq_ok.mp swept
    obtain ⟨same, rfl⟩ := Pass.pure_eq_ok.mp swept
    cases same
    obtain ⟨operands, inside⟩ := (Kernel.scoped_group k).mp inside
    have listed (v : Name) (mem : v ∈ k.space.names) : v ∈ NameSet.ofList k.space.names := NameSet.mem_ofList.mpr mem
    have placed := (groupStmsScoped_iff.mp inside).1
    have tableWithin := groupScope_within within (scope.resolveSize k.size) k.space
    have first := groupStms_kernel_follows h (scope.resolveCerts k.certs) sweptStms within tableWithin fits placed listed known
      (groupScope_known known _ _) holds
    obtain ⟨named, owned, _, moves⟩ := groupStms_moves h.scoping sweptStms tableWithin (Kernel.bound_group k ▸ fits) placed listed
    -- what is left of the kernel is in scope behind what has left it
    have grown : Fits S between.names.next (stmNames hoisted ++ (k.space.names ++ boundInGroupStms stms)) := by
      refine fits.renew moves.grows fun v => ?_
      have count := moves.counts v
      have names := count_stmNames_le hoisted v
      have old := (boundInGroupStms_perm k.body.stms).count_eq v
      have new := (boundInGroupStms_perm stms).count_eq v
      rw [Kernel.bound_group]
      rw [owned] at new
      simp only [List.count_append] at old new ⊢
      omega
    simp only [InScope.union_iff] at operands
    have behind (v : Name) (visible : S v) : S.bind (stmNames hoisted) v := .inl visible
    exact (dropDead_follows ⟨scope.resolveCerts k.certs, scope.resolveSize k.size, k.space, k.returns.map scope.resolveTy,
      ⟨stms, k.body.result.map (resolveResult scope')⟩⟩ grown.enter ((within.size operands.1.2).mono behind)
      ((within.types operands.2).mono behind) (moves.after _ fun _ => id)).keeps (first.keeps runs)
  | numGroups => cases runs
  | groupSize => cases runs

end Simplifier

/-! Expressions -/

/-- For an expression with bodies it is enough that the values stay. -/
theorem Mode.settle_nested {e e' : Exp} (nested : e.isNested = true) {pat pat' : Pattern} (names : pat.SameNames pat') {r r' : Eval (List Value)}
    (values : ∀ vs, r = .ok vs → r' = .ok vs) {τ : Store} (settled : (Mode.lenient how).settle σ pat e r = .ok τ) :
    ∃ τ', (Mode.lenient how).settle σ pat' e' r' = .ok τ' ∧ ∀ v ∈ pat.names, (τ.cell v).Below (τ'.cell v) := by
  have simple : σ.fullProduct e = none ∧ σ.hollow pat e = false ∧ e.isSpeculable = false := by
    cases e <;> first | exact ⟨rfl, rfl, rfl⟩ | cases nested
  refine (Mode.settle_below names (fun movable => ?_) ⟨fun vs value => ⟨vs, values vs value, rfl⟩, False.elim⟩
    (fun _ _ => .inl simple.1) fun hollow => ?_).forth τ settled
  · rw [simple.2.2] at movable
    cases movable
  · rw [simple.2.1] at hollow
    cases hollow

/-- Environments with equal values for the names that are bound, and the same elsewhere. -/
theorem Entered.get?_eq {env inner inner' : Env} {names : List Name} (h : Entered .exact names env env inner inner') (v : Name) :
    inner.get? v = inner'.get? v := by
  by_cases bound : v ∈ names
  · obtain ⟨x, y, left, right, alike⟩ := h.given v bound
    rw [left, right, alike.eq]
  · rw [(h.kept v bound).1, (h.kept v bound).2]

namespace Simplifier

theorem exp_renamed {e e' : Exp} (leaf : e.isNested = false) (ran : s.exp inner scope e p = .ok ((hoisted, e'), q)) :
    e.Renamed scope.Resolves e' := by
  have names (xs : List Operand) : List.Forall₂ scope.Resolves xs (scope.resolveOperands xs) := by
    rw [SymbolTable.resolveOperands, List.forall₂_map_right_iff]
    exact List.forall₂_same.mpr fun x _ => .operand x
  cases e with
  | branch | loop | launch => cases leaf
  | operand | binary | compare | index | update | iota | replicate | reshape | rearrange | copy | alloc =>
    obtain ⟨same, rfl⟩ := Pass.pure_eq_ok.mp ran
    cases same
    constructor <;> first | exact names _ | exact .operand _ | exact .name _

theorem branch_runs (h : inner.Sound how) {cond : Operand} {onTrue onFalse : Body} {ret : List Ty} {e' : Exp}
    (ran : s.exp inner scope (.branch cond onTrue onFalse ret) p = .ok ((hoisted, e'), q)) (within : scope.Within S)
    (fits : Fits S p.names.next (Exp.branch cond onTrue onFalse ret).bound) (inside : (Exp.branch cond onTrue onFalse ret).Scoped S)
    (known : scope.Known how σ) (holds : HoldsAll how σ hoisted) {vs : List Value}
    (runs : (Exp.branch cond onTrue onFalse ret).run (.lenient how) σ = .ok vs) : e'.run (.lenient how) σ = .ok vs := by
  obtain ⟨⟨left, onTrue'⟩, between, sweptTrue, ran⟩ := Pass.bind_eq_ok.mp ran
  obtain ⟨⟨more, onFalse'⟩, last, sweptFalse, ran⟩ := Pass.bind_eq_ok.mp ran
  obtain ⟨same, rfl⟩ := Pass.pure_eq_ok.mp ran
  cases same
  obtain ⟨_, insideTrue, insideFalse⟩ := inside
  obtain ⟨holdsTrue, holdsFalse⟩ := HoldsAll.append_iff.mp holds
  have grows := (h.scoping.moves sweptTrue within fits.left insideTrue).grows
  rw [Exp.run] at runs ⊢
  obtain ⟨c, chosen, runs⟩ := bind_eq_ok.mp runs
  obtain ⟨_, chosen', rfl⟩ := (Env.scalar_follows (known.operand cond)).forth c chosen
  rw [chosen', ok_bind]
  match c with
  | .bool true => exact h.run sweptTrue within fits.left insideTrue known holdsTrue runs
  | .bool false => exact h.run sweptFalse within (fits.right.later grows) insideFalse known holdsFalse runs
  | .i32 _ | .i64 _ | .f32 _ | .f64 _ => cases runs

theorem loop_runs (h : inner.Sound how) {context values : List (Binder × Operand)} {index : Name} {bound : Operand} {body : Body} {e' : Exp}
    (ran : s.exp inner scope (.loop context values index bound body) p = .ok ((hoisted, e'), q)) (within : scope.Within S)
    (fits : Fits S p.names.next (Exp.loop context values index bound body).bound) (inside : (Exp.loop context values index bound body).Scoped S)
    (known : scope.Known how σ) (holds : HoldsAll how σ hoisted) {vs : List Value}
    (runs : (Exp.loop context values index bound body).run (.lenient how) σ = .ok vs) : e'.run (.lenient how) σ = .ok vs := by
  obtain ⟨⟨left, body'⟩, between, swept, ran⟩ := Pass.bind_eq_ok.mp ran
  obtain ⟨same, rfl⟩ := Pass.pure_eq_ok.mp ran
  cases same
  have merged : resolveMerge scope context ++ resolveMerge scope values = resolveMerge scope (context ++ values) := List.map_append.symm
  have names : (resolveMerge scope (context ++ values)).map (fun m => m.1.name) = (context ++ values).map fun m => m.1.name :=
    names_resolveMerge _
  rw [merged] at swept
  refine Follows.keeps ?_ runs
  rw [Exp.run, Exp.run, merged, names]
  refine Follows.bind (?_ : Follows False (ValuesAlike .exact) _ _) fun init init' started _ alike => ?_
  · rw [resolveMerge]
    exact .mapM (List.forall₂_map_right_iff.mpr (List.forall₂_same.mpr fun m _ => known.operand m.2))
  refine (Env.word_follows (known.operand bound)).bind fun n _ _ _ same => ?_
  subst same
  have complete : init.length = ((context ++ values).map (·.1.name)).length := by
    rw [List.length_map]
    exact (mapM_eq_ok.mp started).length_eq.symm
  refine loop_follows alike complete fun i now now' _ _ _ entered => ⟨fun vs runs => ⟨vs, ?_, ValuesAlike.rfl_exact vs⟩, False.elim⟩
  refine h.under swept ((within.bindParams _).bindIndex _ _) fits inside.2.2 (fun stm passes => ?_) fits
    ((known.bindParams _).bindIndex _ _) holds (Store.sameBut_inside fun v other => (entered.kept v other).2) ?_
  · have silent := Blocker.mentioning_open passes
    rw [List.map_map] at silent
    exact names ▸ silent
  · refine Body.run_mono fits.right.distinct (fun v _ => ?_) runs
    simp only [Store.cell, Store.inside, entered.get?_eq v]
    exact .refl _

/-- An expression with resolved operands and swept bodies leaves the names of its statement known at least as well. -/
theorem exp_settles (h : inner.Sound how) {e e' : Exp} (ran : s.exp inner scope e p = .ok ((hoisted, e'), q))
    (within : scope.Within S) (fits : Fits S p.names.next e.bound) (inside : e.Scoped S) (known : scope.Known how σ)
    (holds : HoldsAll how σ hoisted) {pat pat' : Pattern} (names : pat.SameNames pat') {τ : Store}
    (settled : (Mode.lenient how).settle σ pat e (e.run (.lenient how) σ) = .ok τ) :
    ∃ τ', (Mode.lenient how).settle σ pat' e' (e'.run (.lenient how) σ) = .ok τ' ∧ ∀ v ∈ pat.names, (τ.cell v).Below (τ'.cell v) := by
  cases nested : e.isNested with
  | false =>
    have renamed := exp_renamed nested ran
    rw [Exp.run_leaf nested] at settled
    rw [Exp.run_leaf renamed.isNested_eq.2]
    exact ((renamed.imp fun x x' resolved => known.below resolved).settle_below names).forth τ settled
  | true =>
    refine Mode.settle_nested nested names (fun vs runs => ?_) settled
    cases e with
    | operand | binary | compare | index | update | iota | replicate | reshape | rearrange | copy | alloc => cases nested
    | branch => exact branch_runs h ran within fits inside known holds runs
    | loop => exact loop_runs h ran within fits inside known holds runs
    | launch k =>
      obtain ⟨⟨left, k'⟩, between, swept, ran⟩ := Pass.bind_eq_ok.mp ran
      obtain ⟨same, rfl⟩ := Pass.pure_eq_ok.mp ran
      cases same
      exact kernel_runs h swept within fits inside known holds runs

/-! Statements and bodies -/

/-- What leaves the bodies of an expression may be run early. -/
theorem exp_movable (h : inner.Scoping) (guards : s.parallel.Guards how) {e e' : Exp} (ran : s.exp inner scope e p = .ok ((hoisted, e'), q)) :
    ∀ stm ∈ hoisted, stm.Movable how := by
  cases e with
  | branch cond onTrue onFalse ret =>
    obtain ⟨⟨left, onTrue'⟩, between, sweptTrue, ran⟩ := Pass.bind_eq_ok.mp ran
    obtain ⟨⟨more, onFalse'⟩, last, sweptFalse, ran⟩ := Pass.bind_eq_ok.mp ran
    obtain ⟨same, rfl⟩ := Pass.pure_eq_ok.mp ran
    cases same
    intro stm mem
    rcases List.mem_append.mp mem with first | later
    · exact guards.or _ stm _ (h.passes sweptTrue stm first)
    · exact guards.or _ stm _ (h.passes sweptFalse stm later)
  | loop context values index bound body =>
    obtain ⟨⟨left, body'⟩, between, swept, ran⟩ := Pass.bind_eq_ok.mp ran
    obtain ⟨same, rfl⟩ := Pass.pure_eq_ok.mp ran
    cases same
    exact fun stm mem => guards.or _ stm _ (h.passes swept stm mem)
  | launch k =>
    obtain ⟨⟨left, k'⟩, between, swept, ran⟩ := Pass.bind_eq_ok.mp ran
    obtain ⟨same, rfl⟩ := Pass.pure_eq_ok.mp ran
    cases same
    exact fun stm mem => guards stm _ (kernel_releases h swept stm mem).2
  | operand | binary | compare | index | update | iota | replicate | reshape | rearrange | copy | alloc =>
    obtain ⟨same, rfl⟩ := Pass.pure_eq_ok.mp ran
    cases same
    exact fun _ mem => absurd mem List.not_mem_nil

/-- A swept statement, behind what has left its bodies, takes the place of the old one. -/
theorem stm_replaces (h : inner.Sound how) (guards : s.parallel.Guards how) {stm stm' : Stm}
    (ran : s.stm inner scope stm p = .ok ((hoisted, stm'), q)) (within : scope.Within S) (fits : Fits S p.names.next stm.bound)
    (inside : stm.Scoped S) (known : scope.Known how σ) : Replaces how σ stm (hoisted ++ [stm']) fun _ => True := by
  obtain ⟨pat, certs, e⟩ := stm
  obtain ⟨⟨left, e'⟩, between, swept, ran⟩ := Pass.bind_eq_ok.mp ran
  obtain ⟨same, rfl⟩ := Pass.pure_eq_ok.mp ran
  cases same
  have moves := exp_moves h.scoping swept within fits.right inside.2.2
  have left := (moves.fits fits.right).left
  have apart (v : Name) (own : v ∈ stmNames hoisted) : ¬S v := left.apart v (mem_boundInStms_of_stmNames own)
  intro τ ran
  obtain ⟨υ, early⟩ := runStms_movable (exp_movable h.scoping guards swept) σ
  have same := runStms_sameBut early
  -- behind what has left it the statement has the same values, and so has what is left of it
  obtain ⟨τ₁, ran, first⟩ := Stm.run_of_sameBut ran same inside fits.right.distinct apart
  have known := known.frame within fun v visible => .of_eq (same v fun own => apart v own visible).symm
  obtain ⟨τ₂, settled, second⟩ := exp_settles h swept within fits.right inside.2.2 known (runStms_holds early moves.before left)
    (scope.sameNames_resolvePattern pat) ran
  refine ⟨τ₂, ?_, fun v own _ => (first v own).trans (second v own)⟩
  rw [runStms_append, early, ok_bind, runStms_cons, Stm.run, settled]
  rfl

/-- A step of the work on a queue keeps the values of the body. -/
theorem level_sound_kept (h : inner.Sound how) (scoping : s.rules.Scoping) (rules : s.rules.Sound how) (guards : s.parallel.Guards how)
    (blocker : Blocker) {n : Nat} {bound : List Name} {body : Body} (fits : Fits S n bound) :
    Kept (fun queue level p => level.Scoping S n bound (freeOperands body.result) queue p.names.next ∧ level.Sound how scope body queue)
      (fun level stm => s.fireDown level.scope stm) (s.settle inner blocker) where
  replaced := by
    intro stm queue level new p q holds fired
    unfold fireDown at fired
    split at fired
    · rename_i found
      cases fired
      have moves := scoping.down found holds.1.table (holds.1.first_fits fits) holds.1.first
      exact ⟨holds.1.replace moves, holds.2.replace holds.1 fits moves fun known =>
        rules.down found holds.1.table (holds.1.first_fits fits) holds.1.first known⟩
    · cases fired
  passed := by
    intro stm queue level p q holds fired
    unfold fireDown at fired
    split at fired
    · cases fired
    · cases fired
      exact holds
  settled := by
    intro stm queue level next p q holds ran
    obtain ⟨⟨left, stm'⟩, between, swept, ran⟩ := Pass.bind_eq_ok.mp ran
    obtain ⟨rfl, rfl⟩ := Pass.pure_eq_ok.mp ran
    have moves := stm_moves h.scoping swept holds.1.table (holds.1.first_fits fits) holds.1.first
    have replaced := holds.2.replace holds.1 fits moves fun known =>
      stm_replaces h guards swept holds.1.table (holds.1.first_fits fits) holds.1.first known
    exact ⟨(holds.1.replace moves).addAll fits blocker, replaced.addAll (holds.1.replace moves) fits blocker⟩

/-- A sweep over a body keeps its values, if the sweeps over its nested bodies and the rules do. -/
theorem sweepBody_sound (h : inner.Sound how) (scoping : s.rules.Scoping) (rules : s.rules.Sound how) (guards : s.parallel.Guards how) :
    (s.sweepBody inner).Sound how where
  scoping := sweepBody_scoping h.scoping scoping
  run := by
    intro scope blocker body p hoisted body' q S ran within fits inside σ vs known holds runs
    obtain ⟨level, between, drained, ran⟩ := Pass.bind_eq_ok.mp ran
    obtain ⟨⟨usage, stms⟩, last, swept, ran⟩ := Pass.bind_eq_ok.mp ran
    obtain ⟨same, rfl⟩ := Pass.pure_eq_ok.mp ran
    cases same
    have start : (Level.start scope body).Sound how scope body body.stms := by
      obtain ⟨stms, result⟩ := body
      exact fun σ vs known _ runs => ⟨σ, rfl, known, runs⟩
    obtain ⟨done, sound⟩ := (level_sound_kept h scoping rules guards blocker fits).drain ⟨.start within inside, start⟩ drained
    obtain ⟨_, apart, placed⟩ := done.finish fits
    obtain ⟨τ, kept, known, runs⟩ := sound σ vs known holds runs
    refine sweepUp_runs scoping rules swept apart placed ?_
    rw [Body.run_eq, kept, ok_bind]
    exact (Env.operands_follow (known.operands body.result)).keeps runs

/-- A sweep to any depth keeps values. -/
theorem bodyTo_sound (scoping : s.rules.Scoping) (rules : s.rules.Sound how) (guards : s.parallel.Guards how) (depth : Nat) :
    (s.bodyTo depth).Sound how := by
  induction depth with
  | zero =>
    refine ⟨bodyTo_scoping scoping 0, fun ran _ _ _ _ _ _ _ runs => ?_⟩
    obtain ⟨same, rfl⟩ := Pass.pure_eq_ok.mp ran
    cases same
    exact runs
  | succ depth ih => exact sweepBody_sound ih scoping rules guards

end Simplifier

end

end ArrayKernels
