import ArrayKernels.Proofs.Lifting
import ArrayKernels.Proofs.Placements

/-! Kernels without their lifted allocations. The lifted blocks are bound where the kernel is launched. -/
namespace ArrayKernels

variable {inside : List Name}

theorem Lambda.withoutLifted_follows {op : Lambda} {reads : NameSet} {env env' : Env} {args args' : List Value}
    (nodup : op.bound.Nodup) (mine : ∀ v ∈ op.bound, v ∈ inside) (fewer : ∀ v ∈ op.reads, v ∈ reads)
    (agrees : LiftAgrees inside reads op.bound op.body.allocSites env env') (alike : ValuesAlike .blurred args args') :
    Follows True (ValuesAlike .blurred) (op.eval env args)
      (Lambda.eval env' { op with body := op.body.withoutLifted inside } args') := by
  obtain ⟨params, body, ret⟩ := op
  rw [Lambda.bound, List.nodup_append] at nodup
  rw [Lambda.eval, Lambda.eval]
  have inner : LiftAgrees inside reads body.bound body.allocSites env env' :=
    agrees.part (fun v mem => mem) (fun v => List.mem_append_right _) (fun a mem => mem) fun a mem _ => mem
  refine (bindParams_follows alike).bind fun e e' _ _ entered => ?_
  refine body.withoutLifted_follows nodup.2.1 (fun v mem => mine v (List.mem_append_right _ mem))
    (inner.enter (fun a => body.bound_of_allocSites) (fun v mem => mine v (List.mem_append_left _ mem))
      (fun v mem param => nodup.2.2 v param v mem rfl) entered fun v mem other => fewer v ?_)
  exact NameSet.mem_without.mpr ⟨mem, other⟩

theorem GroupStm.innerBound_of_allocSites {stm : GroupStm} {a : AllocSite} (site : a ∈ stm.allocSites) :
    a.block.name ∈ stm.innerBound := by
  cases stm with
  | split size chunks division width perThread arrays => cases site
  | thread pat only body => exact body.bound_of_allocSites site
  | reduce pat width op inputs =>
    obtain ⟨params, body, ret⟩ := op
    exact List.mem_append_right _ (body.bound_of_allocSites site)

/-- A statement of a group kernel has its part of the lifted blocks to itself. -/
theorem GroupStm.allocSites_of_innerBound {stms : List GroupStm} (nodup : (stms.flatMap GroupStm.innerBound).Nodup)
    {stm : GroupStm} (mem : stm ∈ stms) {a : AllocSite} (site : a ∈ stms.flatMap GroupStm.allocSites)
    (bound : a.block.name ∈ stm.innerBound) : a ∈ stm.allocSites := by
  induction stms with
  | nil => cases mem
  | cons first stms ih =>
    rw [List.flatMap_cons, List.nodup_append] at nodup
    obtain ⟨_, rest, apart⟩ := nodup
    rw [List.flatMap_cons, List.mem_append] at site
    obtain rfl | later := List.mem_cons.mp mem
    · refine site.resolve_right fun elsewhere => ?_
      obtain ⟨other, among, site⟩ := List.mem_flatMap.mp elsewhere
      exact apart _ bound _ (List.mem_flatMap.mpr ⟨other, among, GroupStm.innerBound_of_allocSites site⟩) rfl
    · refine ih rest later (site.resolve_left fun here => ?_)
      exact apart _ (GroupStm.innerBound_of_allocSites here) _ (List.mem_flatMap.mpr ⟨stm, later, bound⟩) rfl

section
variable {vs : NameSet} {inner : List Name} {sites : List AllocSite}

theorem LiftAgrees.bindAll {e e' : Env} (h : LiftAgrees inside vs inner sites e e')
    (site : ∀ a ∈ sites, a.block.name ∈ inner) {bs bs' : List (Name × Value)}
    (own : ∀ v ∈ bs.map Prod.fst, v ∈ inside ∧ v ∉ inner)
    (alike : List.Forall₂ (fun b b' => b.1 = b'.1 ∧ b.2.Alike .blurred b'.2) bs bs') :
    LiftAgrees inside vs inner sites (e.bindAll bs) (e'.bindAll bs') :=
  h.enter site (fun v mem => (own v mem).1) (fun _ mem bound => (own _ bound).2 mem) ((Entered.refl e e').bindAll alike)
    fun _ mem _ => mem

/-- A statement of a group kernel, in all threads. -/
theorem GroupStm.withoutLifted_follows {stm : GroupStm} {groupSize : Nat} {threads threads' : List Env}
    (nodup : stm.innerBound.Nodup) (reads : ∀ v ∈ stm.reads, v ∈ vs)
    (named : ∀ v ∈ stm.names, v ∈ vs ∧ v ∈ inside ∧ v ∉ inner) (mine : ∀ v ∈ inner, v ∈ inside)
    (bound : ∀ v ∈ stm.innerBound, v ∈ inner) (less : ∀ a ∈ stm.allocSites, a ∈ sites)
    (site : ∀ a ∈ sites, a.block.name ∈ inner) (own : ∀ a ∈ sites, a.block.name ∈ stm.innerBound → a ∈ stm.allocSites)
    (related : List.Forall₂ (LiftAgrees inside vs inner sites) threads threads') :
    Follows True (List.Forall₂ (LiftAgrees inside vs inner sites)) (evalGroupStms groupSize [stm] threads)
      (evalGroupStms groupSize [stm.withoutLifted inside] threads') := by
  have bindValues {pat : Pattern} (binds : ∀ v ∈ pat.names, v ∈ vs ∧ v ∈ inside ∧ v ∉ inner) (e e' : Env)
      (values values' : List Value) (h : LiftAgrees inside vs inner sites e e')
      (alike : ValuesAlike .blurred values values') :
      Follows True (LiftAgrees inside vs inner sites) (e.bindValues pat values) (e'.bindValues pat values') := by
    refine (h.part (fun v mem => (NameSet.mem_without.mp mem).1) (fun _ mem => mem) (fun _ mem => mem)
      fun _ mem _ => mem).bindValues site (fun v mem => (binds v mem).2.1) (fun v mem bound => (binds v bound).2.2 mem)
      (fun v mem => h.agree v (binds v mem).1) alike
  cases stm with
  | split size chunks division width perThread arrays =>
    have same : (GroupStm.split size chunks division width perThread arrays).withoutLifted inside =
      .split size chunks division width perThread arrays := rfl
    rw [same, evalGroupStms, evalGroupStms]
    refine Follows.bind (?_ : Follows True (List.Forall₂ (LiftAgrees inside vs inner sites)) _ _)
      fun next next' _ _ related => .ok related
    refine .mapM ((forall₂_zipIdx related 0).imp fun et et' h => ?_)
    rw [h.2, related.length_eq]
    have agree := h.1.agree.mono reads
    refine GroupKernel.split_follows et'.2 (Env.size_follows (agree.operand fun v mem => ?_))
      (Env.size_follows (agree.operand fun v mem => ?_)) rfl rfl (agree.lookups fun v mem => ?_)
      fun bs bs' part alike => h.1.bindAll site (fun v mem => (named v (part v mem)).2) alike
    · simp [GroupStm.reads, mem]
    · simp [GroupStm.reads, mem]
    · simp [GroupStm.reads, mem]
  | thread pat only body =>
    rw [GroupStm.withoutLifted, evalGroupStms, evalGroupStms]
    refine Follows.bind (?_ : Follows True (List.Forall₂ (LiftAgrees inside vs inner sites)) _ _)
      fun next next' _ _ related => .ok related
    refine GroupKernel.thread_follows related (fun e e' t h => ?_) (fun e e' _ _ h => ?_) (fun e e' t h _ => ?_)
      (bindValues named)
    · cases only with
      | none => exact .ok rfl
      | some lane =>
        refine GroupKernel.active_follows groupSize t (Env.size_follows ((h.agree.mono reads).operand fun v mem => ?_))
        simp [GroupStm.reads, freeOperands, mem]
    · exact body.withoutLifted_follows nodup (fun v mem => mine v (bound v mem))
        (h.part (fun v mem => reads v (by simp [GroupStm.reads, mem])) bound less own)
    · refine .mapM (List.forall₂_same.mpr fun b mem => Env.blank_follows ((h.agree.mono reads).type fun v free => ?_))
      simp only [GroupStm.reads, NameSet.mem_union, NameSet.mem_gather]
      exact .inl (.inr ⟨b, mem, free⟩)
  | reduce pat width op inputs =>
    rw [GroupStm.withoutLifted, evalGroupStms, evalGroupStms]
    refine Follows.bind (?_ : Follows True (List.Forall₂ (LiftAgrees inside vs inner sites)) _ _)
      fun next next' _ _ related => .ok related
    refine GroupKernel.reduce_follows related (fun e e' h => ?_) (fun e e' h => ?_) (fun e e' args args' _ _ h alike => ?_)
      (bindValues named)
    · exact Env.size_follows ((h.agree.mono reads).operand fun v mem => by simp [GroupStm.reads, mem])
    · refine List.forall₂_same.mpr fun i mem => ⟨(h.agree.mono reads).operand fun v free => ?_, (h.agree.mono reads).lookup ?_⟩
      · simp only [GroupStm.reads, NameSet.mem_union, NameSet.mem_gather]
        exact .inl (.inr ⟨i, mem, .inl free⟩)
      · simp only [GroupStm.reads, NameSet.mem_union, NameSet.mem_gather]
        exact .inl (.inr ⟨i, mem, .inr (NameSet.mem_singleton.mpr rfl)⟩)
    · exact Lambda.withoutLifted_follows nodup (fun v mem => mine v (bound v mem))
        (fun v mem => reads v (by simp [GroupStm.reads, mem])) (h.part (fun v mem => mem) bound less own) alike

end

/-- The names that are bound in an operator. -/
def Lambda.innerNames (op : Lambda) : List Name := op.body.bound ++ op.params.map Binder.name

/-- The allocations of an operator. Without parameters it has no thread, and stays as it is. -/
def Lambda.allocSites (op : Lambda) : List AllocSite :=
  match op.params with
  | [] => []
  | _ :: _ => op.body.allocSites

theorem Lambda.bound_of_allocSites {op : Lambda} {a : AllocSite} (site : a ∈ op.allocSites) : a.block.name ∈ op.body.bound := by
  rw [allocSites] at site
  split at site
  · cases site
  · exact op.body.bound_of_allocSites site

/-- What expansion makes of an operator. -/
inductive Lambda.Lifted (op : Lambda) : Lambda → Prop where
  | same (threadless : op.params = []) : op.Lifted op
  | lifted (threaded : op.allocSites = op.body.allocSites) (lift : Option Lift) :
      op.Lifted { op with params := op.params.map (·.lifted lift), body := op.body.lifted op.innerNames lift }

theorem Lambda.Lifted.ret_eq {op op' : Lambda} (h : op.Lifted op') : op'.ret = op.ret := by
  cases h <;> rfl

theorem Lambda.Lifted.follows {op op' : Lambda} {reads : NameSet} {env env' : Env} {args args' : List Value} {x : Value}
    (h : op.Lifted op') (nodup : op.bound.Nodup) (fewer : ∀ v ∈ op.reads, v ∈ reads)
    (agrees : LiftAgrees op.innerNames reads op.bound op.allocSites env env')
    (alike : ValuesAlike .blurred (x :: args) args') :
    Follows True (ValuesAlike .blurred) (op.eval env (x :: args)) (op'.eval env' args') := by
  obtain ⟨params, body, ret⟩ := op
  cases h with
  | same threadless =>
    -- the operator is given its thread and has no parameter for it
    obtain rfl : params = [] := threadless
    cases alike
    exact .error _ _
  | lifted threaded lift =>
    rw [threaded] at agrees
    simp only [Lambda.eval, Env.bindParams, List.length_map, names_lifted, Body.eval_lifted]
    refine Lambda.withoutLifted_follows nodup (fun v mem => ?_) fewer agrees alike
    rw [Lambda.bound, List.mem_append] at mem
    exact List.mem_append.mpr mem.symm

/-- Only the code of the threads of a lifted map kernel differs. -/
theorem MapKernel.eval_lifted (k : MapKernel) (lift : Option Lift) (env : Env) :
    (Kernel.map { k with
      body := k.body.lifted inside lift
      inputs := k.inputs.map fun i => { i with param := i.param.lifted lift } }).eval env =
    k.run (fun e => (k.body.withoutLifted inside).eval e) env := by
  obtain ⟨certs, width, thread, space, inputs, returns, body⟩ := k
  have code : (fun e => (body.lifted inside lift).eval e) = fun e => (body.withoutLifted inside).eval e :=
    funext (body.eval_lifted inside lift)
  have threads (dims : List Nat) (t : Nat) :
      runThread ⟨certs, width, thread, space, inputs.map fun i => { i with param := i.param.lifted lift }, returns,
        body.lifted inside lift⟩ (fun e => (body.withoutLifted inside).eval e) dims env t =
      runThread ⟨certs, width, thread, space, inputs, returns, body⟩ (fun e => (body.withoutLifted inside).eval e) dims
        env t := by
    rw [runThread, runThread, threadEnv, threadEnv, bindInputs_lifted]
  rw [Kernel.eval, code, run, run]
  simp only [funext (threads _)]
  rfl

theorem MapKernel.lifted_follows {k : MapKernel} {lift : Option Lift} {env env' : Env} (nodup : (Kernel.map k).bound.Nodup)
    (agrees : LiftAgrees (k.body.bound ++ k.threadNames) (Kernel.map k).reads (Kernel.map k).bound k.body.allocSites env env') :
    Follows True (ValuesAlike .blurred) ((Kernel.map k).eval env) ((Kernel.map { k with
      body := k.body.lifted (k.body.bound ++ k.threadNames) lift
      inputs := k.inputs.map fun i => { i with param := i.param.lifted lift } }).eval env') := by
  have bound : (Kernel.map k).bound = k.threadNames ++ k.body.bound := by
    obtain ⟨certs, width, thread, space, inputs, returns, body⟩ := k
    rfl
  have reads (v : Name) (mem : v ∈ k.body.reads) (other : v ∉ k.threadNames) : v ∈ (Kernel.map k).reads := by
    obtain ⟨certs, width, thread, space, inputs, returns, body⟩ := k
    simp only [Kernel.reads, NameSet.mem_union]
    exact .inl (.inr (NameSet.mem_without.mpr ⟨mem, other⟩))
  have same : (Kernel.map k).eval env = k.run (fun e => k.body.eval e) env := by
    obtain ⟨certs, width, thread, space, inputs, returns, body⟩ := k
    rfl
  rw [bound, List.nodup_append] at nodup
  have inner : LiftAgrees (k.body.bound ++ k.threadNames) (Kernel.map k).reads k.body.bound k.body.allocSites env env' :=
    agrees.part (fun v mem => mem) (fun v mem => bound ▸ List.mem_append_right _ mem) (fun a mem => mem) fun a mem _ => mem
  have fine : (congruence .blurred).Fine ⟨env, .none⟩ ⟨env', .none⟩ ⟨⟨[], []⟩, [], .launch (.map k)⟩ :=
    ⟨fun _ => trivial, fun _ => trivial⟩
  rw [MapKernel.eval_lifted, same]
  refine congruence.lawful.map fine agrees.agree (fun _ => rfl) fun e e' _ _ entered => ?_
  refine k.body.withoutLifted_follows nodup.2.1 (fun v => List.mem_append_left _)
    (inner.enter (fun a => k.body.bound_of_allocSites) (fun v => List.mem_append_right _)
      (fun v mem param => nodup.2.2 v param v mem rfl) entered reads)

theorem ChunkedKernel.lifted_follows {k : ChunkedKernel} {op' : Lambda} {env env' : Env}
    (nodup : (Kernel.chunked k).bound.Nodup) (lifted : k.op.Lifted op')
    (agrees : LiftAgrees k.op.innerNames (Kernel.chunked k).reads k.op.bound k.op.allocSites env env') :
    Follows True (ValuesAlike .blurred) ((Kernel.chunked k).eval env) ((Kernel.chunked { k with op := op' }).eval env') := by
  obtain ⟨certs, width, size, division, op, arrays⟩ := k
  have same : (Kernel.chunked ⟨certs, width, size, division, op', arrays⟩).eval env' =
      ChunkedKernel.run ⟨certs, width, size, division, op, arrays⟩ (fun args => op'.eval env' args) env' := by
    rw [Kernel.eval, run, run, lifted.ret_eq]
  rw [same]
  have clean : (congruence .blurred).Clean ⟨env, .none⟩ ⟨env', .none⟩ (op.params.map Binder.name) := by
    intro v mem
    refine ⟨agrees.fresh v (op.mem_bound_of_params mem), agrees.fresh' v (op.mem_bound_of_params mem) fun a lifted block => ?_⟩
    have inner := Lambda.bound_of_allocSites (mem_liftedSites.mp lifted).1
    obtain ⟨params, body, ret⟩ := op
    rw [Kernel.bound, Lambda.bound, List.nodup_append] at nodup
    exact nodup.2.2 v mem _ inner block.symm
  refine congruence.lawful.chunked clean agrees.agree fun args args' fed _ alike => ?_
  obtain ⟨_, _, _, _, _, _, _, _, _, _, _, _, rfl⟩ := fed rfl
  exact lifted.follows nodup (fun v mem => by simp [Kernel.reads, mem]) agrees alike

theorem ScanKernel.lifted_follows {k : ScanKernel} {combine' fold' : Lambda} {env env' : Env} {reads : NameSet}
    (nodup : k.fold.bound.Nodup) (lifted : k.fold.Lifted fold') (fewer : ∀ v ∈ (Kernel.scan k).reads, v ∈ reads)
    (agrees : LiftAgrees k.fold.innerNames reads k.fold.bound k.fold.allocSites env env') :
    Follows True (ValuesAlike .blurred) ((Kernel.scan k).eval env)
      ((Kernel.scan { k with combine := combine', fold := fold' }).eval env') := by
  obtain ⟨certs, width, size, combine, fold, neutral, arrays⟩ := k
  have agree := agrees.agree.mono fewer
  rw [Kernel.eval, Kernel.eval]
  refine ScanKernel.run_follows (Env.size_follows (agree.operand fun v mem => by simp [Kernel.reads, mem]))
    (Env.arrays_follow (agree.lookups fun v mem => by simp [Kernel.reads, mem]))
    (agree.operands fun v mem => by simp [Kernel.reads, mem]) fun args args' fed _ alike => ?_
  obtain ⟨_, _, _, _, _, _, _, _, _, _, _, _, rfl⟩ := fed
  exact lifted.follows nodup (fun v mem => fewer v (by simp [Kernel.reads, mem])) agrees alike

theorem GroupStm.eval_lifted (inside : List Name) (lift : Option Lift) (stm : GroupStm) (groupSize : Nat) (threads : List Env) :
    evalGroupStms groupSize [stm.lifted inside lift] threads = evalGroupStms groupSize [stm.withoutLifted inside] threads := by
  cases lift with
  | none => rfl
  | some l => exact (stm.withoutLifted inside).eval_rebased l groupSize threads

/-- The statements of a group kernel, one after another. -/
theorem groupStmsLifted_follow {inside : List Name} {lift : Option Lift} {stms : List GroupStm} {vs : NameSet}
    {inner : List Name} {sites : List AllocSite} {groupSize : Nat} {threads threads' : List Env}
    (nodup : (boundInGroupStms stms).Nodup) (reads : ∀ v ∈ readsInGroup stms, v ∈ vs)
    (named : ∀ v ∈ stms.flatMap GroupStm.names, v ∈ vs ∧ v ∈ inside ∧ v ∉ inner) (mine : ∀ v ∈ inner, v ∈ inside)
    (site : ∀ a ∈ sites, a.block.name ∈ inner)
    (parts : ∀ stm ∈ stms, (∀ v ∈ stm.innerBound, v ∈ inner) ∧ (∀ a ∈ stm.allocSites, a ∈ sites) ∧
      ∀ a ∈ sites, a.block.name ∈ stm.innerBound → a ∈ stm.allocSites)
    (related : List.Forall₂ (LiftAgrees inside vs inner sites) threads threads') :
    Follows True (List.Forall₂ (LiftAgrees inside vs inner sites)) (evalGroupStms groupSize stms threads)
      (evalGroupStms groupSize (stms.map (·.lifted inside lift)) threads') := by
  induction stms generalizing threads threads' with
  | nil => exact .ok related
  | cons stm stms ih =>
    rw [List.map_cons, evalGroupStms_cons, evalGroupStms_cons _ (stm.lifted inside lift), stm.eval_lifted]
    obtain ⟨bound, less, own⟩ := parts stm List.mem_cons_self
    refine (GroupStm.withoutLifted_follows (nodup_of_boundInGroupStms nodup).1
      (fun v mem => reads v (mem_readsInGroup_cons.mpr (.inl mem))) (fun v mem => named v (by simp [mem])) mine bound less
      site own related).bind fun next next' _ _ related => ?_
    exact ih (nodup_of_boundInGroupStms nodup).2 (fun v mem => reads v (mem_readsInGroup_cons.mpr (.inr mem)))
      (fun v mem => named v (by simp only [List.flatMap_cons, List.mem_append, mem, or_true]))
      (fun stm mem => parts stm (List.mem_cons_of_mem _ mem)) related

/-- The names that the threads of a group kernel read or bind, apart from nested bodies. -/
def GroupKernel.threadReads (k : GroupKernel) : NameSet :=
  (Kernel.group k).reads ∪ readsInGroup k.body.stms ∪ NameSet.gather GroupResult.free k.body.result ∪ NameSet.ofList k.ownNames

/-- Where the threads of a group kernel start, its own names have no value yet. -/
theorem GroupKernel.liftAgrees {k : GroupKernel} {env env' : Env} {inside : List Name}
    (nodup : (Kernel.group k).bound.Nodup)
    (agrees : LiftAgrees inside (Kernel.group k).reads (Kernel.group k).bound (k.body.stms.flatMap GroupStm.allocSites) env env') :
    LiftAgrees inside k.threadReads (k.body.stms.flatMap GroupStm.innerBound) (k.body.stms.flatMap GroupStm.allocSites)
      env env' := by
  have inner := agrees.part (fun v mem => mem) (fun v => k.mem_bound_of_innerBound) (fun a mem => mem) fun a mem _ => mem
  refine { inner with agree := fun v mem => ?_ }
  show Option.Rel _ (env.get? v) (env'.get? v)
  by_cases own : v ∈ k.ownNames
  · rw [agrees.fresh v (k.mem_bound_of_ownNames own), agrees.fresh' v (k.mem_bound_of_ownNames own) fun a lifted same => ?_]
    · exact .none
    · obtain ⟨stm, among, site⟩ := List.mem_flatMap.mp (mem_liftedSites.mp lifted).1
      subst same
      exact GroupKernel.not_mem_ownNames nodup
        (List.mem_flatMap.mpr ⟨stm, among, GroupStm.innerBound_of_allocSites site⟩) own
  · refine agrees.agree v (k.mem_reads ?_ own)
    refine (NameSet.mem_union.mp mem).resolve_right fun mine => own ?_
    exact NameSet.mem_ofList.mp mine

theorem GroupKernel.lifted_follows {k : GroupKernel} {inside : List Name} {lift : Option Lift} {env env' : Env}
    (nodup : (Kernel.group k).bound.Nodup) (mine : ∀ v ∈ (Kernel.group k).bound, v ∈ inside)
    (agrees : LiftAgrees inside (Kernel.group k).reads (Kernel.group k).bound (k.body.stms.flatMap GroupStm.allocSites) env env') :
    Follows True (ValuesAlike .blurred) ((Kernel.group k).eval env)
      ((Kernel.group { k with body := ⟨k.body.stms.map (·.lifted inside lift), k.body.result⟩ }).eval env') := by
  have started := GroupKernel.liftAgrees nodup agrees
  have distinct : (boundInGroupStms k.body.stms).Nodup := by
    obtain ⟨certs, size, space, returns, stms, result⟩ := k
    exact (List.nodup_append.mp nodup).2.1
  have apart : (k.body.stms.flatMap GroupStm.innerBound).Nodup := by
    refine List.nodup_iff_count.mpr fun v => Nat.le_trans ?_ (List.nodup_iff_count.mp distinct v)
    rw [count_boundInGroupStms]
    exact Nat.le_add_left _ _
  have site (a : AllocSite) (mem : a ∈ k.body.stms.flatMap GroupStm.allocSites) :
      a.block.name ∈ k.body.stms.flatMap GroupStm.innerBound := by
    obtain ⟨stm, among, site⟩ := List.mem_flatMap.mp mem
    exact List.mem_flatMap.mpr ⟨stm, among, GroupStm.innerBound_of_allocSites site⟩
  have own (v : Name) (mem : v ∈ k.ownNames) :
      v ∈ k.threadReads ∧ v ∈ inside ∧ v ∉ k.body.stms.flatMap GroupStm.innerBound :=
    ⟨NameSet.mem_union.mpr (.inr (NameSet.mem_ofList.mpr mem)), mine v (k.mem_bound_of_ownNames mem),
      fun inner => GroupKernel.not_mem_ownNames nodup inner mem⟩
  have atLaunch (v : Name) (mem : v ∈ k.size.threads.free ∨ v ∈ k.size.groupSize.free ∨ v ∈ freeTypes k.returns) :
      v ∈ k.threadReads := by
    simp [threadReads, k.mem_reads_of_launch mem]
  have run : (Kernel.group k).eval env = k.run (fun groupSize threads => evalGroupStms groupSize k.body.stms threads) env := by
    obtain ⟨certs, size, space, returns, stms, result⟩ := k
    rfl
  rw [run, Kernel.eval]
  refine (Env.size_follows (started.agree.operand fun v mem => atLaunch v (.inl mem))).bind fun n _ _ _ same => ?_
  subst same
  refine (Env.size_follows (started.agree.operand fun v mem => atLaunch v (.inr (.inl mem)))).bind fun g _ _ _ same => ?_
  subst same
  refine (groupStmsLifted_follow distinct (fun v mem => by simp [threadReads, mem])
    (fun v mem => own v (List.mem_append_right _ mem)) (fun v mem => mine v (k.mem_bound_of_innerBound mem)) site
    (fun stm among => ⟨fun v mem => List.mem_flatMap.mpr ⟨stm, among, mem⟩, fun a mem => List.mem_flatMap.mpr ⟨stm, among, mem⟩,
      fun a mem bound => GroupStm.allocSites_of_innerBound apart among mem bound⟩)
    (List.forall₂_map_left_iff.mpr (List.forall₂_map_right_iff.mpr (List.forall₂_same.mpr fun t _ => ?_)))).bind
    fun final final' _ _ related => ?_
  · refine started.bindAll site (fun v mem => (own v (List.mem_append_left _ mem)).2) ?_
    exact .cons ⟨rfl, count_alike _⟩ (.cons ⟨rfl, count_alike _⟩ (.cons ⟨rfl, count_alike _⟩ .nil))
  · refine GroupKernel.results_follow related (List.forall₂_same.mpr fun ty mem => ⟨rfl, ?_, ?_⟩)
      (List.forall₂_same.mpr fun r mem => ?_)
    · refine congruence.rowShape_eq started.agree fun v free => atLaunch v (.inr (.inr ?_))
      exact NameSet.mem_gather.mpr ⟨ty, mem, ty.free_of_rowReads free⟩
    · refine Env.blank_follows (started.agree.type fun v free => atLaunch v (.inr (.inr ?_)))
      exact NameSet.mem_gather.mpr ⟨ty, mem, free⟩
    · refine Simulation.result_follows started.agree (fun e e' h => ⟨_, _, h.agree⟩) fun v free => ?_
      have read : v ∈ NameSet.gather GroupResult.free k.body.result := NameSet.mem_gather.mpr ⟨r, mem, free⟩
      simp [threadReads, read]

end ArrayKernels
