import ArrayKernels.Proofs.ExpandedKernel

/-! Allocation expansion keeps the meaning of programs. In host code the statements in front of kernels
are new; they bind lifted blocks and fresh names, and nothing else reads these. -/
namespace ArrayKernels

mutual

/-- The names that host code reads when it is evaluated or when its kernels are expanded. -/
def Exp.hostReads : Exp → NameSet
  | .branch cond onTrue onFalse _ => cond.free ∪ onTrue.hostReads ∪ onFalse.hostReads
  | .loop context values index bound body =>
    body.hostReads.without ((context ++ values).map (·.1.name) ++ [index])
      ∪ freeOperands ((context ++ values).map Prod.snd) ∪ bound.free
  | .launch kernel => kernel.reads ∪ kernel.liftReads
  | e => e.free

def hostReadsBefore (after : NameSet) : List Stm → NameSet
  | [] => after
  | ⟨pat, _, exp⟩ :: stms => (hostReadsBefore after stms).without pat.names ∪ exp.hostReads

def Body.hostReads : Body → NameSet
  | ⟨stms, result⟩ => hostReadsBefore (freeOperands result) stms

end

/-- Binders are distinct, what is bound inside is not read from outside, and all tags are taken. -/
structure HostScoped (reads : NameSet) (bound : List Name) (next : Nat) : Prop where
  nodup : bound.Nodup
  apart : ∀ v ∈ bound, v ∉ reads
  below : ∀ v, v ∈ bound ∨ v ∈ reads → v.tag < next

theorem HostScoped.part {reads reads' : NameSet} {bound bound' : List Name} {next next' : Nat}
    (h : HostScoped reads bound next) (inner : bound'.Sublist bound)
    (fewer : ∀ v ∈ reads', v ∈ reads ∨ v ∈ bound ∧ v ∉ bound') (grown : next ≤ next') : HostScoped reads' bound' next' where
  nodup := inner.nodup h.nodup
  apart v mem read := (fewer v read).elim (h.apart v (inner.subset mem)) fun other => other.2 mem
  below v mem := by
    refine Nat.lt_of_lt_of_le (h.below v ?_) grown
    obtain mem | read := mem
    · exact .inl (inner.subset mem)
    · exact (fewer v read).elim .inr fun other => .inl other.1

/-- The environments of host code in the two runs. -/
structure HostAgrees (reads : NameSet) (bound : List Name) (env env' : Env) : Prop where
  agree : (congruence .exact).Agree ⟨env, .none⟩ ⟨env', .none⟩ reads
  clean : (congruence .exact).Clean ⟨env, .none⟩ ⟨env', .none⟩ bound

theorem HostAgrees.part {reads reads' : NameSet} {bound bound' : List Name} {env env' : Env} (h : HostAgrees reads bound env env')
    (fewer : ∀ v ∈ reads', v ∈ reads) (inner : ∀ v ∈ bound', v ∈ bound) : HostAgrees reads' bound' env env' :=
  ⟨h.agree.mono fewer, fun v mem => h.clean v (inner v mem)⟩

theorem HostAgrees.enter {reads : NameSet} {bound vs : List Name} {env env' e e' : Env}
    (h : HostAgrees (reads.without vs) bound env env') (entered : Entered .exact vs env env' e e') (apart : ∀ v ∈ bound, v ∉ vs) :
    HostAgrees reads bound e e' where
  agree v mem := by
    show Option.Rel _ (e.get? v) (e'.get? v)
    by_cases new : v ∈ vs
    · obtain ⟨x, y, left, right, alike⟩ := entered.given v new
      rw [left, right]
      exact .some alike
    · rw [(entered.kept v new).1, (entered.kept v new).2]
      exact h.agree v (NameSet.mem_without.mpr ⟨mem, new⟩)
  clean v mem := by
    obtain ⟨left, right⟩ := entered.kept v (apart v mem)
    exact ⟨left.trans (h.clean v mem).1, right.trans (h.clean v mem).2⟩

/-- The kernel of a launch is sized where it is launched. -/
def launchSized (env : Env) (stm : Stm) : Prop := ∀ k, stm.exp = .launch k → k.Sized env

/-- What an expression becomes follows it after the statements in front, which leave older names alone. -/
def ExpandsTo (next : Nat) (e e' : Exp) (before : List Stm) (env env' : Env) : Prop :=
  ∃ inner, evalStms env' before = .ok inner ∧ (∀ v, v.tag < next → v ∉ e.bound → inner.get? v = env'.get? v) ∧
    Follows True (ValuesAlike .exact) (e.eval env) (e'.eval inner)

theorem ExpandsTo.still {next : Nat} {e e' : Exp} {env env' : Env}
    (h : Follows True (ValuesAlike .exact) (e.eval env) (e'.eval env')) : ExpandsTo next e e' [] env env' :=
  ⟨env', rfl, fun _ _ _ => rfl, h⟩

mutual

theorem Exp.expandHost_grows {options : ExpandOptions} : ∀ (e : Exp) {e' : Exp} {before : List Stm} {s t : ExpandState},
    e.expandHost options s = .ok ((before, e'), t) → s.names.next ≤ t.names.next
  | .branch cond onTrue onFalse ret, e', before, s, t, made => by
    obtain ⟨onTrue', r, madeTrue, made⟩ := Pass.bind_eq_ok.mp made
    obtain ⟨onFalse', r', madeFalse, made⟩ := Pass.bind_eq_ok.mp made
    obtain ⟨_, rfl⟩ := Pass.pure_eq_ok.mp made
    exact Nat.le_trans (onTrue.expandHost_grows madeTrue) (onFalse.expandHost_grows madeFalse)
  | .loop context values index bound body, e', before, s, t, made => by
    obtain ⟨body', r, madeBody, made⟩ := Pass.bind_eq_ok.mp made
    obtain ⟨_, rfl⟩ := Pass.pure_eq_ok.mp made
    exact body.expandHost_grows madeBody
  | .launch kernel, e', before, s, t, made => by
    obtain ⟨⟨stms, kernel'⟩, r, madeKernel, made⟩ := Pass.bind_eq_ok.mp made
    obtain ⟨_, rfl⟩ := Pass.pure_eq_ok.mp made
    exact Kernel.expand_grows madeKernel
  | .operand _, _, _, _, _, made | .binary .., _, _, _, _, made | .compare .., _, _, _, _, made | .index .., _, _, _, _, made
  | .update .., _, _, _, _, made | .iota .., _, _, _, _, made | .replicate .., _, _, _, _, made | .reshape .., _, _, _, _, made
  | .rearrange .., _, _, _, _, made | .copy _, _, _, _, _, made | .alloc .., _, _, _, _, made => by
    obtain ⟨_, rfl⟩ := Pass.pure_eq_ok.mp made
    exact Nat.le_refl _

theorem expandHostStms_grows {options : ExpandOptions} : ∀ (stms : List Stm) {stms' : List Stm} {s t : ExpandState},
    expandHostStms options stms s = .ok (stms', t) → s.names.next ≤ t.names.next
  | [], _, _, _, made => by
    obtain ⟨_, rfl⟩ := Pass.pure_eq_ok.mp made
    exact Nat.le_refl _
  | ⟨pat, certs, e⟩ :: stms, _, s, t, made => by
    obtain ⟨⟨before, e'⟩, r, madeExp, made⟩ := Pass.bind_eq_ok.mp made
    obtain ⟨stms', r', madeRest, made⟩ := Pass.bind_eq_ok.mp made
    obtain ⟨_, rfl⟩ := Pass.pure_eq_ok.mp made
    exact Nat.le_trans (e.expandHost_grows madeExp) (expandHostStms_grows stms madeRest)

theorem Body.expandHost_grows {options : ExpandOptions} : ∀ (body : Body) {body' : Body} {s t : ExpandState},
    body.expandHost options s = .ok (body', t) → s.names.next ≤ t.names.next
  | ⟨stms, result⟩, _, s, t, made => by
    obtain ⟨stms', r, madeStms, made⟩ := Pass.bind_eq_ok.mp made
    obtain ⟨_, rfl⟩ := Pass.pure_eq_ok.mp made
    exact expandHostStms_grows stms madeStms

end

mutual

theorem Exp.expandHost_follows {options : ExpandOptions} : ∀ (e : Exp) {e' : Exp} {before : List Stm} {s t : ExpandState}
    {env env' : Env} {pat : Pattern} {certs : List Name}, e.expandHost options s = .ok ((before, e'), t) →
    HostScoped e.hostReads e.bound s.names.next → HostAgrees e.hostReads e.bound env env' →
    launchSized env ⟨pat, certs, e⟩ → ThroughoutExp launchSized env e →
    ExpandsTo s.names.next e e' before env env'
  | .branch cond onTrue onFalse ret, e', before, s, t, env, env', _, _, made, names, agrees, _, sized => by
    obtain ⟨onTrue', r, madeTrue, made⟩ := Pass.bind_eq_ok.mp made
    obtain ⟨onFalse', r', madeFalse, made⟩ := Pass.bind_eq_ok.mp made
    obtain ⟨same, rfl⟩ := Pass.pure_eq_ok.mp made
    cases same
    refine .still ?_
    rw [Exp.eval, Exp.eval]
    have condition : Follows True (Value.Alike .exact) (env.operand cond) (env'.operand cond) :=
      agrees.agree.operand fun v mem => by simp [Exp.hostReads, mem]
    refine (Env.scalar_follows condition).bind fun c _ chosen _ same => ?_
    subst same
    match c with
    | .bool true =>
      refine onTrue.expandHost_follows madeTrue
        (names.part (List.sublist_append_left _ _) (fun v mem => .inl ?_) (Nat.le_refl _))
        (agrees.part (fun v mem => ?_) fun v => List.mem_append_left _) (sized _ _ (.onTrue chosen))
      · simp [Exp.hostReads, mem]
      · simp [Exp.hostReads, mem]
    | .bool false =>
      refine onFalse.expandHost_follows madeFalse
        (names.part (List.sublist_append_right _ _) (fun v mem => .inl ?_) (onTrue.expandHost_grows madeTrue))
        (agrees.part (fun v mem => ?_) fun v => List.mem_append_right _) (sized _ _ (.onFalse chosen))
      · simp [Exp.hostReads, mem]
      · simp [Exp.hostReads, mem]
    | .i32 _ | .i64 _ | .f32 _ | .f64 _ => exact .error _ _
  | .loop context values index bound body, e', before, s, t, env, env', _, _, made, names, agrees, _, sized => by
    obtain ⟨body', r, madeBody, made⟩ := Pass.bind_eq_ok.mp made
    obtain ⟨same, rfl⟩ := Pass.pure_eq_ok.mp made
    cases same
    refine .still ?_
    rw [Exp.eval, Exp.eval]
    have apart := (List.nodup_append.mp names.nodup).2.2
    refine Follows.bind (?_ : Follows True (ValuesAlike .exact) _ _) fun init init' started _ alike => ?_
    · refine .mapM (List.forall₂_same.mpr fun p mem => agrees.agree.operand fun v free => ?_)
      simp only [Exp.hostReads, NameSet.mem_union]
      exact .inl (.inr (NameSet.mem_gather.mpr ⟨p.2, List.mem_map_of_mem mem, free⟩))
    refine (Env.word_follows (agrees.agree.operand fun v mem => by simp [Exp.hostReads, mem])).bind
      fun n _ counted _ same => ?_
    subst same
    have complete : init.length = ((context ++ values).map (·.1.name)).length := by
      rw [List.length_map]
      exact (mapM_eq_ok.mp started).length_eq.symm
    have reads (v : Name) (mem : v ∈ body.hostReads.without ((context ++ values).map (·.1.name) ++ [index])) :
        v ∈ (Exp.loop context values index bound body).hostReads := by
      simp only [Exp.hostReads, NameSet.mem_union]
      exact .inl (.inl mem)
    refine loop_follows alike complete fun i now now' below done _ entered => ?_
    refine body.expandHost_follows madeBody (names.part (List.sublist_append_right _ _) (fun v mem => ?_) (Nat.le_refl _))
      ((agrees.part reads fun v => List.mem_append_right _).enter entered fun v mem param => apart v param v mem rfl)
      (sized _ _ (.round started counted below done))
    by_cases param : v ∈ (context ++ values).map (·.1.name) ++ [index]
    · exact .inr ⟨List.mem_append_left _ param, fun inner => apart v param v inner rfl⟩
    · exact .inl (reads v (NameSet.mem_without.mpr ⟨mem, param⟩))
  | .launch kernel, e', before, s, t, env, env', _, _, made, names, agrees, sized, _ => by
    obtain ⟨⟨stms, kernel'⟩, r, madeKernel, made⟩ := Pass.bind_eq_ok.mp made
    obtain ⟨same, rfl⟩ := Pass.pure_eq_ok.mp made
    cases same
    exact Kernel.expand_follows madeKernel names.nodup names.apart names.below agrees.agree agrees.clean (sized kernel rfl)
  | .operand _, _, _, _, _, _, _, _, _, made, _, agrees, _, _ | .binary .., _, _, _, _, _, _, _, _, made, _, agrees, _, _
  | .compare .., _, _, _, _, _, _, _, _, made, _, agrees, _, _ | .index .., _, _, _, _, _, _, _, _, made, _, agrees, _, _
  | .update .., _, _, _, _, _, _, _, _, made, _, agrees, _, _ | .iota .., _, _, _, _, _, _, _, _, made, _, agrees, _, _
  | .replicate .., _, _, _, _, _, _, _, _, made, _, agrees, _, _ | .reshape .., _, _, _, _, _, _, _, _, made, _, agrees, _, _
  | .rearrange .., _, _, _, _, _, _, _, _, made, _, agrees, _, _ | .copy _, _, _, _, _, _, _, _, _, made, _, agrees, _, _
  | .alloc .., _, _, _, _, _, _, _, _, made, _, agrees, _, _ => by
    obtain ⟨same, rfl⟩ := Pass.pure_eq_ok.mp made
    cases same
    exact .still (agrees.agree.renamed rfl).eval_follows

theorem expandHostStms_follow {options : ExpandOptions} : ∀ (stms : List Stm) {stms' : List Stm} {s t : ExpandState}
    {env env' : Env} {result : List Operand}, expandHostStms options stms s = .ok (stms', t) →
    HostScoped (hostReadsBefore (freeOperands result) stms) (boundInStms stms) s.names.next →
    HostAgrees (hostReadsBefore (freeOperands result) stms) (boundInStms stms) env env' →
    Throughout launchSized env ⟨stms, result⟩ →
    Follows True (fun e e' => (congruence .exact).Agree ⟨e, .none⟩ ⟨e', .none⟩ (freeOperands result)) (evalStms env stms)
      (evalStms env' stms')
  | [], _, _, _, env, env', result, made, _, agrees, _ => by
    obtain ⟨rfl, rfl⟩ := Pass.pure_eq_ok.mp made
    exact .ok agrees.agree
  | ⟨pat, certs, e⟩ :: stms, _, s, t, env, env', result, made, names, agrees, sized => by
    obtain ⟨⟨before, e'⟩, r, madeExp, made⟩ := Pass.bind_eq_ok.mp made
    obtain ⟨stms', r', madeRest, made⟩ := Pass.bind_eq_ok.mp made
    obtain ⟨rfl, rfl⟩ := Pass.pure_eq_ok.mp made
    obtain ⟨apartExp, apartRest, apart⟩ := boundInStms_apart names.nodup
    have readsExp (v : Name) (mem : v ∈ e.hostReads) :
        v ∈ hostReadsBefore (freeOperands result) (⟨pat, certs, e⟩ :: stms) := NameSet.mem_union.mpr (.inr mem)
    have readsRest (v : Name) (mem : v ∈ hostReadsBefore (freeOperands result) stms) (other : v ∉ pat.names) :
        v ∈ hostReadsBefore (freeOperands result) (⟨pat, certs, e⟩ :: stms) :=
      NameSet.mem_union.mpr (.inl (NameSet.mem_without.mpr ⟨mem, other⟩))
    have boundPat (v : Name) (mem : v ∈ pat.names) : v ∈ boundInStms (⟨pat, certs, e⟩ :: stms) := by
      simp [boundInStms, mem]
    have boundRest (v : Name) (mem : v ∈ boundInStms stms) : v ∈ boundInStms (⟨pat, certs, e⟩ :: stms) := by
      simp [boundInStms, mem]
    have boundExp : e.bound.Sublist (boundInStms (⟨pat, certs, e⟩ :: stms)) :=
      (List.sublist_append_right _ _).trans (List.sublist_append_left _ _)
    obtain ⟨inner, ran, frame, follows⟩ := e.expandHost_follows madeExp
      (names.part boundExp (fun v mem => .inl (readsExp v mem)) (Nat.le_refl _))
      (agrees.part readsExp fun v mem => boundExp.subset mem) sized.first sized.inside
    rw [evalStms_append, ran, ok_bind, evalStms, evalStms]
    refine follows.bind fun vs vs' ranExp _ alike => ?_
    refine (bindValues_follows alike).bind fun e₁ e₁' settled settled' bound => ?_
    refine expandHostStms_follow stms madeRest
      (names.part (List.sublist_append_right _ _) (fun v mem => ?_) (e.expandHost_grows madeExp))
      ⟨fun v mem => ?_, fun v mem => ⟨?_, ?_⟩⟩ (sized.rest ?_)
    · by_cases own : v ∈ pat.names
      · exact .inr ⟨boundPat v own, fun later => apartRest v later own⟩
      · exact .inl (readsRest v mem own)
    · show Option.Rel _ (e₁.get? v) (e₁'.get? v)
      by_cases own : v ∈ pat.names
      · obtain ⟨x, y, left, right, alike⟩ | ⟨left, right⟩ := bound v own
        · rw [left, right]
          exact .some alike
        · rw [left, right, frame v (names.below v (.inl (boundPat v own))) fun inner => apartExp v inner own]
          exact congruence.rel_of_clean (agrees.clean v (boundPat v own))
      · have read := readsRest v mem own
        rw [Env.bindValues_frame settled own, Env.bindValues_frame settled' own,
          frame v (names.below v (.inr read)) fun inner => names.apart v (boundExp.subset inner) read]
        exact agrees.agree v read
    · exact (Env.bindValues_frame settled (apartRest v mem)).trans (agrees.clean v (boundRest v mem)).1
    · refine (Env.bindValues_frame settled' (apartRest v mem)).trans ?_
      rw [frame v (names.below v (.inl (boundRest v mem))) fun inner => apart v inner mem]
      exact (agrees.clean v (boundRest v mem)).2
    · rw [evalStms, ranExp, ok_bind, settled]
      rfl

theorem Body.expandHost_follows {options : ExpandOptions} : ∀ (body : Body) {body' : Body} {s t : ExpandState} {env env' : Env},
    body.expandHost options s = .ok (body', t) → HostScoped body.hostReads body.bound s.names.next →
    HostAgrees body.hostReads body.bound env env' → Throughout launchSized env body →
    Follows True (ValuesAlike .exact) (body.eval env) (body'.eval env')
  | ⟨stms, result⟩, _, s, t, env, env', made, names, agrees, sized => by
    obtain ⟨stms', r, madeStms, made⟩ := Pass.bind_eq_ok.mp made
    obtain ⟨rfl, rfl⟩ := Pass.pure_eq_ok.mp made
    rw [Body.eval, Body.eval]
    refine (expandHostStms_follow stms madeStms names agrees sized).bind fun e e' _ _ agree => ?_
    exact Env.operands_follow (agree.operands fun v mem => mem)

end

/-- Binders are distinct, every name is bound before it is read, and no tag is left to be handed out. -/
structure FunDecl.ClosedBelow (f : FunDecl) (next : Nat) : Prop where
  distinct : (f.params.map Binder.name ++ f.body.bound).Nodup
  closed : ∀ v ∈ f.body.hostReads, v ∈ f.params.map Binder.name
  below : ∀ v ∈ f.params.map Binder.name ++ f.body.bound, v.tag < next

/-- A function and what it is expanded to, with names that are handed out from `next` on. -/
def FunDecl.Expanded (options : ExpandOptions) (next : Nat) (f f' : FunDecl) : Prop :=
  ∃ s t body, next ≤ s.names.next ∧ f.body.expandHost options s = .ok (body, t) ∧ f' = { f with body }

theorem expandFuns_cons {options : ExpandOptions} {f : FunDecl} {funs funs' : List FunDecl} {s t : ExpandState}
    (h : expandFuns options (f :: funs) s = .ok (funs', t)) :
    ∃ body r rest, f.body.expandHost options s = .ok (body, r) ∧ expandFuns options funs r = .ok (rest, t) ∧
      funs' = { f with body } :: rest := by
  rw [expandFuns] at h
  split at h
  · cases h
  · rename_i body r made
    cases rest : expandFuns options funs r with
    | error e => simp [rest, bind, Except.bind] at h
    | ok p =>
      simp only [rest, bind, Except.bind, Except.ok.injEq, Prod.mk.injEq] at h
      obtain ⟨rfl, rfl⟩ := h
      exact ⟨body, r, p.1, made, rest, rfl⟩

theorem expandFuns_eq_ok {options : ExpandOptions} {funs funs' : List FunDecl} {s t : ExpandState}
    (h : expandFuns options funs s = .ok (funs', t)) :
    List.Forall₂ (FunDecl.Expanded options s.names.next) funs funs' := by
  induction funs generalizing funs' s with
  | nil =>
    cases h
    exact .nil
  | cons f funs ih =>
    obtain ⟨body, r, rest, made, others, rfl⟩ := expandFuns_cons h
    have grown := f.body.expandHost_grows made
    refine .cons ⟨s, r, body, Nat.le_refl _, made, rfl⟩ ((ih others).imp ?_)
    rintro f f' ⟨r₁, r₂, body₁, later, made₁, same⟩
    exact ⟨r₁, r₂, body₁, Nat.le_trans grown later, made₁, same⟩

theorem FunDecl.expandHost_follows {options : ExpandOptions} {f : FunDecl} {body : Body} {s t : ExpandState} {next : Nat}
    {args : List Value} (made : f.body.expandHost options s = .ok (body, t)) (later : next ≤ s.names.next)
    (closed : f.ClosedBelow next) (full : f.params.length = args.length)
    (sized : Throughout launchSized (Env.empty.bindAll ((f.params.map Binder.name).zip args)) f.body) :
    Follows True Eq (f.body.eval (Env.empty.bindAll ((f.params.map Binder.name).zip args)))
      (body.eval (Env.empty.bindAll ((f.params.map Binder.name).zip args))) := by
  have apart := (List.nodup_append.mp closed.distinct).2.2
  have scope : HostScoped f.body.hostReads f.body.bound s.names.next := by
    refine ⟨(List.nodup_append.mp closed.distinct).2.1, fun v bound read => apart v (closed.closed v read) v bound rfl, ?_⟩
    intro v mem
    refine Nat.lt_of_lt_of_le (closed.below v ?_) later
    exact List.mem_append.mpr (mem.symm.imp_left (closed.closed v))
  have unbound (v : Name) (bound : v ∈ f.body.bound) :
      (Env.empty.bindAll ((f.params.map Binder.name).zip args)).get? v = none := by
    refine Env.get?_bindAll_of_not_mem _ fun mem => ?_
    rw [map_fst_zip_eq (by rw [List.length_map, full])] at mem
    exact apart v mem v bound rfl
  refine (f.body.expandHost_follows made scope ⟨fun v _ => ?_, fun v bound => ⟨unbound v bound, unbound v bound⟩⟩
    sized).imp fun xs ys _ _ alike => List.forall₂_eq_eq_eq ▸ alike.imp fun _ _ => Value.Alike.eq
  show Option.Rel _ (Env.get? _ v) (Env.get? _ v)
  cases Env.get? _ v with
  | none => exact .none
  | some x => exact .some (.rfl_exact x)

/-- Adds a number to the indices of two threads, each with a block of its own. -/
def sampleWithBlocks : Program :=
  let x : Name := ⟨"x", 0⟩
  let ys : Name := ⟨"ys", 1⟩
  let i : Name := ⟨"i", 3⟩
  let y : Name := ⟨"y", 5⟩
  let word (n : Int64) : Operand := .const (.i64 n)
  let body : Body :=
    ⟨[⟨.single ⟨"block", 4⟩ (.mem (word 8) .default), [], .alloc (word 8) .default⟩, .ofWord y (.binary .add (.var x) (.var i))],
      [.var y]⟩
  let kernel : MapKernel := ⟨[], word 2, ⟨"t", 2⟩, [(i, word 2)], [], [(.scalar .i64, [0])], body⟩
  ⟨[⟨"main", [⟨x, .scalar .i64, none⟩], [.array .i64 [word 2] false],
    ⟨[⟨.single ys (.array .i64 [word 2] false), [], .launch (.map kernel)⟩], [.var ys]⟩⟩]⟩

def Operand.isWordConst : Operand → Bool
  | .const (.i64 _) => true
  | _ => false

/-- The kernel of a launch has a constant number of threads, and lifted blocks of constant sizes. -/
def Stm.constSized (stm : Stm) : Bool :=
  match stm.exp with
  | .launch k => (k.threadCount.toList ++ k.lifted.map AllocSite.size).all Operand.isWordConst
  | _ => true

theorem launchSized_of_constSized (env : Env) (stm : Stm) (h : stm.constSized = true) : launchSized env stm := by
  intro k launched
  rw [Stm.constSized, launched] at h
  have word (x : Operand) (mem : x ∈ k.threadCount.toList ++ k.lifted.map AllocSite.size) : env.IsWord x := by
    have const := List.all_eq_true.mp h x mem
    unfold Operand.isWordConst at const
    split at const
    · exact ⟨_, rfl⟩
    · cases const
  constructor
  · exact fun x mem => word x (List.mem_append_left _ (Option.mem_toList.mpr mem))
  · exact fun a mem => word _ (List.mem_append_right _ (List.mem_map_of_mem mem))

end ArrayKernels
