import ArrayKernels.Proofs.KernelLifting

/-! What expansion makes of one kernel, and that it means the same: the statements in front of the
kernel bind its lifted blocks, and then it gives the same arrays. -/
namespace ArrayKernels

theorem threadPlace_eq_ok {thread : Name} {threads : Operand} {place : ThreadPlace} {s t : ExpandState} :
    (liftM (threadPlace thread threads) : Expand ThreadPlace) s = .ok (place, t) ↔ threadPlace thread threads = .ok place ∧ s = t := by
  change (threadPlace thread threads).map (·, s) = .ok (place, t) ↔ _
  cases threadPlace thread threads with
  | error e => simp [Except.map]
  | ok p => simp [Except.map]

/-- Allocations that stay are reported, and in strict mode there must not be any. -/
theorem reportVariant_eq_ok {options : ExpandOptions} {kernel : String} {found : List Diagnostic} {s t : ExpandState} :
    reportVariant options kernel found s = .ok ((), t) ↔
      (options.strict = true → found = []) ∧ { s with diagnostics := s.diagnostics ++ found } = t := by
  unfold reportVariant
  cases found with
  | nil => simp
  | cons d found => cases options.strict <;> simp

/-- How the arrays in lifted blocks move. -/
def Lift.of? (place : ThreadPlace) : List AllocSite → Option Lift
  | [] => none
  | a :: sites => some ⟨(a :: sites).map AllocSite.name, place⟩

/-- When the allocations can be lifted, and what comes of it. -/
theorem liftSites_eq_ok_iff {options : ExpandOptions} {kernel : String} {thread : Name} {threads : Operand} {inside : List Name}
    {sites : List AllocSite} {existentials : List Name} {s t : ExpandState} {stms : List Stm} {lift : Option Lift} :
    liftSites options kernel thread threads inside sites existentials s = .ok ((stms, lift), t) ↔
      ∃ place, threadPlace thread threads = .ok place ∧ (options.strict = true → variantSites inside sites = []) ∧
        (liftedSites inside sites = [] ∨ existentials = []) ∧
        (stms, t) = ((liftedStms threads (liftedSites inside sites) s.names).1,
          ⟨(liftedStms threads (liftedSites inside sites) s.names).2, s.diagnostics ++ variantSites inside sites⟩) ∧
        lift = Lift.of? place (liftedSites inside sites) := by
  rw [liftSites]
  constructor
  · intro h
    obtain ⟨place, s₁, located, h⟩ := Pass.bind_eq_ok.mp h
    obtain ⟨_, s₂, reported, h⟩ := Pass.bind_eq_ok.mp h
    obtain ⟨drawn, s₃, made, h⟩ := Pass.bind_eq_ok.mp h
    obtain ⟨found, rfl⟩ := threadPlace_eq_ok.mp located
    obtain ⟨lenient, rfl⟩ := reportVariant_eq_ok.mp reported
    cases made
    refine ⟨place, found, lenient, ?_⟩
    generalize liftedSites inside sites = lifted at h ⊢
    cases lifted with
    | nil =>
      obtain ⟨same, rfl⟩ := Pass.pure_eq_ok.mp h
      cases same
      exact ⟨.inl rfl, rfl, rfl⟩
    | cons a lifted =>
      cases existentials with
      | cons block blocks => cases h
      | nil =>
        obtain ⟨same, rfl⟩ := Pass.pure_eq_ok.mp h
        cases same
        exact ⟨.inr rfl, rfl, rfl⟩
  · rintro ⟨place, located, lenient, plain, made, rfl⟩
    refine Pass.bind_eq_ok.mpr ⟨place, s, threadPlace_eq_ok.mpr ⟨located, rfl⟩, ?_⟩
    refine Pass.bind_eq_ok.mpr ⟨(), _, reportVariant_eq_ok.mpr ⟨lenient, rfl⟩, ?_⟩
    refine Pass.bind_eq_ok.mpr ⟨_, _, rfl, ?_⟩
    obtain ⟨rfl, rfl⟩ := Prod.mk.inj made
    generalize liftedSites inside sites = lifted at plain
    cases lifted with
    | nil => rfl
    | cons a lifted =>
      obtain rfl := plain.resolve_left (List.cons_ne_nil a lifted)
      rfl

/-- The statements for all lifted blocks, the names left over, and how arrays in the blocks move. -/
theorem liftSites_eq_ok {options : ExpandOptions} {kernel : String} {thread : Name} {threads : Operand} {inside : List Name}
    {sites : List AllocSite} {existentials : List Name} {s t : ExpandState} {stms : List Stm} {lift : Option Lift}
    (h : liftSites options kernel thread threads inside sites existentials s = .ok ((stms, lift), t)) :
    (stms, t.names) = liftedStms threads (liftedSites inside sites) s.names ∧
      ∀ l ∈ lift, threadPlace thread threads = .ok l.place ∧ l.blocks = (liftedSites inside sites).map AllocSite.name := by
  obtain ⟨place, located, _, _, made, rfl⟩ := liftSites_eq_ok_iff.mp h
  obtain ⟨rfl, rfl⟩ := Prod.mk.inj made
  refine ⟨rfl, fun l mem => ?_⟩
  generalize liftedSites inside sites = lifted at mem
  cases lifted with
  | nil => cases mem
  | cons a lifted =>
    cases mem
    exact ⟨located, rfl⟩

theorem liftedStms_grows (threads : Operand) (sites : List AllocSite) (names : NameSupply) :
    names.next ≤ (liftedStms threads sites names).2.next := by
  induction sites generalizing names with
  | nil => exact Nat.le_refl _
  | cons a sites ih => exact Nat.le_trans (Nat.le_succ _) (ih ⟨names.next + 1⟩)

theorem liftedStms_append (threads : Operand) (sites more : List AllocSite) (names : NameSupply) :
    liftedStms threads (sites ++ more) names =
      ((liftedStms threads sites names).1 ++ (liftedStms threads more (liftedStms threads sites names).2).1,
        (liftedStms threads more (liftedStms threads sites names).2).2) := by
  induction sites generalizing names with
  | nil => rfl
  | cons a sites ih =>
    simp only [List.cons_append, liftedStms, ih]

/-- The operand is a 64-bit word. -/
def Env.IsWord (env : Env) (x : Operand) : Prop := ∃ n, env.operand x = .ok (.scalar (.i64 n))

theorem Env.IsWord.word {env : Env} {x : Operand} (h : env.IsWord x) : ∃ n, env.word x = .ok n := by
  obtain ⟨n, known⟩ := h
  refine ⟨n, ?_⟩
  rw [Env.word, Env.scalar, known]
  rfl

/-- After the statements in front of a kernel its lifted blocks are bound, and all names but these and
fresh ones are as before. -/
theorem liftedStms_eval {threads : Operand} {sites : List AllocSite} {names : NameSupply} {env : Env}
    (nodup : (sites.map fun a => a.block.name).Nodup) (counted : env.IsWord threads)
    (sized : ∀ a ∈ sites, env.IsWord a.size)
    (outside : ∀ x, x = threads ∨ x ∈ sites.map AllocSite.size → ∀ v ∈ x.free,
      v.tag < names.next ∧ v ∉ sites.map fun a => a.block.name) (below : ∀ a ∈ sites, a.block.name.tag < names.next) :
    ∃ next, evalStms env (liftedStms threads sites names).1 = .ok next ∧
      (∀ a ∈ sites, ∃ n, next.get? a.block.name = some (.mem n a.space)) ∧
      ∀ v, v.tag < names.next → (∀ a ∈ sites, a.block.name ≠ v) → next.get? v = env.get? v := by
  induction sites generalizing env names with
  | nil => exact ⟨env, rfl, fun a mem => absurd mem List.not_mem_nil, fun _ _ _ => rfl⟩
  | cons a sites ih =>
    obtain ⟨t, counted'⟩ := counted
    obtain ⟨n, sized'⟩ := sized a List.mem_cons_self
    rw [List.map_cons, List.nodup_cons] at nodup
    let total : Name := ⟨a.block.name.base ++ "_total", names.next⟩
    let env₁ := (env.bind total (.scalar (.i64 (t * n)))).bind a.block.name (.mem (t * n) a.space)
    have kept (v : Name) (old : v.tag < names.next) (other : v ≠ a.block.name) : env₁.get? v = env.get? v := by
      have notTotal : v ≠ total := fun same => by simp [same, total] at old
      rw [Env.get?_bind, if_neg other, Env.get?_bind, if_neg notTotal]
    have same (x : Operand) (mem : x = threads ∨ x ∈ (a :: sites).map AllocSite.size) : env₁.operand x = env.operand x := by
      refine Env.operand_congr fun v free => ?_
      obtain ⟨old, other⟩ := outside x mem v free
      exact kept v old fun same => other (by simp [same])
    have ran : evalStms env (liftedStms threads (a :: sites) names).1 =
        evalStms env₁ (liftedStms threads sites ⟨names.next + 1⟩).1 := by
      have multiplied : (Exp.binary .mul threads a.size).eval env = .ok [.scalar (.i64 (t * n))] := by
        rw [Exp.eval, Env.scalar, counted', Env.scalar, sized']
        rfl
      have allocated : (Exp.alloc (.var total) a.space).eval (env.bind total (.scalar (.i64 (t * n)))) =
          .ok [.mem (t * n) a.space] := by
        have read : (env.bind total (.scalar (.i64 (t * n)))).lookup total = .ok (.scalar (.i64 (t * n))) :=
          Env.lookup_eq_ok.mpr (by rw [Env.get?_bind, if_pos rfl])
        rw [Exp.eval, Env.word, Env.scalar, Env.operand, read]
        rfl
      rw [liftedStms]
      show evalStms env (⟨.single total (.scalar .i64), [], .binary .mul threads a.size⟩ ::
        ⟨⟨[], [_]⟩, [], .alloc (.var total) a.space⟩ :: _) = _
      rw [evalStms, multiplied, ok_bind]
      show evalStms (env.bind total _) (⟨⟨[], [_]⟩, [], .alloc (.var total) a.space⟩ :: _) = _
      rw [evalStms, allocated]
      rfl
    have rest := @ih ⟨names.next + 1⟩ env₁ nodup.2 ⟨t, (same _ (.inl rfl)).trans counted'⟩ (fun b mem => ?_) (fun x mem v free => ?_) fun b mem => ?_
    · obtain ⟨next, evaluated, blocks, frame⟩ := rest
      refine ⟨next, ran.trans evaluated, fun b mem => ?_, fun v old other => ?_⟩
      · obtain rfl | later := List.mem_cons.mp mem
        · refine ⟨t * n, (frame _ (Nat.lt_succ_of_lt (below b mem)) fun c among same => nodup.1 ?_).trans ?_⟩
          · exact List.mem_map.mpr ⟨c, among, same⟩
          · rw [Env.get?_bind, if_pos rfl]
        · exact blocks b later
      · rw [frame v (Nat.lt_succ_of_lt old) fun b mem => other b (List.mem_cons_of_mem _ mem)]
        exact kept v old (other a List.mem_cons_self).symm
    · obtain ⟨m, known⟩ := sized b (List.mem_cons_of_mem _ mem)
      exact ⟨m, (same _ (.inr (List.mem_map_of_mem (List.mem_cons_of_mem _ mem)))).trans known⟩
    · obtain ⟨old, other⟩ := outside x (mem.imp_right (List.mem_cons_of_mem _)) v free
      exact ⟨Nat.lt_succ_of_lt old, fun among => other (List.mem_cons_of_mem _ among)⟩
    · exact Nat.lt_succ_of_lt (below b (List.mem_cons_of_mem _ mem))

def Lambda.lifted (op : Lambda) : List AllocSite := liftedSites op.innerNames op.allocSites

namespace Kernel

/-- The lifted blocks of a kernel. -/
def lifted : Kernel → List AllocSite
  | map k => liftedSites (k.body.bound ++ k.threadNames) k.body.allocSites
  | scan k => k.combine.lifted ++ k.fold.lifted
  | chunked k => k.op.lifted
  | group k => liftedSites (k.body.bound ++ k.space.names) (k.body.stms.flatMap GroupStm.allocSites)
  | _ => []

/-- The number of threads that a lifted block has room for. -/
def threadCount : Kernel → Option Operand
  | map k => some k.width
  | scan k => some k.size.threads
  | chunked k => some k.size.threads
  | group k => some k.size.threads
  | _ => none

/-- What the statements in front of a kernel read. -/
def liftReads (k : Kernel) : NameSet := freeOperands (k.threadCount.toList ++ k.lifted.map AllocSite.size)

/-- The number of threads and the sizes of the lifted blocks are 64-bit words. -/
structure Sized (k : Kernel) (env : Env) : Prop where
  counted : ∀ x ∈ k.threadCount, env.IsWord x
  sized : ∀ a ∈ k.lifted, env.IsWord a.size

/-- What expansion makes of a kernel. -/
inductive Expanded : Kernel → Kernel → Prop where
  | map (k : MapKernel) (lift : Option Lift) : Expanded (map k) (map { k with
      body := k.body.lifted (k.body.bound ++ k.threadNames) lift
      inputs := k.inputs.map fun i => { i with param := i.param.lifted lift } })
  | scan (k : ScanKernel) (combine' : Lambda) {fold' : Lambda} (lifted : k.fold.Lifted fold') :
      Expanded (scan k) (scan { k with combine := combine', fold := fold' })
  | chunked (k : ChunkedKernel) {op' : Lambda} (lifted : k.op.Lifted op') :
      Expanded (chunked k) (chunked { k with op := op' })
  | group (k : GroupKernel) (lift : Option Lift) : Expanded (group k) (group { k with
      body := ⟨k.body.stms.map (·.lifted (k.body.bound ++ k.space.names) lift), k.body.result⟩ })
  | same {k : Kernel} (none : k.lifted = []) : Expanded k k

end Kernel

theorem Lambda.expand_eq_ok {options : ExpandOptions} {kernel : String} {threads : Operand} {op op' : Lambda}
    {s t : ExpandState} {stms : List Stm} (h : op.expand options kernel threads s = .ok ((stms, op'), t)) :
    (stms, t.names) = liftedStms threads op.lifted s.names ∧ op.Lifted op' := by
  obtain ⟨params, body, ret⟩ := op
  cases params with
  | nil =>
    obtain ⟨same, rfl⟩ := Pass.pure_eq_ok.mp h
    cases same
    exact ⟨rfl, .same rfl⟩
  | cons thread params =>
    obtain ⟨⟨drawn, lift⟩, r, made, h⟩ := Pass.bind_eq_ok.mp h
    obtain ⟨same, rfl⟩ := Pass.pure_eq_ok.mp h
    cases same
    exact ⟨(liftSites_eq_ok made).1, .lifted rfl lift⟩

theorem Kernel.expand_eq_ok {options : ExpandOptions} {k k' : Kernel} {s t : ExpandState} {stms : List Stm}
    (h : k.expand options s = .ok ((stms, k'), t)) :
    (∃ threads, (k.lifted = [] ∨ k.threadCount = some threads) ∧ (stms, t.names) = liftedStms threads k.lifted s.names) ∧
      k.Expanded k' := by
  cases k with
  | map k =>
    obtain ⟨⟨drawn, lift⟩, r, made, h⟩ := Pass.bind_eq_ok.mp h
    obtain ⟨same, rfl⟩ := Pass.pure_eq_ok.mp h
    cases same
    exact ⟨⟨k.width, .inr rfl, (liftSites_eq_ok made).1⟩, .map k lift⟩
  | scan k =>
    obtain ⟨⟨first, combine'⟩, r, made, h⟩ := Pass.bind_eq_ok.mp h
    obtain ⟨⟨second, fold'⟩, r', made', h⟩ := Pass.bind_eq_ok.mp h
    obtain ⟨same, rfl⟩ := Pass.pure_eq_ok.mp h
    cases same
    obtain ⟨drawn, _⟩ := Lambda.expand_eq_ok made
    obtain ⟨drawn', lifted⟩ := Lambda.expand_eq_ok made'
    refine ⟨⟨k.size.threads, .inr rfl, ?_⟩, .scan k combine' lifted⟩
    rw [Kernel.lifted, liftedStms_append, ← drawn, ← drawn']
  | chunked k =>
    obtain ⟨⟨drawn, op'⟩, r, made, h⟩ := Pass.bind_eq_ok.mp h
    obtain ⟨same, rfl⟩ := Pass.pure_eq_ok.mp h
    cases same
    obtain ⟨drawn, lifted⟩ := Lambda.expand_eq_ok made
    exact ⟨⟨k.size.threads, .inr rfl, drawn⟩, .chunked k lifted⟩
  | group k =>
    obtain ⟨⟨drawn, lift⟩, r, made, h⟩ := Pass.bind_eq_ok.mp h
    obtain ⟨same, rfl⟩ := Pass.pure_eq_ok.mp h
    cases same
    exact ⟨⟨k.size.threads, .inr rfl, (liftSites_eq_ok made).1⟩, .group k lift⟩
  | scatter k =>
    obtain ⟨same, rfl⟩ := Pass.pure_eq_ok.mp h
    cases same
    exact ⟨⟨.const (.bool false), .inl rfl, rfl⟩, .same rfl⟩
  | numGroups =>
    obtain ⟨same, rfl⟩ := Pass.pure_eq_ok.mp h
    cases same
    exact ⟨⟨.const (.bool false), .inl rfl, rfl⟩, .same rfl⟩
  | groupSize =>
    obtain ⟨same, rfl⟩ := Pass.pure_eq_ok.mp h
    cases same
    exact ⟨⟨.const (.bool false), .inl rfl, rfl⟩, .same rfl⟩

theorem Kernel.expand_grows {options : ExpandOptions} {k k' : Kernel} {s t : ExpandState} {stms : List Stm}
    (h : k.expand options s = .ok ((stms, k'), t)) : s.names.next ≤ t.names.next := by
  obtain ⟨⟨threads, _, drawn⟩, _⟩ := Kernel.expand_eq_ok h
  rw [(Prod.mk.inj drawn).2]
  exact liftedStms_grows ..

/-- What is known where a kernel is launched and where its expansion is. -/
structure Kernel.LaunchAgrees (k : Kernel) (env env' : Env) : Prop where
  agree : (congruence .blurred).Agree ⟨env, .none⟩ ⟨env', .none⟩ k.reads
  fresh : ∀ v ∈ k.bound, env.get? v = none
  fresh' : ∀ v ∈ k.bound, (∀ a ∈ k.lifted, a.block.name ≠ v) → env'.get? v = none
  sized : ∀ a ∈ k.lifted, ∃ n, env.word a.size = .ok n
  blocks : ∀ a ∈ k.lifted, ∃ n, env'.get? a.block.name = some (.mem n a.space)

theorem liftedSites_sublist (inside : List Name) (sites : List AllocSite) :
    ((liftedSites inside sites).map AllocSite.name).Sublist (sites.map AllocSite.name) :=
  (List.filter_sublist ..).map _

theorem Lambda.lifted_sublist (op : Lambda) : (op.lifted.map AllocSite.name).Sublist op.bound := by
  refine (liftedSites_sublist _ _).trans ?_
  obtain ⟨params, body, ret⟩ := op
  cases params with
  | nil => exact List.nil_sublist _
  | cons thread params => exact body.allocSites_sublist.trans (List.sublist_append_right _ _)

theorem groupSites_sublist (stms : List GroupStm) :
    ((stms.flatMap GroupStm.allocSites).map AllocSite.name).Sublist (boundInGroupStms stms) := by
  induction stms with
  | nil => exact .slnil
  | cons stm stms ih =>
    rw [List.flatMap_cons, List.map_append, boundInGroupStms]
    refine List.Sublist.append ?_ ih
    cases stm with
    | split size chunks division width perThread arrays => exact List.nil_sublist _
    | thread pat only body => exact body.allocSites_sublist.trans (List.sublist_append_right _ _)
    | reduce pat width op inputs =>
      obtain ⟨params, body, ret⟩ := op
      exact (body.allocSites_sublist.trans (List.sublist_append_right _ _)).trans (List.sublist_append_right _ _)

/-- The lifted blocks of a kernel are bound in it. -/
theorem Kernel.lifted_sublist (k : Kernel) : (k.lifted.map AllocSite.name).Sublist k.bound := by
  cases k with
  | map k =>
    obtain ⟨certs, width, thread, space, inputs, returns, body⟩ := k
    exact ((liftedSites_sublist _ _).trans body.allocSites_sublist).trans (List.sublist_append_right _ _)
  | scan k =>
    obtain ⟨certs, width, size, combine, fold, neutral, arrays⟩ := k
    rw [Kernel.lifted, List.map_append]
    exact combine.lifted_sublist.append fold.lifted_sublist
  | chunked k =>
    obtain ⟨certs, width, size, division, op, arrays⟩ := k
    exact op.lifted_sublist
  | group k =>
    obtain ⟨certs, size, space, returns, stms, result⟩ := k
    exact ((liftedSites_sublist _ _).trans (groupSites_sublist stms)).trans (List.sublist_append_right _ _)
  | scatter k => exact List.nil_sublist _
  | numGroups => exact .slnil
  | groupSize => exact .slnil

theorem Kernel.bound_of_lifted {k : Kernel} {a : AllocSite} (mem : a ∈ k.lifted) : a.block.name ∈ k.bound :=
  k.lifted_sublist.subset (List.mem_map.mpr ⟨a, mem, rfl⟩)

theorem Kernel.Expanded.follows {k k' : Kernel} {env env' : Env} (h : k.Expanded k') (nodup : k.bound.Nodup)
    (agrees : k.LaunchAgrees env env') : Follows True (ValuesAlike .blurred) (k.eval env) (k'.eval env') := by
  obtain ⟨agree, fresh, fresh', sized, blocks⟩ := agrees
  cases h with
  | map k lift => exact MapKernel.lifted_follows nodup ⟨agree, fresh, fresh', sized, blocks⟩
  | chunked k lifted =>
    obtain ⟨certs, width, size, division, op, arrays⟩ := k
    exact ChunkedKernel.lifted_follows nodup lifted ⟨agree, fresh, fresh', sized, blocks⟩
  | group k lift =>
    refine GroupKernel.lifted_follows nodup (fun v mem => ?_) ⟨agree, fresh, fresh', sized, blocks⟩
    obtain ⟨certs, size, space, returns, stms, result⟩ := k
    exact List.mem_append.mpr (List.mem_append.mp mem).symm
  | scan k combine' lifted =>
    -- the combining operator is never evaluated, and its blocks are not those of the fold
    have bound : (Kernel.scan k).bound = k.combine.bound ++ k.fold.bound := by
      obtain ⟨certs, width, size, combine, fold, neutral, arrays⟩ := k
      rfl
    rw [bound, List.nodup_append] at nodup
    refine ScanKernel.lifted_follows nodup.2.1 lifted (fun v mem => mem) ⟨agree, fun v mem => ?_, fun v mem other => ?_,
      fun a mem => sized a (List.mem_append_right _ mem), fun a mem => blocks a (List.mem_append_right _ mem)⟩
    · exact fresh v (bound ▸ List.mem_append_right _ mem)
    · refine fresh' v (bound ▸ List.mem_append_right _ mem) fun a site same => ?_
      obtain site | site := List.mem_append.mp site
      · exact nodup.2.2 _ (k.combine.lifted_sublist.subset (List.mem_map.mpr ⟨a, site, rfl⟩)) _ mem same
      · exact other a site same
  | same none =>
    have clean : (congruence .blurred).Clean ⟨env, .none⟩ ⟨env', .none⟩ k.bound :=
      fun v mem => ⟨fresh v mem, fresh' v mem fun a site => by simp [none] at site⟩
    have fine : (congruence .blurred).Fine ⟨env, .none⟩ ⟨env', .none⟩ ⟨⟨[], []⟩, [], .launch k⟩ :=
      ⟨fun _ => trivial, fun _ => trivial⟩
    have follows := Simulation.kernel_follows congruence.lawful k nodup agree clean fine
      ⟨fun _ _ _ _ _ _ _ => trivial, fun _ _ _ _ _ _ _ => trivial⟩
    rwa [Kernel.run_strict, Kernel.run_strict] at follows

/-! A kernel gives arrays, which do not depend on the sizes of blocks -/

theorem joinChunks_array {elem : ScalarType} {rowShape : List Nat} {width : Nat} {chunks : List (List Nat × Value)}
    {x : Value} (h : joinChunks elem rowShape width chunks = .ok x) : ∃ a, x = .array a := by
  obtain ⟨slots, _, h⟩ := bind_eq_ok.mp h
  obtain ⟨rows, _, h⟩ := bind_eq_ok.mp h
  obtain ⟨a, _, h⟩ := bind_eq_ok.mp h
  cases h
  exact ⟨a, rfl⟩

theorem MapKernel.assemble_array {env : Env} {space : List Nat} {ret : Ty × List Nat} {rows : List Value} {x : Value}
    (h : assemble env space ret rows = .ok x) : ∃ a, x = .array a := by
  obtain ⟨shape, _, h⟩ := bind_eq_ok.mp h
  obtain ⟨elem, _, h⟩ := bind_eq_ok.mp h
  obtain ⟨flat, _, h⟩ := bind_eq_ok.mp h
  split at h
  · split at h
    · cases h
      exact ⟨_, rfl⟩
    · obtain ⟨a, _, h⟩ := bind_eq_ok.mp h
      cases h
      exact ⟨a, rfl⟩
  · cases h

theorem ScanKernel.assemble_array {env : Env} {neutral : Operand} {rows : List Value} {x : Value}
    (h : assemble env neutral rows = .ok x) : ∃ a, x = .array a := by
  obtain ⟨ne, _, h⟩ := bind_eq_ok.mp h
  split at h
  · obtain ⟨a, _, h⟩ := bind_eq_ok.mp h
    cases h
    exact ⟨a, rfl⟩
  · cases h

theorem ChunkedKernel.assemble_array {env : Env} {width : Nat} {ty : Ty} {chunks : List (List Nat × Value)} {x : Value}
    (h : assemble env width ty chunks = .ok x) : ∃ a, x = .array a := by
  obtain ⟨elem, _, h⟩ := bind_eq_ok.mp h
  exact joinChunks_array h

theorem GroupKernel.assemble_array {env : Env} {threads : List Env} {ty : Ty} {r : GroupResult} {x : Value}
    (h : assemble env threads ty r = .ok x) : ∃ a, x = .array a := by
  cases r with
  | row value =>
    obtain ⟨rows, _, h⟩ := bind_eq_ok.mp h
    obtain ⟨elem, _, h⟩ := bind_eq_ok.mp h
    obtain ⟨a, _, h⟩ := bind_eq_ok.mp h
    cases h
    exact ⟨a, rfl⟩
  | write index value =>
    obtain ⟨blank, _, h⟩ := bind_eq_ok.mp h
    split at h
    · obtain ⟨a, _, h⟩ := bind_eq_ok.mp h
      cases h
      exact ⟨a, rfl⟩
    · cases h
  | chunks division width perThread array =>
    obtain ⟨width, _, h⟩ := bind_eq_ok.mp h
    obtain ⟨perThread, _, h⟩ := bind_eq_ok.mp h
    obtain ⟨chunks, _, h⟩ := bind_eq_ok.mp h
    obtain ⟨elem, _, h⟩ := bind_eq_ok.mp h
    exact joinChunks_array h

theorem mapM_arrays {α : Type} {f : α → Eval Value} {xs : List α} {ys : List Value} (h : xs.mapM f = .ok ys)
    (each : ∀ x y, f x = .ok y → ∃ a, y = .array a) : ∀ y ∈ ys, ∃ a, y = .array a := by
  intro y mem
  obtain ⟨x, _, made⟩ := exists_of_mem_right (mapM_eq_ok.mp h) mem
  exact each x y made

theorem Kernel.eval_arrays {k : Kernel} {env : Env} {xs : List Value} (h : k.eval env = .ok xs) :
    ∀ x ∈ xs, ∃ a, x = .array a := by
  cases k with
  | map k =>
    obtain ⟨certs, width, thread, space, inputs, returns, body⟩ := k
    obtain ⟨width, _, h⟩ := bind_eq_ok.mp h
    obtain ⟨dims, _, h⟩ := bind_eq_ok.mp h
    obtain ⟨results, _, h⟩ := bind_eq_ok.mp h
    exact mapM_arrays h fun _ _ => MapKernel.assemble_array
  | scan k =>
    obtain ⟨certs, width, size, combine, fold, neutral, arrays⟩ := k
    obtain ⟨width, _, h⟩ := bind_eq_ok.mp h
    obtain ⟨arrays, _, h⟩ := bind_eq_ok.mp h
    obtain ⟨accs, _, h⟩ := bind_eq_ok.mp h
    obtain ⟨steps, _, h⟩ := bind_eq_ok.mp h
    exact mapM_arrays h fun _ _ => ScanKernel.assemble_array
  | chunked k =>
    obtain ⟨certs, width, size, division, op, arrays⟩ := k
    obtain ⟨width, _, h⟩ := bind_eq_ok.mp h
    obtain ⟨threads, _, h⟩ := bind_eq_ok.mp h
    obtain ⟨chunk, _, h⟩ := bind_eq_ok.mp h
    obtain ⟨arrays, _, h⟩ := bind_eq_ok.mp h
    obtain ⟨results, _, h⟩ := bind_eq_ok.mp h
    exact mapM_arrays h fun _ _ => ChunkedKernel.assemble_array
  | scatter k =>
    obtain ⟨certs, width, op, arrays, dests⟩ := k
    obtain ⟨width, _, h⟩ := bind_eq_ok.mp h
    obtain ⟨arrays, _, h⟩ := bind_eq_ok.mp h
    obtain ⟨start, _, h⟩ := bind_eq_ok.mp h
    obtain ⟨dests, _, h⟩ := bind_eq_ok.mp h
    cases h
    intro x mem
    obtain ⟨a, _, rfl⟩ := List.mem_map.mp mem
    exact ⟨a, rfl⟩
  | group k =>
    obtain ⟨certs, size, space, returns, stms, result⟩ := k
    obtain ⟨threads, _, h⟩ := bind_eq_ok.mp h
    obtain ⟨groupSize, _, h⟩ := bind_eq_ok.mp h
    obtain ⟨final, _, h⟩ := bind_eq_ok.mp h
    rw [GroupKernel.results] at h
    split at h
    · exact mapM_arrays h fun _ _ => GroupKernel.assemble_array
    · cases h
  | numGroups => cases h
  | groupSize => cases h

/-- Arrays that are alike up to the sizes of blocks are equal. -/
theorem ValuesAlike.exact_of_arrays {xs ys : List Value} (h : ValuesAlike .blurred xs ys)
    (arrays : ∀ x ∈ xs, ∃ a, x = .array a) : ValuesAlike .exact xs ys := by
  induction h with
  | nil => exact .nil
  | cons head _ ih =>
    refine .cons ?_ (ih fun x mem => arrays x (List.mem_cons_of_mem _ mem))
    obtain ⟨a, rfl⟩ := arrays _ List.mem_cons_self
    cases head with
    | array alike => exact .array ⟨alike.shape, alike.data, alike.elem, False.elim⟩

theorem Value.Alike.rfl_blurred (x : Value) : x.Alike .blurred x := by
  cases x with
  | scalar c => exact .scalar c
  | array a => exact .array ⟨rfl, rfl, .inl rfl, False.elim⟩
  | mem n space => exact .mem (.inl rfl)

/-- An expanded kernel gives the same arrays where the statements in front of it have been evaluated. -/
theorem Kernel.expand_follows {options : ExpandOptions} {k k' : Kernel} {s t : ExpandState} {stms : List Stm}
    {env env' : Env} (h : k.expand options s = .ok ((stms, k'), t)) (nodup : k.bound.Nodup)
    (apart : ∀ v ∈ k.bound, v ∉ k.reads ∪ k.liftReads)
    (below : ∀ v, v ∈ k.bound ∨ v ∈ k.reads ∪ k.liftReads → v.tag < s.names.next)
    (agree : (congruence .exact).Agree ⟨env, .none⟩ ⟨env', .none⟩ (k.reads ∪ k.liftReads))
    (clean : (congruence .exact).Clean ⟨env, .none⟩ ⟨env', .none⟩ k.bound) (sized : k.Sized env) :
    ∃ next, evalStms env' stms = .ok next ∧
      (∀ v, v.tag < s.names.next → v ∉ k.bound → next.get? v = env'.get? v) ∧
      Follows True (ValuesAlike .exact) (k.eval env) (k'.eval next) := by
  obtain ⟨⟨threads, source, drawn⟩, expanded⟩ := Kernel.expand_eq_ok h
  obtain ⟨rfl, _⟩ := Prod.mk.inj drawn
  have front : ∃ next, evalStms env' (liftedStms threads k.lifted s.names).1 = .ok next ∧
      (∀ a ∈ k.lifted, ∃ n, next.get? a.block.name = some (.mem n a.space)) ∧
      ∀ v, v.tag < s.names.next → (∀ a ∈ k.lifted, a.block.name ≠ v) → next.get? v = env'.get? v := by
    obtain none | counted := source
    · rw [none]
      exact ⟨env', rfl, fun a mem => absurd mem List.not_mem_nil, fun _ _ _ => rfl⟩
    · have reads (x : Operand) (mem : x = threads ∨ x ∈ k.lifted.map AllocSite.size) (v : Name) (free : v ∈ x.free) :
          v ∈ k.liftReads := by
        refine NameSet.mem_gather.mpr ⟨x, ?_, free⟩
        rw [counted, Option.toList_some, List.singleton_append, List.mem_cons]
        exact mem
      have same (x : Operand) (mem : x = threads ∨ x ∈ k.lifted.map AllocSite.size) : env'.operand x = env.operand x := by
        refine Env.operand_congr fun v free => (congruence.get?_eq agree ?_).symm
        exact NameSet.mem_union.mpr (.inr (reads x mem v free))
      refine liftedStms_eval (k.lifted_sublist.nodup nodup) ?_ (fun a mem => ?_) (fun x mem v free => ?_) fun a mem => ?_
      · obtain ⟨n, known⟩ := sized.counted threads counted
        exact ⟨n, (same _ (.inl rfl)).trans known⟩
      · obtain ⟨n, known⟩ := sized.sized a mem
        exact ⟨n, (same _ (.inr (List.mem_map_of_mem mem))).trans known⟩
      · have read : v ∈ k.reads ∪ k.liftReads := NameSet.mem_union.mpr (.inr (reads x mem v free))
        exact ⟨below v (.inr read), fun block => apart v (k.lifted_sublist.subset block) read⟩
      · exact below _ (.inl (k.bound_of_lifted mem))
  obtain ⟨next, evaluated, blocks, frame⟩ := front
  have kept (v : Name) (old : v.tag < s.names.next) (other : v ∉ k.bound) : next.get? v = env'.get? v :=
    frame v old fun a mem same => other (same ▸ k.bound_of_lifted mem)
  refine ⟨next, evaluated, kept, ?_⟩
  refine (expanded.follows nodup ⟨fun v read => ?_, fun v mem => (clean v mem).1, fun v mem other => ?_, fun a mem => ?_,
    blocks⟩).imp fun xs ys ran _ alike => alike.exact_of_arrays (Kernel.eval_arrays ran)
  · have read : v ∈ k.reads ∪ k.liftReads := NameSet.mem_union.mpr (.inl read)
    show Option.Rel _ (env.get? v) (next.get? v)
    rw [kept v (below v (.inr read)) fun bound => apart v bound read,
      show env.get? v = env'.get? v from congruence.get?_eq agree read]
    cases env'.get? v with
    | none => exact .none
    | some x => exact .some (.rfl_blurred x)
  · exact (frame v (below v (.inl mem)) other).trans (clean v mem).2
  · exact (sized.sized a mem).word

end ArrayKernels
