import ArrayKernels.Proofs.LevelScoping
import ArrayKernels.Simplify.Program
import Mathlib.Data.List.Flatten
import Mathlib.Data.List.Perm.Basic

/-! A sweep keeps code in scope: what leaves a body, an operator or a kernel mentions none of its names, and the rest is in
scope behind it. -/
namespace ArrayKernels

/-! Code under names of its own -/

namespace Blocker

theorem blocks_or (a b : Blocker) (stm : Stm) (free : NameSet) :
    (a.or b).blocks stm free = (a.blocks stm free || b.blocks stm free) := by
  cases a <;> cases b <;> simp [Blocker.or, blocks]

/-- Nothing that mentions one of the names gets past the blocker. -/
theorem mentions_open {names : NameSet} {b c : Blocker} {stm : Stm}
    (h : (((Blocker.mentions names).or b).or c).blocks stm stm.free = false) : ∀ v ∈ names, v ∉ stm.free := by
  intro v named free
  rw [blocks_or, blocks_or, Bool.or_eq_false_iff, Bool.or_eq_false_iff, blocks] at h
  have none := List.any_eq_false.mp h.1.1 v free
  exact none (decide_eq_true named)

theorem mentioning_open {names : List Name} {b c : Blocker} {stm : Stm}
    (h : (((Blocker.mentioning names).or b).or c).blocks stm stm.free = false) : ∀ v ∈ names, v ∉ stm.free :=
  fun v named => mentions_open h v (NameSet.mem_ofList.mpr named)

end Blocker

/-- What leaves a body got past the blocker, and what leaves it and the rest are in scope. -/
structure BodySimplifier.Scoping (inner : BodySimplifier) : Prop where
  passes : ∀ {scope blocker body p hoisted body' q}, inner scope blocker body p = .ok ((hoisted, body'), q) →
    ∀ stm ∈ hoisted, blocker.blocks stm stm.free = false
  moves : ∀ {scope blocker body p hoisted body' q} {S : Scope}, inner scope blocker body p = .ok ((hoisted, body'), q) →
    scope.Within S → Fits S p.names.next body.bound → body.Scoped S →
    Moves S p.names.next q.names.next body.bound hoisted body'.bound body'.Scoped

section
variable {S : Scope} {s : Simplifier} {inner : BodySimplifier} {scope : SymbolTable} {blocker : Blocker} {p q : Progress}
  {hoisted : List Stm}

/-- A body under some names, with a blocker that keeps what mentions them. -/
theorem BodySimplifier.Scoping.under (h : inner.Scoping) (names : List Name) {body body' : Body}
    (ran : inner scope blocker body p = .ok ((hoisted, body'), q)) (within : scope.Within S)
    (fits : Fits S p.names.next (names ++ body.bound)) (inside : body.Scoped (S.bind names))
    (silent : ∀ stm : Stm, blocker.blocks stm stm.free = false → ∀ v ∈ names, v ∉ stm.free) :
    Moves S p.names.next q.names.next body.bound hoisted body'.bound fun T => body'.Scoped (T.bind names) :=
  (h.moves ran (within.mono fun _ => .inl) fits.enter inside).leave fits fun stm mem => silent stm (h.passes ran stm mem)

namespace Simplifier

/-- The parameters of an operator keep their names, and what leaves its body leaves the operator. -/
theorem lambdaWith_moves (h : inner.Scoping) {op op' : Lambda} {leading : Nat}
    (ran : lambdaWith inner scope blocker op p = .ok ((hoisted, op'), q)) (within : scope.Within S)
    (fits : Fits S p.names.next op.bound) (inside : op.Scoped S leading) :
    op'.params.map Binder.name = op.params.map Binder.name ∧
      Moves S p.names.next q.names.next op.body.bound hoisted op'.body.bound fun T => op'.Scoped T leading := by
  obtain ⟨⟨left, body⟩, between, swept, ran⟩ := Pass.bind_eq_ok.mp ran
  obtain ⟨same, rfl⟩ := Pass.pure_eq_ok.mp ran
  cases same
  obtain ⟨first, others, typed, inside⟩ := op.scoped_iff.mp inside
  have names := SymbolTable.names_map_resolveBinder (t := scope) op.params
  have moves := h.under (op.params.map Binder.name) swept (within.bindParams _) (op.bound_eq ▸ fits) inside
    fun stm passes => names ▸ Blocker.mentioning_open passes
  refine ⟨names, moves.imp fun T more inside => ?_⟩
  have within := within.mono more
  have outer (v : Name) (mem : S.bind ((op.params.take leading).map Binder.name) v) :
      T.bind ((op.params.take leading).map Binder.name) v := mem.imp_left (more v)
  refine (Lambda.scoped_iff _).mpr ⟨?_, fun b mem => ?_, ?_, names ▸ inside⟩
  · rw [← List.map_take]
    exact within.binders (first.mono more)
  · rw [← List.map_drop] at mem
    obtain ⟨old, among, rfl⟩ := List.mem_map.mp mem
    rw [← List.map_take, SymbolTable.names_map_resolveBinder]
    exact (within.mono fun _ => .inl).binder ((others old among).mono outer)
  · rw [← List.map_take, SymbolTable.names_map_resolveBinder]
    exact (within.mono fun _ => .inl).types (typed.mono outer)

theorem mapScope_within (within : scope.Within S) (k : MapKernel) : (mapScope scope k).Within S := by
  have indexed := List.foldlRecOn (motive := SymbolTable.Within S) k.space (fun t d => t.bindIndex d.1 d.2)
    (within.bindIndex k.thread k.width) fun t h d _ => h.bindIndex d.1 d.2
  refine indexed.extend fun b mem => ?_
  obtain ⟨i, _, rfl⟩ := List.mem_map.mp mem
  rfl

/-- The kernel with all that it mentions outside its body resolved. -/
def resolveMap (scope : SymbolTable) (k : MapKernel) : MapKernel :=
  { k with
    certs := scope.resolveCerts k.certs
    width := scope.resolveOperand k.width
    space := k.space.map fun d => (d.1, scope.resolveOperand d.2)
    inputs := k.inputs.map (resolveInput scope)
    returns := k.returns.map fun r => (scope.resolveTy r.1, r.2) }

theorem placeNames_resolveMap (scope : SymbolTable) (k : MapKernel) : (resolveMap scope k).placeNames = k.placeNames := by
  simp only [MapKernel.placeNames, resolveMap, List.map_map]
  rfl

theorem threadNames_resolveMap (scope : SymbolTable) (k : MapKernel) : (resolveMap scope k).threadNames = k.threadNames := by
  rw [MapKernel.threadNames_eq, MapKernel.threadNames_eq, placeNames_resolveMap, resolveMap, List.map_map]
  rfl

theorem sweepMap_moves (h : inner.Scoping) {k k' : MapKernel} (ran : s.sweepMap inner scope k p = .ok ((hoisted, k'), q))
    (within : scope.Within S) (fits : Fits S p.names.next (Kernel.map k).bound) (inside : (Kernel.map k).Scoped S) :
    k'.threadNames = k.threadNames ∧
      Moves S p.names.next q.names.next k.body.bound hoisted k'.body.bound (Kernel.map k').Scoped := by
  change (inner (mapScope scope (resolveMap scope k)) _ k.body >>= fun r => pure (r.1, { resolveMap scope k with body := r.2 })) p = _ at ran
  obtain ⟨⟨left, body⟩, between, swept, ran⟩ := Pass.bind_eq_ok.mp ran
  obtain ⟨same, rfl⟩ := Pass.pure_eq_ok.mp ran
  cases same
  obtain ⟨operands, inputs, inside⟩ := (Kernel.scoped_map k).mp inside
  have moves := h.under k.threadNames swept (mapScope_within within _) (Kernel.bound_map k ▸ fits) inside
    fun stm passes => threadNames_resolveMap scope k ▸ Blocker.mentioning_open passes
  refine ⟨threadNames_resolveMap scope k, moves.imp fun T more inside => (Kernel.scoped_map _).mpr ⟨?_, fun i mem => ?_, ?_⟩⟩
  · have within := within.mono more
    have extents : (resolveMap scope k).extents = scope.resolveOperands k.extents := by
      simp only [MapKernel.extents, resolveMap, SymbolTable.resolveOperands, List.map_map]
      rfl
    have returns : (resolveMap scope k).returns.map Prod.fst = (k.returns.map Prod.fst).map scope.resolveTy := by
      simp only [resolveMap, List.map_map]
      rfl
    have operands := operands.mono more
    simp only [InScope.union_iff] at operands ⊢
    refine ⟨⟨⟨within.certs operands.1.1.1, within.operand operands.1.1.2⟩, extents ▸ within.operands operands.1.2⟩, ?_⟩
    exact returns ▸ within.types operands.2
  · obtain ⟨old, among, rfl⟩ := List.mem_map.mp mem
    change InScope (T.bind (resolveMap scope k).placeNames) _
    rw [placeNames_resolveMap]
    have within : scope.Within (T.bind k.placeNames) := within.mono fun v mem => .inl (more v mem)
    have input := (inputs old among).mono fun v mem => mem.imp_left (more v)
    simp only [MapInput.free, InScope.union_iff, InScope.singleton_iff] at input ⊢
    exact ⟨⟨within.name input.1.1, within.operands input.1.2⟩, within.binder input.2⟩
  · change body.Scoped (T.bind (resolveMap scope k).threadNames)
    rw [threadNames_resolveMap]
    exact inside

end Simplifier

end

/-! Group kernels -/

namespace GroupStm

/-- The names that the statement binds, with the parameters of its operator. -/
def own : GroupStm → List Name
  | .reduce pat _ op _ => pat.names ++ op.params.map Binder.name
  | stm => stm.names

/-- The names that are bound in the body of the statement or of its operator. -/
def inside : GroupStm → List Name
  | .split .. => []
  | .thread _ _ body => body.bound
  | .reduce _ _ op _ => op.body.bound

theorem bound_eq_own (stm : GroupStm) : stm.bound = stm.own ++ stm.inside := by
  cases stm with
  | split size chunks division width perThread arrays => simp [bound, own, names, inside]
  | thread pat only body => rfl
  | reduce pat width op inputs => rw [bound, own, inside, Lambda.bound_eq, List.append_assoc]

end GroupStm

theorem boundInGroupStms_eq (stms : List GroupStm) : boundInGroupStms stms = stms.flatMap GroupStm.bound := by
  induction stms with
  | nil => rfl
  | cons stm stms ih => rw [boundInGroupStms, List.flatMap_cons, ih]

theorem boundInGroupStms_perm (stms : List GroupStm) :
    (boundInGroupStms stms).Perm (stms.flatMap GroupStm.own ++ stms.flatMap GroupStm.inside) := by
  have divided : GroupStm.bound = fun stm => stm.own ++ stm.inside := funext GroupStm.bound_eq_own
  rw [boundInGroupStms_eq, divided]
  exact (List.flatMap_append_perm stms _ _).symm

section
variable {S : Scope} {after : NameSet} {stms : List GroupStm}

theorem groupStmsScoped_iff :
    GroupStmsScoped S after stms ↔ GroupStmsScoped S ∅ stms ∧ InScope (S.bind (stms.flatMap GroupStm.names)) after := by
  induction stms generalizing S with
  | nil => simp [GroupStmsScoped, Scope.bind_nil]
  | cons stm stms ih => rw [GroupStmsScoped, GroupStmsScoped, ih, List.flatMap_cons, Scope.bind_append, and_assoc]

theorem Simplifier.liveGroupStms_sublist (result : List GroupResult) (stms : List GroupStm) :
    (liveGroupStms result stms).2.Sublist stms := by
  induction stms with
  | nil => exact .slnil
  | cons stm stms ih =>
    dsimp only [liveGroupStms]
    split
    · exact ih.cons_cons stm
    · exact ih.cons stm

/-- The statements that are dropped are not mentioned by the others. -/
theorem Simplifier.liveGroupStms_scoped {result : List GroupResult} (distinct : (boundInGroupStms stms).Nodup)
    (inside : GroupStmsScoped S (NameSet.gather GroupResult.free result) stms) :
    GroupStmsScoped S (NameSet.gather GroupResult.free result) (liveGroupStms result stms).2 ∧
      ∀ v ∈ freeBeforeGroup (NameSet.gather GroupResult.free result) (liveGroupStms result stms).2,
        v ∈ (liveGroupStms result stms).1 := by
  induction stms generalizing S with
  | nil => exact ⟨inside, fun v mem => mem⟩
  | cons stm stms ih =>
    rw [boundInGroupStms, List.nodup_append] at distinct
    obtain ⟨_, distinct, apart⟩ := distinct
    obtain ⟨live, covers⟩ := ih distinct inside.2
    dsimp only [liveGroupStms]
    split
    · refine ⟨⟨inside.1, live⟩, fun v mem => ?_⟩
      rw [freeBeforeGroup, NameSet.mem_union, NameSet.mem_without] at mem
      exact NameSet.mem_union.mpr (mem.imp_left fun later => covers v later.1)
    · rename_i unused
      refine ⟨GroupStmsScoped.narrow _ (fun v mem mentioned => ?_) live, covers⟩
      rcases mem with visible | own
      · exact visible
      · exfalso
        rcases mentioned with free | binds
        · exact unused (List.any_eq_true.mpr ⟨v, own, decide_eq_true (covers v free)⟩)
        · refine apart v ?_ v ?_ rfl
          · rw [stm.bound_eq]
            exact List.mem_append_left _ own
          · rw [boundInGroupStms_eq] at binds ⊢
            exact ((liveGroupStms_sublist result stms).flatMap _).subset binds

end

section
variable {S : Scope} {s : Simplifier} {inner : BodySimplifier} {scope scope' : SymbolTable} {bound : NameSet} {own : List Name}
  {p q : Progress} {hoisted : List Stm}

namespace Simplifier

theorem splitEntries_plain {size : Binder} {chunks : List Binder} {perThread : Operand} {arrays : List Name} :
    ∀ e ∈ splitEntries scope size chunks perThread arrays, e.2.defn = none := by
  intro e mem
  rcases List.mem_cons.mp mem with rfl | mem
  · rfl
  · obtain ⟨_, _, rfl⟩ := List.mem_map.mp mem
    rfl

theorem threadEntries_plain {pat : Pattern} {body : Body} : ∀ e ∈ threadEntries scope bound pat body, e.2.defn = none := by
  intro e mem
  rcases List.mem_append.mp mem with mem | mem
  · obtain ⟨⟨b, x⟩, _, rfl⟩ := List.mem_map.mp mem
    cases x <;> rfl
  · obtain ⟨_, _, rfl⟩ := List.mem_map.mp mem
    rfl

/-- A statement behind some names of the kernel: nothing that mentions them leaves it. -/
theorem groupStm_moves (h : inner.Scoping) {stm stm' : GroupStm}
    (ran : s.groupStm inner scope bound stm p = .ok ((hoisted, stm', scope'), q)) (within : scope.Within S)
    (fits : Fits S p.names.next (own ++ stm.bound)) (inside : stm.Scoped (S.bind own)) (listed : ∀ v ∈ own, v ∈ bound) :
    stm'.names = stm.names ∧ stm'.own = stm.own ∧ scope'.Within S ∧
      Moves S p.names.next q.names.next stm.inside hoisted stm'.inside fun T => stm'.Scoped (T.bind own) := by
  have widen {T : Scope} (more : ∀ v, S v → T v) (v : Name) (mem : S.bind own v) : T.bind own v := mem.imp_left (more v)
  have within' {T : Scope} (more : ∀ v, S v → T v) : scope.Within (T.bind own) := within.mono fun v mem => .inl (more v mem)
  cases stm with
  | split size chunks division width perThread arrays =>
    obtain ⟨same, rfl⟩ := Pass.pure_eq_ok.mp ran
    cases same
    have names : (scope.resolveBinder size).name :: (chunks.map scope.resolveBinder).map Binder.name =
        size.name :: chunks.map Binder.name := by
      rw [SymbolTable.names_map_resolveBinder]
      rfl
    refine ⟨names, names, within.extend splitEntries_plain, .stay _ fun T more => ⟨?_, fun b mem => ?_⟩⟩
    · have operands := inside.1.mono (widen more)
      simp only [InScope.union_iff] at operands ⊢
      exact ⟨⟨⟨(within' more).binder operands.1.1.1, (within' more).operand operands.1.1.2⟩, (within' more).operand operands.1.2⟩,
        (within' more).names operands.2⟩
    · obtain ⟨old, among, rfl⟩ := List.mem_map.mp mem
      exact ((within' more).mono fun _ => .inl).binder ((inside.2 old among).mono fun v mem => mem.imp_left (widen more v))
  | thread pat only body =>
    obtain ⟨⟨left, body'⟩, between, swept, ran⟩ := Pass.bind_eq_ok.mp ran
    obtain ⟨same, rfl⟩ := Pass.pure_eq_ok.mp ran
    cases same
    have names := SymbolTable.names_resolvePattern (t := scope) pat
    obtain ⟨guard, typed, inside⟩ := inside
    have apart : Fits S p.names.next (own ++ body.bound) := fits.part fun v => by
      simp only [GroupStm.bound, List.count_append]
      omega
    have moves := h.under own swept within apart inside fun stm passes v mem => Blocker.mentions_open passes v (listed v mem)
    refine ⟨names, names, within.extend threadEntries_plain, moves.imp fun T more inside => ⟨?_, ?_, inside⟩⟩
    · have operands := (within' more).operands (guard.mono (widen more))
      cases only <;> exact operands
    · exact (within' more).pattern (typed.mono (widen more))
  | reduce pat width op inputs =>
    obtain ⟨⟨left, op'⟩, between, swept, ran⟩ := Pass.bind_eq_ok.mp ran
    dsimp only at ran
    split at ran
    · rename_i none
      obtain ⟨same, rfl⟩ := Pass.pure_eq_ok.mp ran
      cases same
      obtain rfl := List.isEmpty_iff.mp none
      have names := SymbolTable.names_resolvePattern (t := scope) pat
      obtain ⟨operands, typed, inside⟩ := inside
      have apart : Fits S p.names.next (own ++ op.bound) := fits.part fun v => by
        simp only [GroupStm.bound, List.count_append]
        omega
      obtain ⟨params, moves⟩ := lambdaWith_moves h swept (within.mono fun _ => .inl) apart.enter inside
      have outer : Fits S p.names.next (own ++ op.body.bound) := apart.part fun v => by
        simp only [Lambda.bound_eq, List.count_append]
        omega
      have moves := moves.leave outer fun _ mem => absurd mem List.not_mem_nil
      refine ⟨names, ?_, within.bindParams _, moves.imp fun T more inside => ⟨?_, ?_, inside⟩⟩
      · rw [GroupStm.own, GroupStm.own, names, params]
      · have operands := operands.mono (widen more)
        simp only [InScope.union_iff] at operands ⊢
        exact ⟨(within' more).operand operands.1, (within' more).pairs operands.2⟩
      · exact (within' more).pattern (typed.mono (widen more))
    · cases ran

/-- The statements of a kernel, with the names that are bound before them. -/
theorem groupStms_moves (h : inner.Scoping) {stms stms' : List GroupStm}
    (ran : s.groupStms inner scope bound stms p = .ok ((hoisted, stms', scope'), q)) (within : scope.Within S)
    (fits : Fits S p.names.next (own ++ boundInGroupStms stms)) (inside : GroupStmsScoped (S.bind own) ∅ stms)
    (listed : ∀ v ∈ own, v ∈ bound) :
    stms'.flatMap GroupStm.names = stms.flatMap GroupStm.names ∧ stms'.flatMap GroupStm.own = stms.flatMap GroupStm.own ∧
      scope'.Within S ∧
      Moves S p.names.next q.names.next (stms.flatMap GroupStm.inside) hoisted (stms'.flatMap GroupStm.inside) fun T =>
        GroupStmsScoped (T.bind own) ∅ stms' := by
  induction stms generalizing scope bound own p hoisted stms' with
  | nil =>
    obtain ⟨same, rfl⟩ := Pass.pure_eq_ok.mp ran
    cases same
    exact ⟨rfl, rfl, within, .stay _ fun _ _ => InScope.empty⟩
  | cons stm stms ih =>
    obtain ⟨⟨left, stm', scope₁⟩, between, swept, ran⟩ := Pass.bind_eq_ok.mp ran
    obtain ⟨⟨more, rest, scope₂⟩, last, sweptRest, ran⟩ := Pass.bind_eq_ok.mp ran
    obtain ⟨same, rfl⟩ := Pass.pure_eq_ok.mp ran
    cases same
    rw [boundInGroupStms] at fits
    have here : Fits S p.names.next (own ++ stm.bound) := by
      rw [← List.append_assoc] at fits
      exact fits.left
    obtain ⟨names, owned, within, moves⟩ := groupStm_moves h swept within here inside.1 listed
    have behind : Fits S between.names.next ((own ++ stm.names) ++ boundInGroupStms stms) := (fits.later moves.grows).part fun v => by
      simp only [stm.bound_eq, List.count_append]
      omega
    have inside : GroupStmsScoped (S.bind (own ++ stm.names)) ∅ stms := by
      rw [Scope.bind_append]
      exact inside.2
    obtain ⟨namesRest, ownedRest, within, movesRest⟩ := ih sweptRest within behind inside fun v mem => by
      rw [NameSet.mem_insertAll, names]
      exact (List.mem_append.mp mem).imp_left (listed v)
    refine ⟨?_, ?_, within, ?_⟩
    · rw [List.flatMap_cons, List.flatMap_cons, names, namesRest]
    · rw [List.flatMap_cons, List.flatMap_cons, owned, ownedRest]
    · refine (moves.append movesRest).imp fun T _ both => ⟨both.1, ?_⟩
      have later := both.2
      rwa [Scope.bind_append, ← names] at later

theorem resolveResult_free (within : scope.Within S) {r : GroupResult} (inside : InScope S r.free) :
    InScope S (resolveResult scope r).free := by
  cases r with
  | row value => exact within.operand inside
  | write index value =>
    simp only [GroupResult.free, resolveResult, InScope.union_iff] at inside ⊢
    exact ⟨within.operand inside.1, within.operand inside.2⟩
  | chunks division width perThread array =>
    simp only [GroupResult.free, resolveResult, InScope.union_iff, InScope.singleton_iff] at inside ⊢
    exact ⟨⟨within.operand inside.1.1, within.operand inside.1.2⟩, within.name inside.2⟩

theorem groupBody_moves (h : inner.Scoping) {names : List Name} {body body' : GroupBody}
    (ran : s.groupBody inner scope names body p = .ok ((hoisted, body'), q)) (within : scope.Within S)
    (fits : Fits S p.names.next (names ++ boundInGroupStms body.stms))
    (inside : GroupStmsScoped (S.bind names) (NameSet.gather GroupResult.free body.result) body.stms) :
    (body'.stms.flatMap GroupStm.own).Sublist (body.stms.flatMap GroupStm.own) ∧
      Moves S p.names.next q.names.next (body.stms.flatMap GroupStm.inside) hoisted (body'.stms.flatMap GroupStm.inside) fun T =>
        GroupStmsScoped (T.bind names) (NameSet.gather GroupResult.free body'.result) body'.stms := by
  obtain ⟨⟨left, stms, scope'⟩, between, swept, ran⟩ := Pass.bind_eq_ok.mp ran
  obtain ⟨same, rfl⟩ := Pass.pure_eq_ok.mp ran
  cases same
  obtain ⟨inside, results⟩ := groupStmsScoped_iff.mp inside
  obtain ⟨named, owned, within, moves⟩ := groupStms_moves h swept within fits inside fun v mem => NameSet.mem_ofList.mpr mem
  have live := liveGroupStms_sublist (body.result.map (resolveResult scope')) stms
  have distinct : (boundInGroupStms stms).Nodup := by
    have all := ((moves.under (body.stms.flatMap GroupStm.own)).fits (fits.right.part fun v => ?_)).right.distinct
    · rw [← owned] at all
      exact (boundInGroupStms_perm stms).nodup_iff.mpr all
    · exact Nat.le_of_eq ((boundInGroupStms_perm body.stms).count_eq v).symm
  refine ⟨owned ▸ live.flatMap GroupStm.own, ?_⟩
  refine { moves with counts := fun v => ?_, after := fun T part => (liveGroupStms_scoped distinct ?_).1 }
  · have count := moves.counts v
    have fewer := (live.flatMap GroupStm.inside).count_le v
    dsimp only [dropDeadGroupStms] at count ⊢
    omega
  · have more (v : Name) (mem : S v) : T v := part v (.inl mem)
    refine groupStmsScoped_iff.mpr ⟨moves.after T part, ?_⟩
    rw [InScope.gather_iff] at results ⊢
    intro r mem
    obtain ⟨old, among, rfl⟩ := List.mem_map.mp mem
    rw [named]
    refine resolveResult_free (within.mono fun v mem => .inl (.inl (more v mem))) ((results old among).mono fun v mem => ?_)
    exact mem.imp_left fun outer => outer.imp_left (more v)

end Simplifier

end

/-! Kernels and expressions -/

namespace Kernel

/-- The names of the threads of a kernel: those of a thread and its inputs, the parameters of its operators, and the names
of the statements of a group kernel. -/
def own : Kernel → List Name
  | .map k => k.threadNames
  | .scan k => k.combine.params.map Binder.name ++ k.fold.params.map Binder.name
  | .chunked k => k.op.params.map Binder.name
  | .scatter k => k.op.params.map Binder.name
  | .group k => k.space.names ++ k.body.stms.flatMap GroupStm.own
  | .numGroups => []
  | .groupSize => []

/-- The names that are bound in the bodies of a kernel. -/
def inside : Kernel → List Name
  | .map k => k.body.bound
  | .scan k => k.combine.body.bound ++ k.fold.body.bound
  | .chunked k => k.op.body.bound
  | .scatter k => k.op.body.bound
  | .group k => k.body.stms.flatMap GroupStm.inside
  | .numGroups => []
  | .groupSize => []

theorem bound_perm (k : Kernel) : k.bound.Perm (k.own ++ k.inside) := by
  cases k with
  | map k => rw [bound_map, own, inside]
  | scan k =>
    rw [bound_scan, own, inside, Lambda.bound_eq, Lambda.bound_eq, List.append_assoc, List.append_assoc]
    exact (List.perm_append_comm_assoc _ _ _).append_left _
  | chunked k => rw [bound_chunked, own, inside, Lambda.bound_eq]
  | scatter k => rw [bound_scatter, own, inside, Lambda.bound_eq]
  | group k =>
    rw [bound_group, own, inside, List.append_assoc]
    exact (boundInGroupStms_perm _).append_left _
  | numGroups => exact .nil
  | groupSize => exact .nil

end Kernel

section
variable {S : Scope} {s : Simplifier} {inner : BodySimplifier} {scope : SymbolTable} {p q : Progress} {hoisted : List Stm}

namespace Simplifier

theorem groupScope_within (within : scope.Within S) (size : LaunchSize) (space : ThreadNames) : (groupScope scope size space).Within S :=
  ((within.bindIndex _ _).bindIndex _ _).bindIndex _ _

/-- A kernel keeps its own names, and what leaves its bodies leaves the kernel. -/
theorem kernel_moves (h : inner.Scoping) {k k' : Kernel} (ran : s.kernel inner scope k p = .ok ((hoisted, k'), q))
    (within : scope.Within S) (fits : Fits S p.names.next k.bound) (inside : k.Scoped S) :
    k'.own.Sublist k.own ∧ Moves S p.names.next q.names.next k.inside hoisted k'.inside k'.Scoped := by
  cases k with
  | map k =>
    obtain ⟨⟨left, k'⟩, between, swept, ran⟩ := Pass.bind_eq_ok.mp ran
    obtain ⟨same, rfl⟩ := Pass.pure_eq_ok.mp ran
    cases same
    obtain ⟨names, moves⟩ := sweepMap_moves h swept within fits inside
    refine ⟨?_, moves⟩
    rw [Kernel.own, Kernel.own, names]
  | scan k =>
    obtain ⟨⟨left, combine⟩, between, sweptCombine, ran⟩ := Pass.bind_eq_ok.mp ran
    obtain ⟨⟨more, fold⟩, last, sweptFold, ran⟩ := Pass.bind_eq_ok.mp ran
    obtain ⟨same, rfl⟩ := Pass.pure_eq_ok.mp ran
    cases same
    obtain ⟨operands, insideCombine, insideFold⟩ := (Kernel.scoped_scan k).mp inside
    rw [Kernel.bound_scan] at fits
    obtain ⟨namesCombine, movesCombine⟩ := lambdaWith_moves h sweptCombine within fits.left insideCombine
    obtain ⟨namesFold, movesFold⟩ := lambdaWith_moves h sweptFold within (fits.right.later movesCombine.grows) insideFold
    constructor
    · rw [Kernel.own, Kernel.own, namesCombine, namesFold]
    · refine (movesCombine.append movesFold).imp fun T more both => (Kernel.scoped_scan _).mpr ⟨?_, both⟩
      have operands := operands.mono more
      have within := within.mono more
      simp only [InScope.union_iff] at operands ⊢
      exact ⟨⟨⟨⟨within.certs operands.1.1.1.1, within.operand operands.1.1.1.2⟩, within.size operands.1.1.2⟩,
        within.operands operands.1.2⟩, within.names operands.2⟩
  | chunked k =>
    obtain ⟨⟨left, op⟩, between, swept, ran⟩ := Pass.bind_eq_ok.mp ran
    obtain ⟨same, rfl⟩ := Pass.pure_eq_ok.mp ran
    cases same
    obtain ⟨operands, inside⟩ := (Kernel.scoped_chunked k).mp inside
    obtain ⟨names, moves⟩ := lambdaWith_moves h swept within (Kernel.bound_chunked k ▸ fits) inside
    constructor
    · rw [Kernel.own, Kernel.own, names]
    · refine moves.imp fun T more op => (Kernel.scoped_chunked _).mpr ⟨?_, op⟩
      have operands := operands.mono more
      have within := within.mono more
      simp only [InScope.union_iff] at operands ⊢
      exact ⟨⟨⟨within.certs operands.1.1.1, within.operand operands.1.1.2⟩, within.size operands.1.2⟩, within.names operands.2⟩
  | scatter k =>
    obtain ⟨⟨left, op⟩, between, swept, ran⟩ := Pass.bind_eq_ok.mp ran
    obtain ⟨same, rfl⟩ := Pass.pure_eq_ok.mp ran
    cases same
    obtain ⟨operands, inside⟩ := (Kernel.scoped_scatter k).mp inside
    obtain ⟨names, moves⟩ := lambdaWith_moves h swept within (Kernel.bound_scatter k ▸ fits) inside
    constructor
    · rw [Kernel.own, Kernel.own, names]
    · refine moves.imp fun T more op => (Kernel.scoped_scatter _).mpr ⟨?_, op⟩
      have operands := operands.mono more
      have within := within.mono more
      simp only [InScope.union_iff] at operands ⊢
      exact ⟨⟨⟨within.certs operands.1.1.1, within.operand operands.1.1.2⟩, within.names operands.1.2⟩, within.pairs operands.2⟩
  | group k =>
    obtain ⟨⟨left, body⟩, between, swept, ran⟩ := Pass.bind_eq_ok.mp ran
    obtain ⟨same, rfl⟩ := Pass.pure_eq_ok.mp ran
    cases same
    obtain ⟨operands, inside⟩ := (Kernel.scoped_group k).mp inside
    obtain ⟨names, moves⟩ := groupBody_moves h swept (groupScope_within within _ _) (Kernel.bound_group k ▸ fits) inside
    refine ⟨names.append_left _, moves.imp fun T more body => (Kernel.scoped_group _).mpr ⟨?_, body⟩⟩
    have operands := operands.mono more
    have within := within.mono more
    simp only [InScope.union_iff] at operands ⊢
    exact ⟨⟨within.certs operands.1.1, within.size operands.1.2⟩, within.types operands.2⟩
  | numGroups =>
    obtain ⟨same, rfl⟩ := Pass.pure_eq_ok.mp ran
    cases same
    exact ⟨.refl _, .stay _ fun _ _ => trivial⟩
  | groupSize =>
    obtain ⟨same, rfl⟩ := Pass.pure_eq_ok.mp ran
    cases same
    exact ⟨.refl _, .stay _ fun _ _ => trivial⟩

theorem fst_resolveMerge (merge : List (Binder × Operand)) :
    (resolveMerge scope merge).map Prod.fst = (merge.map Prod.fst).map scope.resolveBinder := by
  simp only [resolveMerge, List.map_map]
  rfl

theorem names_resolveMerge (merge : List (Binder × Operand)) :
    (resolveMerge scope merge).map (fun m => m.1.name) = merge.map fun m => m.1.name := by
  simp only [resolveMerge, List.map_map]
  rfl

theorem snd_resolveMerge (merge : List (Binder × Operand)) :
    (resolveMerge scope merge).map Prod.snd = scope.resolveOperands (merge.map Prod.snd) := by
  simp only [resolveMerge, SymbolTable.resolveOperands, List.map_map]
  rfl

/-- An expression without bodies stays where it is. -/
theorem leaf_moves {e : Exp} {n : Nat} {bound : List Name} (leaf : e.isNested = false) (free : InScope S e.free) :
    Moves S n n bound [] e.bound e.Scoped := by
  refine .inPlace (Nat.le_refl n) (fun v => ?_) fun T more => (Exp.scoped_iff_of_leaf leaf).mpr (free.mono more)
  rw [Exp.bound_of_leaf leaf]
  exact Nat.zero_le _

/-- What leaves the bodies of an expression leaves the expression. -/
theorem exp_moves (h : inner.Scoping) {e e' : Exp} (ran : s.exp inner scope e p = .ok ((hoisted, e'), q))
    (within : scope.Within S) (fits : Fits S p.names.next e.bound) (inside : e.Scoped S) :
    Moves S p.names.next q.names.next e.bound hoisted e'.bound e'.Scoped := by
  cases e with
  | branch cond onTrue onFalse ret =>
    obtain ⟨⟨left, onTrue'⟩, between, sweptTrue, ran⟩ := Pass.bind_eq_ok.mp ran
    obtain ⟨⟨more, onFalse'⟩, last, sweptFalse, ran⟩ := Pass.bind_eq_ok.mp ran
    obtain ⟨same, rfl⟩ := Pass.pure_eq_ok.mp ran
    cases same
    obtain ⟨operands, insideTrue, insideFalse⟩ := inside
    have movesTrue := h.moves sweptTrue within fits.left insideTrue
    have movesFalse := h.moves sweptFalse within (fits.right.later movesTrue.grows) insideFalse
    refine (movesTrue.append movesFalse).imp fun T more both => ⟨?_, both⟩
    have operands := operands.mono more
    have within := within.mono more
    rw [InScope.union_iff] at operands ⊢
    exact ⟨within.operand operands.1, within.types operands.2⟩
  | loop context values index bound body =>
    obtain ⟨⟨left, body'⟩, between, swept, ran⟩ := Pass.bind_eq_ok.mp ran
    obtain ⟨same, rfl⟩ := Pass.pure_eq_ok.mp ran
    cases same
    obtain ⟨operands, params, inside⟩ := inside
    have merged : resolveMerge scope context ++ resolveMerge scope values = resolveMerge scope (context ++ values) :=
      List.map_append.symm
    rw [merged] at swept
    have names : (resolveMerge scope (context ++ values)).map (fun m => m.1.name) = (context ++ values).map fun m => m.1.name :=
      names_resolveMerge _
    have moves := h.under ((context ++ values).map (fun m => m.1.name) ++ [index]) swept
      ((within.bindParams _).bindIndex _ _) fits inside fun stm passes => by
        have silent := Blocker.mentioning_open passes
        rw [List.map_map] at silent
        exact names ▸ silent
    have moves := moves.under ((context ++ values).map (fun m => m.1.name) ++ [index])
    simp only [Exp.bound, merged, names]
    refine moves.imp fun T more inside => ?_
    have within := within.mono more
    simp only [Exp.Scoped, merged, names, fst_resolveMerge, snd_resolveMerge]
    refine ⟨?_, within.binders (params.mono more), inside⟩
    have operands := operands.mono more
    rw [InScope.union_iff] at operands ⊢
    exact ⟨within.operands operands.1, within.operand operands.2⟩
  | launch k =>
    obtain ⟨⟨left, k'⟩, between, swept, ran⟩ := Pass.bind_eq_ok.mp ran
    obtain ⟨same, rfl⟩ := Pass.pure_eq_ok.mp ran
    cases same
    obtain ⟨fewer, moves⟩ := kernel_moves h swept within fits inside
    refine { moves with counts := fun v => ?_ }
    have count := moves.counts v
    have own := fewer.count_le v
    have old := k.bound_perm.count_eq v
    have new := k'.bound_perm.count_eq v
    simp only [Exp.bound, List.count_append] at old new ⊢
    omega
  | operand | binary | compare | index | update | iota | replicate | reshape | rearrange | copy | alloc =>
    obtain ⟨same, rfl⟩ := Pass.pure_eq_ok.mp ran
    cases same
    refine leaf_moves rfl ?_
    simp only [Exp.Scoped, Exp.free, InScope.union_iff, InScope.singleton_iff] at inside ⊢
    grind [SymbolTable.Within.operand, SymbolTable.Within.operands, SymbolTable.Within.name]

/-! Bodies -/

theorem stm_moves (h : inner.Scoping) {stm stm' : Stm} (ran : s.stm inner scope stm p = .ok ((hoisted, stm'), q))
    (within : scope.Within S) (fits : Fits S p.names.next stm.bound) (inside : stm.Scoped S) :
    Moves S p.names.next q.names.next stm.bound (hoisted ++ [stm']) [] fun T => ∀ v ∈ stm.pat.names, T v := by
  obtain ⟨⟨left, e⟩, between, swept, ran⟩ := Pass.bind_eq_ok.mp ran
  obtain ⟨same, rfl⟩ := Pass.pure_eq_ok.mp ran
  cases same
  have moves := Moves.ofExp hoisted (exp_moves h swept within fits.right inside.2.2) (within.certs inside.1)
    (within.pattern inside.2.1)
  rw [SymbolTable.names_resolvePattern] at moves
  exact moves

/-- A step of the work on a queue keeps the level in scope. -/
theorem level_kept (h : inner.Scoping) (rules : s.rules.Scoping) (blocker : Blocker) {n : Nat} {bound : List Name} {after : NameSet}
    (fits : Fits S n bound) :
    Kept (fun queue level p => level.Scoping S n bound after queue p.names.next) (fun level stm => s.fireDown level.scope stm)
      (s.settle inner blocker) where
  replaced := by
    intro stm queue level new p q holds fired
    unfold fireDown at fired
    split at fired
    · rename_i found
      cases fired
      exact holds.replace (rules.down found holds.table (holds.first_fits fits) holds.first)
    · cases fired
  passed := by
    intro stm queue level p q holds fired
    unfold fireDown at fired
    split at fired
    · cases fired
    · cases fired
      exact holds
  settled := by
    intro stm queue level next p q holds ran
    obtain ⟨⟨left, stm'⟩, between, swept, ran⟩ := Pass.bind_eq_ok.mp ran
    obtain ⟨rfl, rfl⟩ := Pass.pure_eq_ok.mp ran
    exact (holds.replace (stm_moves h swept holds.table (holds.first_fits fits) holds.first)).addAll fits blocker

theorem passes_kept (blocker : Blocker) :
    Kept (fun _ level _ => level.Passes blocker) (fun level stm => s.fireDown level.scope stm) (s.settle inner blocker) := by
  refine ⟨fun passes _ => passes, fun passes _ => passes, fun passes settled => ?_⟩
  obtain ⟨⟨left, stm'⟩, _, _, settled⟩ := Pass.bind_eq_ok.mp settled
  obtain ⟨rfl, _⟩ := Pass.pure_eq_ok.mp settled
  exact List.foldlRecOn (motive := Level.Passes blocker) _ _ passes fun level passes stm _ => passes.add stm

/-- A sweep over a body keeps code in scope, if the sweeps over its nested bodies do. -/
theorem sweepBody_scoping (h : inner.Scoping) (rules : s.rules.Scoping) : (s.sweepBody inner).Scoping where
  passes := by
    intro scope blocker body p hoisted body' q ran
    obtain ⟨level, between, drained, ran⟩ := Pass.bind_eq_ok.mp ran
    obtain ⟨⟨usage, stms⟩, last, swept, ran⟩ := Pass.bind_eq_ok.mp ran
    obtain ⟨same, rfl⟩ := Pass.pure_eq_ok.mp ran
    cases same
    exact (passes_kept blocker).drain (fun _ mem => absurd mem List.not_mem_nil) drained
  moves := by
    intro scope blocker body p hoisted body' q S ran within fits inside
    obtain ⟨level, between, drained, ran⟩ := Pass.bind_eq_ok.mp ran
    obtain ⟨⟨usage, stms⟩, last, swept, ran⟩ := Pass.bind_eq_ok.mp ran
    obtain ⟨same, rfl⟩ := Pass.pure_eq_ok.mp ran
    cases same
    have done := (level_kept h rules blocker fits).drain (.start within inside) drained
    obtain ⟨left, apart, kept⟩ := done.finish fits
    obtain ⟨moves, _⟩ := sweepUp_moves rules swept apart kept
    refine ⟨Nat.le_trans done.grows moves.grows, fun v => ?_, left, fun T part => moves.here.mono part⟩
    have before := done.counts v
    have after := moves.counts v
    have both := drawn_add done.grows moves.grows v
    simp only [List.append_nil, boundInStms_append, List.count_append, boundInStms, List.count_nil, Body.bound] at before after ⊢
    omega

/-- A sweep to any depth keeps code in scope. -/
theorem bodyTo_scoping (rules : s.rules.Scoping) (depth : Nat) : (s.bodyTo depth).Scoping := by
  induction depth with
  | zero =>
    constructor
    · intro scope blocker body p hoisted body' q ran
      obtain ⟨same, rfl⟩ := Pass.pure_eq_ok.mp ran
      cases same
      exact fun _ mem => absurd mem List.not_mem_nil
    · intro scope blocker body p hoisted body' q S ran _ _ inside
      obtain ⟨same, rfl⟩ := Pass.pure_eq_ok.mp ran
      cases same
      exact .stay _ fun T more => inside.mono more
  | succ depth ih => exact sweepBody_scoping ih rules

end Simplifier

end

end ArrayKernels
