import ArrayKernels.Proofs.Frames
import ArrayKernels.Proofs.LevelSoundness
import ArrayKernels.Proofs.SweepScoping

/-! Operators and kernels keep their values. In a store in which the definitions of the table and the statements that have
left the bodies hold, a kernel with resolved operands and swept bodies has the values that it had. -/
namespace ArrayKernels

/-! What leaves a body -/

namespace Blocker

/-- What the blocker lets go, a lenient run passes over where it fails. -/
def Guards (how : Leniency) (b : Blocker) : Prop := ∀ (stm : Stm) (free : NameSet), b.blocks stm free = false → stm.Movable how

theorem Guards.or {how : Leniency} {b : Blocker} (h : b.Guards how) (a : Blocker) : (a.or b).Guards how := by
  intro stm free open'
  rw [blocks_or, Bool.or_eq_false_iff] at open'
  exact h stm free open'.2

theorem failing_guards (how : Leniency) : failing.Guards how := by
  intro stm free open'
  have movable : stm.exp.isSpeculable = true := by simpa [blocks] using open'
  rw [Stm.Movable, movable, Bool.or_true]

end Blocker

theorem Simplifier.make_guards (rules : RuleSet) {keepFailing : Bool} {how : Leniency} (careful : how.lax = true ∨ keepFailing = true) :
    (Simplifier.make rules keepFailing).parallel.Guards how := by
  rcases careful with lax | rfl
  · intro stm _ _
    rw [Stm.Movable, lax, Bool.true_or]
  · show ((Blocker.kernels.or .allocs).or .failing).Guards _
    exact (Blocker.failing_guards _).or _

/-- In a store in which the statements that have left a body hold, the rest has the values of the body. -/
structure BodySimplifier.Sound (how : Leniency) (inner : BodySimplifier) : Prop where
  scoping : inner.Scoping
  run : ∀ {scope blocker body p hoisted body' q} {S : Scope}, inner scope blocker body p = .ok ((hoisted, body'), q) →
    scope.Within S → Fits S p.names.next body.bound → body.Scoped S → ∀ {σ vs}, scope.Known how σ → HoldsAll how σ hoisted →
    body.run (.lenient how) σ = .ok vs → body'.run (.lenient how) σ = .ok vs

section
variable {how : Leniency} {S : Scope} {s : Simplifier} {inner : BodySimplifier} {scope : SymbolTable} {blocker : Blocker} {p q : Progress}
  {hoisted : List Stm} {σ τ : Store} {vs : List Value}

/-- What a table says about a store, it says about a store that differs at names out of scope only. -/
theorem SymbolTable.Known.of_sameBut {n : Nat} {names : List Name} (h : scope.Known how σ) (within : scope.Within S)
    (fits : Fits S n names) (same : σ.SameBut names τ) : scope.Known how τ :=
  h.frame within fun v visible => .of_eq (same v fun own => fits.apart v own visible).symm

/-- A body under some names, in a store in which names that it does not bind have been changed. -/
theorem BodySimplifier.Sound.under (h : inner.Sound how) {names changed : List Name} {body body' : Body}
    (ran : inner scope blocker body p = .ok ((hoisted, body'), q)) (within : scope.Within S)
    (fits : Fits S p.names.next (names ++ body.bound)) (inside : body.Scoped (S.bind names))
    (silent : ∀ stm : Stm, blocker.blocks stm stm.free = false → ∀ v ∈ names, v ∉ stm.free)
    (apart : Fits S p.names.next (changed ++ body.bound)) (known : scope.Known how σ) (holds : HoldsAll how σ hoisted)
    (same : σ.SameBut changed τ) (runs : body.run (.lenient how) τ = .ok vs) : body'.run (.lenient how) τ = .ok vs := by
  have moves := h.scoping.under names ran within fits inside silent
  have placed : Fits S q.names.next (changed ++ boundInStms hoisted) := ((moves.under changed).fits apart).part fun v => by
    simp only [List.count_append]
    omega
  refine h.run ran (within.mono fun _ => .inl) fits.enter inside (known.of_sameBut within apart.left same) ?_ runs
  exact holds.of_sameBut same moves.before placed

/-! Reading through a table -/

namespace SymbolTable.Known

variable {t : SymbolTable}

section
variable (h : t.Known how σ)
include h

theorem operand (x : Operand) : Follows False (Value.Alike .exact) (σ.env.operand x) (σ.env.operand (t.resolveOperand x)) :=
  (h.below (.operand x)).operand

theorem lookup (v : Name) : Follows False (Value.Alike .exact) (σ.env.lookup v) (σ.env.lookup (t.resolve v)) :=
  (h.below (.name v)).operand

theorem operands (xs : List Operand) : Env.OperandsFollow False .exact σ.env σ.env xs (t.resolveOperands xs) := by
  rw [Env.OperandsFollow, resolveOperands, List.forall₂_map_right_iff]
  exact List.forall₂_same.mpr fun x _ => h.operand x

theorem lookups (names : List Name) :
    List.Forall₂ (fun v v' => Follows False (Value.Alike .exact) (σ.env.lookup v) (σ.env.lookup v')) names (t.resolveAll names) := by
  rw [resolveAll, List.forall₂_map_right_iff]
  exact List.forall₂_same.mpr fun v _ => h.lookup v

theorem type (ty : Ty) : Env.TypeFollows False .exact σ.env σ.env ty (t.resolveTy ty) := by
  cases ty with
  | scalar e => exact .scalar e
  | array e shape unique => exact .array e (h.operands shape)
  | mem size space => exact .mem space (h.operand size)

end

theorem bindParams (h : t.Known how σ) (params : List Binder) : (t.bindParams params).Known how σ := by
  refine h.extend fun b mem => ?_
  obtain ⟨p, _, rfl⟩ := List.mem_map.mp mem
  rfl

theorem bindIndex (h : t.Known how σ) (v : Name) (bound : Operand) : (t.bindIndex v bound).Known how σ := by
  refine h.extend fun b mem => ?_
  obtain rfl := List.mem_singleton.mp mem
  rfl

theorem row_resolveTy (t : SymbolTable) (ty : Ty) : (t.resolveTy ty).row.shape = t.resolveOperands ty.row.shape := by
  cases ty with
  | scalar e => rfl
  | mem size space => rfl
  | array e shape unique =>
    cases shape with
    | nil => rfl
    | cons d shape => cases shape <;> rfl

/-- Where the sizes of a row were not passed over, the resolved sizes were not either. -/
theorem allKnown (h : t.Known how σ) {tys : List Ty} (all : σ.allKnown (NameSet.gather Ty.rowReads tys) = true) :
    σ.allKnown (NameSet.gather Ty.rowReads (tys.map t.resolveTy)) = true := by
  rw [Store.allKnown_iff] at all ⊢
  intro v mem
  obtain ⟨_, resolved, read⟩ := NameSet.mem_gather.mp mem
  obtain ⟨ty, among, rfl⟩ := List.mem_map.mp resolved
  rw [Ty.rowReads, row_resolveTy] at read
  obtain ⟨_, resolved, free⟩ := NameSet.mem_gather.mp read
  obtain ⟨x, part, rfl⟩ := List.mem_map.mp resolved
  cases x with
  | const c => exact absurd free (NameSet.not_mem_empty v)
  | var w =>
    have below := h.below (.operand (.var w))
    have known : (σ.cell w).known = true :=
      all w (NameSet.mem_gather.mpr ⟨ty, among, NameSet.mem_gather.mpr ⟨_, part, NameSet.mem_singleton.mpr rfl⟩⟩)
    generalize t.resolveOperand (.var w) = x at below free
    cases x with
    | const c => exact absurd free (NameSet.not_mem_empty v)
    | var u =>
      obtain rfl := NameSet.mem_singleton.mp free
      exact (Cell.Below.known below known).1

theorem rowShape (h : t.Known how σ) {tys : List Ty} (all : σ.allKnown (NameSet.gather Ty.rowReads tys) = true) {ty : Ty}
    (among : ty ∈ tys) : σ.env.rowShape ty = σ.env.rowShape (t.resolveTy ty) := by
  refine Store.rowShape_eq ?_
  rw [row_resolveTy, resolveOperands, List.forall₂_map_right_iff]
  refine List.forall₂_same.mpr fun x part => ⟨h.below (.operand x), ?_⟩
  cases x with
  | const c => rfl
  | var v =>
    refine Store.allKnown_iff.mp all v (NameSet.mem_gather.mpr ⟨ty, among, NameSet.mem_gather.mpr ⟨_, part, ?_⟩⟩)
    exact NameSet.mem_singleton.mpr rfl

end SymbolTable.Known

/-! Operators -/

theorem ValuesAlike.rfl_exact (vs : List Value) : ValuesAlike .exact vs vs := List.forall₂_same.mpr fun x _ => .rfl_exact x

theorem Lambda.run_eq (op : Lambda) {m : Mode} {args : List Value} : op.run m σ args =
    σ.env.bindParams op.params args >>= fun e => op.body.run m (σ.inside (op.params.map Binder.name) e) := by
  cases op
  rw [run]

theorem Env.bindParams_congr {env : Env} {params params' : List Binder} (names : params'.map Binder.name = params.map Binder.name)
    {args : List Value} {e : Env} (bound : env.bindParams params args = .ok e) : env.bindParams params' args = .ok e := by
  have length : params'.length = params.length := by
    rw [← List.length_map Binder.name, names, List.length_map]
  rw [bindParams] at bound ⊢
  split at bound
  · rename_i full
    rw [if_pos (length.trans full), names]
    exact bound
  · cases bound

/-- What an operator is entered with differs from what is around it in the parameters. -/
theorem Store.sameBut_inside {names : List Name} {e : Env} (kept : ∀ v, v ∉ names → e.get? v = σ.env.get? v) :
    σ.SameBut names (σ.inside names e) := fun v other => cell_inside other (kept v other)

namespace Simplifier

theorem lambdaWith_follows (h : inner.Sound how) {op op' : Lambda} {leading : Nat}
    (ran : lambdaWith inner scope blocker op p = .ok ((hoisted, op'), q)) (within : scope.Within S)
    (fits : Fits S p.names.next op.bound) (inside : op.Scoped S leading) (known : scope.Known how σ) (holds : HoldsAll how σ hoisted)
    {args args' : List Value} (alike : ValuesAlike .exact args args') :
    Follows False (ValuesAlike .exact) (op.run (.lenient how) σ args) (op'.run (.lenient how) σ args') := by
  obtain rfl := alike.eq_of_exact
  obtain ⟨⟨left, body⟩, between, swept, ran⟩ := Pass.bind_eq_ok.mp ran
  obtain ⟨same, rfl⟩ := Pass.pure_eq_ok.mp ran
  cases same
  have names := SymbolTable.names_map_resolveBinder (t := scope) op.params
  rw [op.bound_eq] at fits
  refine ⟨fun vs runs => ⟨vs, ?_, ValuesAlike.rfl_exact vs⟩, False.elim⟩
  rw [op.run_eq] at runs
  obtain ⟨e, bound, runs⟩ := bind_eq_ok.mp runs
  rw [Lambda.run_eq, Env.bindParams_congr names bound, ok_bind, names]
  refine h.under swept (within.bindParams _) fits (op.scoped_iff.mp inside).2.2.2
    (fun stm passes => names ▸ Blocker.mentioning_open passes) fits (known.bindParams _) holds ?_ runs
  exact Store.sameBut_inside fun v other => Env.bindParams_frame bound other

end Simplifier

/-! Map kernels -/

theorem Kernel.run_map (k : MapKernel) {m : Mode} :
    (Kernel.map k).run m σ = m.map σ k fun e => k.body.run m (σ.inside k.threadNames e) := by
  cases k
  rw [run]

theorem MapKernel.bindInputs_resolved {n : Nat} {e : Env} {names : List Name} {inputs : List MapInput} (known : scope.Known how σ)
    (within : scope.Within S) (fits : Fits S n (names ++ inputs.map fun i => i.param.name))
    (kept : ∀ v, v ∉ names → e.get? v = σ.env.get? v) :
    Follows False Eq (bindInputs e inputs) (bindInputs e (inputs.map (Simplifier.resolveInput scope))) := by
  induction inputs generalizing e names with
  | nil => exact .ok rfl
  | cons i inputs ih =>
    have here : scope.Known how (σ.inside names e) := known.of_sameBut within fits.left (Store.sameBut_inside kept)
    rw [List.map_cons, bindInputs, bindInputs, List.foldlM_cons, List.foldlM_cons]
    refine Follows.bind (?_ : Follows False
      (fun e₁ e₂ => e₁ = e₂ ∧ ∀ v, v ∉ names ++ [i.param.name] → e₁.get? v = σ.env.get? v) _ _) fun e₁ e₂ _ _ same => ?_
    · refine (Env.array_follows (here.lookup i.array)).bind fun a b _ _ alike => ?_
      obtain rfl : a = b := Value.array.inj (Value.Alike.array alike).eq
      refine (Env.words_follow (here.operands i.indices)).bind fun is _ _ _ same => ?_
      subst same
      refine Follows.bind (.refl fun _ _ => rfl : Follows False Eq _ _) fun x _ _ _ same => .ok ⟨by rw [same]; rfl, fun v other => ?_⟩
      rw [List.mem_append, List.mem_singleton, not_or] at other
      rw [Env.get?_bind, if_neg other.2, kept v other.1]
    · obtain ⟨rfl, kept⟩ := same
      refine ih ?_ kept
      rwa [List.append_assoc, List.singleton_append]

namespace Simplifier

theorem mapScope_known (known : scope.Known how σ) (k : MapKernel) : (mapScope scope k).Known how σ := by
  have indexed := List.foldlRecOn (motive := SymbolTable.Known how σ) k.space (fun t d => t.bindIndex d.1 d.2)
    (known.bindIndex k.thread k.width) fun t h d _ => h.bindIndex d.1 d.2
  refine indexed.extend fun b mem => ?_
  obtain ⟨i, _, rfl⟩ := List.mem_map.mp mem
  rfl

theorem sweepMap_follows (h : inner.Sound how) {k k' : MapKernel} (ran : s.sweepMap inner scope k p = .ok ((hoisted, k'), q))
    (within : scope.Within S) (fits : Fits S p.names.next (Kernel.map k).bound) (inside : (Kernel.map k).Scoped S)
    (known : scope.Known how σ) (holds : HoldsAll how σ hoisted) :
    Follows False (ValuesAlike .exact) ((Kernel.map k).run (.lenient how) σ) ((Kernel.map k').run (.lenient how) σ) := by
  change (inner (mapScope scope (resolveMap scope k)) _ k.body >>= fun r => pure (r.1, { resolveMap scope k with body := r.2 })) p = _ at ran
  obtain ⟨⟨left, body⟩, between, swept, ran⟩ := Pass.bind_eq_ok.mp ran
  obtain ⟨same, rfl⟩ := Pass.pure_eq_ok.mp ran
  cases same
  rw [Kernel.bound_map] at fits
  have names : ({ resolveMap scope k with body := body } : MapKernel).threadNames = k.threadNames := threadNames_resolveMap scope k
  have extents : ({ resolveMap scope k with body := body } : MapKernel).extents = scope.resolveOperands k.extents := by
    simp only [MapKernel.extents, resolveMap, SymbolTable.resolveOperands, List.map_map]
    rfl
  rw [Kernel.run_map, Kernel.run_map, names]
  refine Mode.map_follows (T := fun e e' => e = e' ∧ ∀ v, v ∉ k.threadNames → e.get? v = σ.env.get? v)
    ?_ (Env.size_follows (known.operand k.width)) (extents ▸ Env.sizes_follow (known.operands k.extents)) ?_ ?_ ?_
  · exact fun some none => some (List.map_eq_nil_iff.mp none)
  · intro dims t _
    have resolved := MapKernel.bindInputs_resolved known within (MapKernel.threadNames_eq k ▸ fits.left)
      fun v other => MapKernel.place_frame dims σ.env t other
    have space : (resolveMap scope k).space.map Prod.fst = k.space.map Prod.fst := by
      simp only [resolveMap, List.map_map]
      rfl
    refine Follows.imp (?_ : Follows False Eq _ _) fun e e' made _ same => ⟨same, fun v other => MapKernel.threadEnv_frame made other⟩
    rw [MapKernel.threadEnv, MapKernel.threadEnv]
    dsimp only
    rw [space]
    exact resolved
  · rintro e _ ⟨rfl, kept⟩
    refine ⟨fun vs ran => ⟨vs, ?_, ValuesAlike.rfl_exact vs⟩, False.elim⟩
    exact h.under swept (mapScope_within within _) fits ((Kernel.scoped_map k).mp inside).2.2
      (fun stm passes => threadNames_resolveMap scope k ▸ Blocker.mentioning_open passes) fits (mapScope_known known _) holds
      (Store.sameBut_inside kept) ran
  · refine List.forall₂_map_right_iff.mpr (List.forall₂_same.mpr fun r _ => ⟨?_, rfl, ?_⟩)
    · exact (known.type r.1).elem_eq
    · exact Env.sizes_follow (known.type r.1).shape

end Simplifier

/-! Kernels with operators -/

theorem Kernel.run_scan (k : ScanKernel) {m : Mode} : (Kernel.scan k).run m σ = k.run (fun args => k.fold.run m σ args) σ.env := by
  cases k
  rw [run]

theorem Kernel.run_chunked (k : ChunkedKernel) {m : Mode} :
    (Kernel.chunked k).run m σ = m.chunked σ k fun args => k.op.run m σ args := by
  cases k
  rw [run]

theorem Kernel.run_scatter (k : ScatterKernel) {m : Mode} :
    (Kernel.scatter k).run m σ = k.run (fun args => k.op.run m σ args) σ.env := by
  cases k
  rw [run]

namespace Simplifier

/-- A kernel with resolved operands and operators that follow the old ones. The operator that combines the results of
groups is not run. -/
theorem scan_follows (known : scope.Known how σ) {k : ScanKernel} {certs : List Name} {combine fold : Lambda}
    (op : ∀ {args args'}, ValuesAlike .exact args args' →
      Follows False (ValuesAlike .exact) (k.fold.run (.lenient how) σ args) (fold.run (.lenient how) σ args')) :
    Follows False (ValuesAlike .exact) ((Kernel.scan k).run (.lenient how) σ)
      ((Kernel.scan ⟨certs, scope.resolveOperand k.width, scope.resolveSize k.size, combine, fold,
        scope.resolveOperands k.neutral, scope.resolveAll k.arrays⟩).run (.lenient how) σ) := by
  rw [Kernel.run_scan, Kernel.run_scan]
  exact ScanKernel.run_follows (Env.size_follows (known.operand k.width)) (Env.arrays_follow (known.lookups k.arrays))
    (known.operands k.neutral) fun _ _ _ _ alike => op alike

theorem chunked_follows (known : scope.Known how σ) (within : scope.Within S) {n : Nat} {k : ChunkedKernel} {certs : List Name}
    {lambda : Lambda} (fits : Fits S n (k.op.params.map Binder.name)) (params : lambda.params.map Binder.name = k.op.params.map Binder.name)
    (returns : lambda.ret = k.op.ret.map scope.resolveTy)
    (op : ∀ {args args'}, ValuesAlike .exact args args' →
      Follows False (ValuesAlike .exact) (k.op.run (.lenient how) σ args) (lambda.run (.lenient how) σ args')) :
    Follows False (ValuesAlike .exact) ((Kernel.chunked k).run (.lenient how) σ)
      ((Kernel.chunked ⟨certs, scope.resolveOperand k.width, scope.resolveSize k.size, k.division, lambda,
        scope.resolveAll k.arrays⟩).run (.lenient how) σ) := by
  rw [Kernel.run_chunked, Kernel.run_chunked, Mode.chunked, Mode.chunked]
  dsimp only
  have launched := known.of_sameBut within fits (Store.sameBut_launch σ _)
  rw [returns, params]
  refine Mode.check_follows launched.allKnown fun all => ?_
  refine ChunkedKernel.run_follows (Env.size_follows (launched.operand k.width)) (Env.size_follows (launched.operand k.size.threads))
    (Env.size_follows (launched.operand k.size.chunk)) rfl (Env.arrays_follow (launched.lookups k.arrays))
    (fun _ _ _ _ alike => op alike) ?_
  rw [returns, List.forall₂_map_right_iff]
  exact List.forall₂_same.mpr fun ty among => ⟨(launched.type ty).elem_eq, launched.rowShape all among⟩

theorem scatter_follows (known : scope.Known how σ) {k : ScatterKernel} {certs : List Name} {lambda : Lambda}
    (op : ∀ {args args'}, ValuesAlike .exact args args' →
      Follows False (ValuesAlike .exact) (k.op.run (.lenient how) σ args) (lambda.run (.lenient how) σ args')) :
    Follows False (ValuesAlike .exact) ((Kernel.scatter k).run (.lenient how) σ)
      ((Kernel.scatter ⟨certs, scope.resolveOperand k.width, lambda, scope.resolveAll k.arrays,
        k.dests.map fun d => (scope.resolveOperand d.1, scope.resolve d.2)⟩).run (.lenient how) σ) := by
  rw [Kernel.run_scatter, Kernel.run_scatter]
  refine ScatterKernel.run_follows (Env.size_follows (known.operand k.width)) (Env.arrays_follow (known.lookups k.arrays)) ?_
    fun _ _ _ _ alike => op alike
  refine .mapM (List.forall₂_map_right_iff.mpr (List.forall₂_same.mpr fun d _ => ?_))
  exact Env.array_follows (known.lookup d.2)

end Simplifier

end

end ArrayKernels
