import ArrayKernels.Proofs.Known
import ArrayKernels.Proofs.LevelScoping

/-! Statements that have been run before the code that needs them. A statement that holds in a store can be run there again, or be
left out; and statements may take the place of another one if they leave its names known at least as well. -/
namespace ArrayKernels

/-! What code in scope reads -/

theorem InScope.rowReads {S : Scope} {tys : List Ty} (h : InScope S (freeTypes tys)) : InScope S (NameSet.gather Ty.rowReads tys) := by
  intro v mem
  obtain ⟨ty, among, read⟩ := NameSet.mem_gather.mp mem
  exact h v (NameSet.mem_gather.mpr ⟨ty, among, ty.free_of_rowReads read⟩)

-- The parameters of an operator that annotations of others mention are not read, so a name that is read is in scope.
mutual

theorem Exp.Scoped.reads : ∀ (e : Exp) {S : Scope}, e.Scoped S → InScope S e.reads
  | .operand _, _, h | .binary .., _, h | .compare .., _, h | .index .., _, h | .update .., _, h | .iota .., _, h
  | .replicate .., _, h | .reshape .., _, h | .rearrange .., _, h | .copy _, _, h | .alloc .., _, h => h
  | .branch cond onTrue onFalse ret, _, h => by
    have yes := Body.Scoped.reads onTrue h.2.1
    have no := Body.Scoped.reads onFalse h.2.2
    have operands := h.1
    simp only [InScope, Exp.reads] at *
    grind
  | .loop context values index bound body, _, h => by
    have inner := Body.Scoped.reads body h.2.2
    have operands := h.1
    simp only [InScope, Exp.reads] at *
    grind
  | .launch kernel, _, h => Kernel.Scoped.reads kernel h

theorem StmsScoped.reads : ∀ (stms : List Stm) {after : NameSet} {S : Scope}, StmsScoped S after stms →
    InScope S (readsBefore after stms)
  | [], _, _, h => h
  | ⟨pat, certs, exp⟩ :: stms, _, _, h => by
    have inner := Exp.Scoped.reads exp h.1.2.2
    have later := StmsScoped.reads stms h.2
    simp only [InScope, readsBefore] at *
    grind

theorem Body.Scoped.reads : ∀ (body : Body) {S : Scope}, body.Scoped S → InScope S body.reads
  | ⟨stms, _⟩, _, h => StmsScoped.reads stms h

theorem Lambda.Scoped.reads : ∀ (op : Lambda) {leading : Nat} {S : Scope}, op.Scoped S leading → InScope S op.reads
  | ⟨params, body, ret⟩, leading, S, h => by
    have inner := Body.Scoped.reads body h.2.2.2
    simp only [InScope, Lambda.reads] at *
    grind

theorem Kernel.Scoped.reads : ∀ (k : Kernel) {S : Scope}, k.Scoped S → InScope S k.reads
  | .map ⟨certs, width, thread, space, inputs, returns, body⟩, S, h => by
    have read : InScope (S.bind (thread :: space.map Prod.fst)) (NameSet.gather MapInput.reads inputs) :=
      InScope.gather_iff.mpr fun i among v mem => h.2.1 i among v (NameSet.mem_union.mpr (.inl mem))
    have inner := Body.Scoped.reads body h.2.2
    have operands := h.1
    have shapes : InScope S (NameSet.gather (fun r => freeOperands r.1.shape) returns) := by
      simp only [InScope.union_iff] at operands
      refine InScope.gather_iff.mpr fun r among v mem => operands.2 v ?_
      exact NameSet.mem_gather.mpr ⟨r.1, List.mem_map_of_mem among, r.1.free_of_shape mem⟩
    simp only [InScope, Kernel.reads, MapKernel.placeNames, MapKernel.threadNames] at *
    grind
  | .scan ⟨_, _, _, combine, fold, _, _⟩, _, h => by
    have right := Lambda.Scoped.reads fold h.2.2
    have operands := h.1
    simp only [InScope, Kernel.reads] at *
    grind
  | .chunked ⟨_, width, size, _, op, arrays⟩, S, h => by
    have inner := Lambda.Scoped.reads op h.2
    have rows := (op.scoped_iff.mp h.2).2.2.1.rowReads
    have leads := ((List.take_sublist 2 op.params).map Binder.name).subset
    have operands := h.1
    have sizes := (operands.part fun v mem => by simp [mem] : InScope S size.free).launched
    simp only [InScope, Kernel.reads] at *
    grind
  | .scatter ⟨_, _, op, _, dests⟩, _, h => by
    have inner := Lambda.Scoped.reads op h.2
    have operands := h.1
    simp only [InScope.union_iff] at operands
    obtain ⟨⟨⟨_, width⟩, arrays⟩, written⟩ := operands
    simp only [Kernel.reads, InScope.union_iff]
    refine ⟨⟨⟨width, arrays⟩, fun v mem => ?_⟩, inner⟩
    obtain ⟨d, among, rfl⟩ := List.mem_map.mp (NameSet.mem_ofList.mp mem)
    exact written _ (NameSet.mem_gather.mpr ⟨d, among, by simp⟩)
  | .group ⟨_, size, space, _, ⟨stms, _⟩⟩, S, h => by
    have inner := GroupStmsScoped.reads stms h.2
    have operands := h.1
    have sizes := (operands.part fun v mem => by simp [mem] : InScope S size.free).launched
    simp only [InScope, Kernel.reads, GroupKernel.ownNames] at *
    grind
  | .numGroups, _, _ => InScope.empty
  | .groupSize, _, _ => InScope.empty

theorem GroupStm.Scoped.reads : ∀ (stm : GroupStm) {S : Scope}, stm.Scoped S → InScope (S.bind stm.names) stm.reads
  | .split size chunks _ _ _ _, S, h => by
    have operands := h.1
    simp only [InScope, GroupStm.reads] at *
    grind
  | .thread pat only body, S, h => by
    have inner := Body.Scoped.reads body h.2.2
    have typed : InScope (S.bind pat.names) (NameSet.gather (fun b => b.ty.free) pat.values) := by
      refine InScope.gather_iff.mpr fun b among v mem => ?_
      refine (h.2.1.2 b among v (NameSet.mem_union.mpr (.inl mem))).imp_right fun context => ?_
      rw [Pattern.names, Pattern.binders, List.map_append]
      exact List.mem_append_left _ context
    have operands := h.1
    simp only [InScope, GroupStm.reads, GroupStm.names] at *
    grind
  | .reduce pat width op inputs, _, h => by
    have inner := Lambda.Scoped.reads op h.2.2
    have operands := h.1
    simp only [InScope, GroupStm.reads] at *
    grind

theorem GroupStmsScoped.reads : ∀ (stms : List GroupStm) {after : NameSet} {S : Scope}, GroupStmsScoped S after stms →
    InScope (S.bind (stms.flatMap GroupStm.names)) (readsBeforeGroup after stms)
  | [], _, _, h => InScope.mono h fun _ => .inl
  | stm :: stms, _, _, h => by
    have here := GroupStm.Scoped.reads stm h.1
    have later := GroupStmsScoped.reads stms h.2
    simp only [InScope, readsBeforeGroup] at *
    grind

end
/-! Stores that differ at some names only -/

/-- The stores have the same on all names but the given ones. -/
def Store.SameBut (names : List Name) (σ τ : Store) : Prop := ∀ v, v ∉ names → τ.cell v = σ.cell v

namespace Store.SameBut

variable {names more : List Name} {σ τ υ : Store}

theorem refl (names : List Name) (σ : Store) : σ.SameBut names σ := fun _ _ => rfl

theorem trans (h : σ.SameBut names τ) (h' : τ.SameBut more υ) : σ.SameBut (names ++ more) υ := by
  intro v other
  rw [List.mem_append, not_or] at other
  rw [h' v other.2, h v other.1]

end Store.SameBut

theorem Store.sameBut_launch (σ : Store) (own : List Name) : σ.SameBut own (σ.launch own) := fun _ => cell_launch_of_not_mem

section
variable {m : Mode} {σ τ : Store}

theorem Stm.run_sameBut {stm : Stm} (ran : stm.run m σ = .ok τ) : σ.SameBut stm.pat.names τ := fun _ other => Stm.run_frame ran other

theorem runStms_append (before after : List Stm) :
    runStms m σ (before ++ after) = runStms m σ before >>= fun τ => runStms m τ after := by
  induction before generalizing σ with
  | nil => rfl
  | cons stm before ih =>
    rw [List.cons_append, runStms_cons, runStms_cons, bind_assoc]
    exact congrArg _ (funext fun _ => ih)

theorem runStms_sameBut {stms : List Stm} (ran : runStms m σ stms = .ok τ) : σ.SameBut (stmNames stms) τ := by
  induction stms generalizing σ with
  | nil =>
    cases ran
    exact .refl _ _
  | cons stm stms ih =>
    rw [runStms_cons] at ran
    obtain ⟨next, first, ran⟩ := bind_eq_ok.mp ran
    exact (Stm.run_sameBut first).trans (ih ran)

theorem Body.run_eq (body : Body) : body.run m σ = runStms m σ body.stms >>= fun τ => body.result.mapM τ.env.operand := by
  obtain ⟨stms, result⟩ := body
  rw [Body.run]

theorem Body.run_append (before after : List Stm) (result : List Operand) :
    (⟨before ++ after, result⟩ : Body).run m σ = runStms m σ before >>= fun τ => (⟨after, result⟩ : Body).run m τ := by
  rw [Body.run_eq, runStms_append, bind_assoc]
  exact congrArg _ (funext fun τ => (Body.run_eq ⟨after, result⟩).symm)

theorem Body.run_cons (stm : Stm) (stms : List Stm) (result : List Operand) :
    (⟨stm :: stms, result⟩ : Body).run m σ = stm.run m σ >>= fun τ => (⟨stms, result⟩ : Body).run m τ := by
  rw [Body.run_eq, runStms_cons, bind_assoc]
  exact congrArg _ (funext fun τ => (Body.run_eq ⟨stms, result⟩).symm)

end

section
variable {how : Leniency} {S : Scope} {n : Nat} {σ τ : Store} {names : List Name}

/-- A statement does not depend on names that are not in scope. -/
theorem Stm.run_of_sameBut {stm : Stm} {σ' : Store} (ran : stm.run (.lenient how) σ = .ok τ) (same : σ.SameBut names σ')
    (inside : stm.Scoped S) (distinct : stm.exp.bound.Nodup) (apart : ∀ v ∈ names, ¬S v) :
    ∃ τ', stm.run (.lenient how) σ' = .ok τ' ∧ ∀ v ∈ stm.pat.names, (τ.cell v).Below (τ'.cell v) := by
  refine Stm.run_mono distinct (fun v mem => ?_) ran
  rw [same v fun own => apart v own (Exp.Scoped.reads _ inside.2.2 v mem)]
  exact .refl _

theorem Stm.Holds.of_sameBut {stm : Stm} (h : stm.Holds how σ) (same : σ.SameBut names τ) (inside : stm.Scoped S)
    (fits : Fits S n (names ++ stm.bound)) : stm.Holds how τ := by
  have apart (v : Name) (own : v ∈ names) : ¬S v ∧ v ∉ stm.bound :=
    ⟨fits.apart v (List.mem_append_left _ own), fun bound => (List.nodup_append.mp fits.distinct).2.2 v own v bound rfl⟩
  refine h.frame (fits.right.right.distinct) (fun v mem => ?_) fun v mem => ?_
  · exact .of_eq (same v fun own => (apart v own).1 (Exp.Scoped.reads _ inside.2.2 v mem)).symm
  · exact .of_eq (same v fun own => (apart v own).2 (List.mem_append_left _ mem)).symm

/-- A statement in scope holds after it was run. -/
theorem Stm.Scoped.holds {stm : Stm} (inside : stm.Scoped S) (fits : Fits S n stm.bound) (ran : stm.run (.lenient how) σ = .ok τ) :
    stm.Holds how τ := by
  exact .of_run ran fits.right.distinct fun v mem own => fits.apart v (List.mem_append_left _ own) (Exp.Scoped.reads _ inside.2.2 v mem)

end

/-! Statements that may be run early -/

/-- All the statements hold. -/
def HoldsAll (how : Leniency) (σ : Store) (stms : List Stm) : Prop := ∀ stm ∈ stms, stm.Holds how σ

section
variable {how : Leniency} {S : Scope} {n : Nat} {σ τ : Store} {names : List Name} {stms more : List Stm} {after : NameSet}

theorem HoldsAll.append_iff : HoldsAll how σ (stms ++ more) ↔ HoldsAll how σ stms ∧ HoldsAll how σ more := List.forall_mem_append

theorem HoldsAll.of_sameBut (h : HoldsAll how σ stms) (same : σ.SameBut names τ) (inside : StmsScoped S after stms)
    (fits : Fits S n (names ++ boundInStms stms)) : HoldsAll how τ stms := by
  induction stms generalizing S with
  | nil => exact fun _ mem => absurd mem List.not_mem_nil
  | cons stm stms ih =>
    obtain ⟨here, later⟩ := stmsScoped_cons.mp inside
    rw [boundInStms_cons] at fits
    have first : Fits S n (names ++ stm.bound) := fits.part fun v => by
      simp only [List.count_append]
      omega
    have rest : Fits S n (stm.pat.names ++ (names ++ boundInStms stms)) := fits.part fun v => by
      simp only [Stm.bound, List.count_append]
      omega
    rw [HoldsAll, List.forall_mem_cons] at h ⊢
    exact ⟨h.1.of_sameBut same here first, ih h.2 later rest.enter⟩

/-- A lenient run passes over the statement if it fails. -/
def Stm.Movable (how : Leniency) (stm : Stm) : Prop := (how.lax || stm.exp.isSpeculable) = true

theorem Stm.Movable.run {stm : Stm} (h : stm.Movable how) (σ : Store) : ∃ τ, stm.run (.lenient how) σ = .ok τ := by
  cases bound : ((stm.exp.run (.lenient how) σ) >>= fun values => (σ.env.hide stm.pat.names).bindValues stm.pat values) with
  | ok env => exact ⟨_, Mode.settle_of_ok bound⟩
  | error err => exact ⟨_, (Mode.settle_of_error bound).trans (if_pos h)⟩

theorem runStms_movable (movable : ∀ stm ∈ stms, stm.Movable how) (σ : Store) : ∃ τ, runStms (.lenient how) σ stms = .ok τ := by
  induction stms generalizing σ with
  | nil => exact ⟨σ, rfl⟩
  | cons stm stms ih =>
    obtain ⟨next, ran⟩ := (movable stm List.mem_cons_self).run σ
    obtain ⟨τ, rest⟩ := ih (fun s mem => movable s (List.mem_cons_of_mem _ mem)) next
    refine ⟨τ, ?_⟩
    rw [runStms_cons, ran]
    exact rest

/-- Statements that were run one after another hold at the end. -/
theorem runStms_holds (ran : runStms (.lenient how) σ stms = .ok τ) (inside : StmsScoped S after stms)
    (fits : Fits S n (boundInStms stms)) : HoldsAll how τ stms := by
  induction stms generalizing S σ with
  | nil => exact fun _ mem => absurd mem List.not_mem_nil
  | cons stm stms ih =>
    obtain ⟨here, later⟩ := stmsScoped_cons.mp inside
    rw [boundInStms_cons] at fits
    rw [runStms_cons] at ran
    obtain ⟨next, first, ran⟩ := bind_eq_ok.mp ran
    have apart : Fits S n (stmNames stms ++ stm.bound) := fits.part fun v => by
      have fewer := count_stmNames_le stms v
      simp only [List.count_append]
      omega
    have rest : Fits S n (stm.pat.names ++ boundInStms stms) := fits.part fun v => by
      simp only [Stm.bound, List.count_append]
      omega
    rw [HoldsAll, List.forall_mem_cons]
    exact ⟨(here.holds fits.left first).of_sameBut (runStms_sameBut ran) here apart, ih ran later rest.enter⟩

end

/-! Replacing a statement -/

/-- Where the statement can be run, so can the others, and afterwards its names that are `used` are known at least as well. -/
def Replaces (how : Leniency) (σ : Store) (stm : Stm) (new : List Stm) (used : Name → Prop) : Prop :=
  ∀ τ, stm.run (.lenient how) σ = .ok τ →
    ∃ τ', runStms (.lenient how) σ new = .ok τ' ∧ ∀ v ∈ stm.pat.names, used v → (τ.cell v).Below (τ'.cell v)

/-- What follows the statement has the same values after the others. -/
theorem Replaces.run {how : Leniency} {S : Scope} {n : Nat} {σ : Store} {stm : Stm} {new rest : List Stm} {used : Name → Prop}
    {result : List Operand} {vs : List Value} (h : Replaces how σ stm new used)
    (fits : Fits S n (boundInStms new ++ boundInStms rest)) (inside : StmsScoped (S.bind stm.pat.names) (freeOperands result) rest)
    (needs : ∀ v ∈ stm.pat.names, v ∈ freeBefore (freeOperands result) rest ∨ v ∈ boundInStms rest → used v)
    (ran : (⟨stm :: rest, result⟩ : Body).run (.lenient how) σ = .ok vs) :
    (⟨new ++ rest, result⟩ : Body).run (.lenient how) σ = .ok vs := by
  rw [Body.run_cons] at ran
  obtain ⟨τ, first, ran⟩ := bind_eq_ok.mp ran
  obtain ⟨τ', ran', more⟩ := h τ first
  rw [Body.run_append, ran', ok_bind]
  refine Body.run_mono fits.right.distinct (fun v mem => ?_) ran
  by_cases own : v ∈ stm.pat.names
  · exact more v own (needs v own (freeBefore_of_readsBefore id rest mem))
  · rw [Stm.run_frame first own, runStms_sameBut ran' v fun named => ?_]
    · exact .refl _
    · have bound := mem_boundInStms_of_stmNames named
      exact (StmsScoped.reads rest inside v mem).elim (fits.apart v (List.mem_append_left _ bound)) own

end ArrayKernels
