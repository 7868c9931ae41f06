import ArrayKernels.Proofs.Follows
import ArrayKernels.Proofs.Weight
import ArrayKernels.Simplify.Program

/-! Sweeps that change nothing. A sweep that gives code of the same weight has applied no rule, moved no
statement and dropped none: it has resolved copies only, and so it has drawn no name and depends on no
supply. If moreover the outcome equals the code, even these copies were resolved to themselves. -/
namespace ArrayKernels

/-- A step whose outcome weighs at most `w`. If it weighs as much, the step leaves every supply alone and has
the same outcome for all of them, and the outcome is `faithful`. -/
def Eases {α : Type} (m : Simplify α) (w : Nat) (weigh : α → Nat) (faithful : α → Prop) : Prop :=
  ∀ p q r, m p = .ok (r, q) → weigh r ≤ w ∧ (weigh r = w → (∀ p', m p' = .ok (r, p')) ∧ faithful r)

namespace Eases

variable {α β : Type} {m : Simplify α} {f : α → Simplify β} {w w' : Nat} {weigh weigh' : α → Nat} {weighOut : β → Nat}
  {faithful faithful' : α → Prop} {faithfulOut : β → Prop}

theorem pure {r : α} (light : weigh r ≤ w) (h : weigh r = w → faithful r) : Eases (pure r) w weigh faithful := by
  intro p q r' ran
  obtain ⟨rfl, rfl⟩ := Pass.pure_eq_ok.mp ran
  exact ⟨light, fun same => ⟨fun _ => rfl, h same⟩⟩

/-- The second step starts from what the first has left. -/
theorem bind (first : Eases m w weigh faithful) (more : Nat)
    (second : ∀ r, Eases (f r) (weigh r + more) weighOut fun s => faithful r → faithfulOut s) :
    Eases (m >>= f) (w + more) weighOut faithfulOut := by
  intro p q s ran
  obtain ⟨r, between, ran₁, ran₂⟩ := Pass.bind_eq_ok.mp ran
  obtain ⟨light₁, same₁⟩ := first _ _ _ ran₁
  obtain ⟨light₂, same₂⟩ := second r _ _ _ ran₂
  refine ⟨by omega, fun heavy => ?_⟩
  obtain ⟨silent₁, here⟩ := same₁ (by omega)
  obtain ⟨silent₂, there⟩ := same₂ (by omega)
  exact ⟨fun p' => Pass.bind_eq_ok.mpr ⟨r, p', silent₁ p', silent₂ p'⟩, there here⟩

theorem imp (h : Eases m w weigh faithful) (light : ∀ r, weigh r ≤ w → weigh' r ≤ w')
    (same : ∀ r, weigh r ≤ w → weigh' r = w' → weigh r = w) (more : ∀ r, weigh' r = w' → faithful r → faithful' r) :
    Eases m w' weigh' faithful' := by
  intro p q r ran
  obtain ⟨bound, silent⟩ := h _ _ _ ran
  refine ⟨light r bound, fun heavy => ?_⟩
  obtain ⟨all, here⟩ := silent (same r bound heavy)
  exact ⟨all, more r heavy here⟩

end Eases

/-! Resolving copies keeps what it does not change -/

theorem map_stays {α : Type} {eq : α → α → Bool} {f : α → α} (one : ∀ x, eq (f x) x = true → f x = x) {xs : List α}
    (h : sameAll eq (xs.map f) xs = true) : xs.map f = xs := by
  induction xs with
  | nil => rfl
  | cons x xs ih =>
    simp only [List.map_cons, sameAll, Bool.and_eq_true] at h
    rw [List.map_cons, one x h.1, ih h.2]

namespace SymbolTable

variable (t : SymbolTable)

theorem resolveOperand_stays (x : Operand) (h : (t.resolveOperand x).same x = true) : t.resolveOperand x = x := by
  cases x with
  | const c => rfl
  | var v =>
    rw [resolveOperand] at h ⊢
    split at h
    · cases h
    · rw [beq_iff_eq.mp h]

theorem resolveOperands_stay (xs : List Operand) (h : sameAll Operand.same (t.resolveOperands xs) xs = true) :
    t.resolveOperands xs = xs := map_stays t.resolveOperand_stays h

theorem resolveTy_stays (ty : Ty) (h : (t.resolveTy ty).same ty = true) : t.resolveTy ty = ty := by
  cases ty with
  | scalar e => rfl
  | array e shape unique =>
    simp only [resolveTy, Ty.same, Bool.and_eq_true] at h ⊢
    rw [t.resolveOperands_stay shape h.1.2]
  | mem size space =>
    simp only [resolveTy, Ty.same, Bool.and_eq_true] at h ⊢
    rw [t.resolveOperand_stays size h.1]

theorem resolveBinder_stays (b : Binder) (h : (t.resolveBinder b).same b = true) : t.resolveBinder b = b := by
  simp only [resolveBinder, Binder.same, Bool.and_eq_true] at h ⊢
  rw [t.resolveTy_stays b.ty h.1.2]

theorem resolvePattern_stays (p : Pattern) (h : (t.resolvePattern p).same p = true) : t.resolvePattern p = p := by
  simp only [resolvePattern, Pattern.same, Bool.and_eq_true] at h ⊢
  rw [map_stays t.resolveBinder_stays h.1, map_stays t.resolveBinder_stays h.2]

theorem resolveSize_stays (s : LaunchSize) (h : (t.resolveSize s).same s = true) : t.resolveSize s = s := by
  simp only [resolveSize, LaunchSize.map, LaunchSize.same, LaunchSize.operands, sameAll, Bool.and_eq_true] at h ⊢
  obtain ⟨groups, groupSize, chunk, elements, multiple, threads, _⟩ := h
  rw [t.resolveOperand_stays _ groups, t.resolveOperand_stays _ groupSize, t.resolveOperand_stays _ chunk,
    t.resolveOperand_stays _ elements, t.resolveOperand_stays _ multiple, t.resolveOperand_stays _ threads]

end SymbolTable

namespace Simplifier

variable (scope : SymbolTable)

theorem resolveMerge_stays (merge : List (Binder × Operand))
    (h : sameAll (samePair Binder.same Operand.same) (resolveMerge scope merge) merge = true) :
    resolveMerge scope merge = merge := by
  refine map_stays (fun m same => ?_) h
  simp only [samePair, Bool.and_eq_true] at same
  rw [scope.resolveBinder_stays _ same.1, scope.resolveOperand_stays _ same.2]

theorem resolveInput_stays (i : MapInput) (h : (resolveInput scope i).same i = true) : resolveInput scope i = i := by
  simp only [resolveInput, MapInput.same, Bool.and_eq_true, beq_iff_eq] at h ⊢
  rw [scope.resolveBinder_stays _ h.1.1, h.1.2, scope.resolveOperands_stay _ h.2]

theorem resolveResult_stays (r : GroupResult) (h : (resolveResult scope r).same r = true) : resolveResult scope r = r := by
  cases r with
  | row value =>
    simp only [resolveResult, GroupResult.same] at h ⊢
    rw [scope.resolveOperand_stays _ h]
  | write index value =>
    simp only [resolveResult, GroupResult.same, Bool.and_eq_true] at h ⊢
    rw [scope.resolveOperand_stays _ h.1, scope.resolveOperand_stays _ h.2]
  | chunks division width perThread array =>
    simp only [resolveResult, GroupResult.same, Bool.and_eq_true, beq_iff_eq] at h ⊢
    rw [scope.resolveOperand_stays _ h.1.1.2, scope.resolveOperand_stays _ h.1.2, h.2]

end Simplifier

/-! Queues -/

def Level.weight (level : Level) : Nat := stmsWeight level.kept + stmsWeight level.hoisted

/-- A statement that equals another is that statement. -/
def Stm.Stays (new old : Stm) : Prop := new.same old = true → new = old

/-- If nothing has left the level, the statements have been put behind those that it had. -/
def Level.Gains (level next : Level) (stms : List Stm) : Prop :=
  next.hoisted = [] → level.hoisted = [] ∧ ∃ kept, next.kept = level.kept ++ kept ∧ List.Forall₂ Stm.Stays kept stms

theorem Level.weight_add (level : Level) (blocker : Blocker) (stm : Stm) :
    (level.add blocker stm).weight = level.weight + stm.weight := by
  unfold Level.add Level.weight
  dsimp only
  split <;> simp only [stmsWeight_append, stmsWeight_cons, stmsWeight] <;> omega

theorem Level.weight_addAll (level : Level) (blocker : Blocker) (stms : List Stm) :
    (stms.foldl (fun level st => level.add blocker st) level).weight = level.weight + stmsWeight stms := by
  induction stms generalizing level with
  | nil => rfl
  | cons stm stms ih => rw [List.foldl_cons, ih, Level.weight_add, stmsWeight_cons, Nat.add_assoc]

theorem Level.gains_add {level : Level} {blocker : Blocker} {stm old : Stm} (stays : stm.Stays old) :
    level.Gains (level.add blocker stm) [old] := by
  intro none
  unfold Level.add at none ⊢
  dsimp only at none ⊢
  split at none
  · rw [if_pos ‹_›]
    exact ⟨none, [stm], rfl, .cons stays .nil⟩
  · simp at none

theorem Level.Gains.trans {level next last : Level} {stms more : List Stm} (h : level.Gains next stms)
    (h' : next.Gains last more) : level.Gains last (stms ++ more) := by
  intro none
  obtain ⟨before, kept', shown', stay'⟩ := h' none
  obtain ⟨start, kept, shown, stay⟩ := h before
  exact ⟨start, kept ++ kept', by rw [shown', shown, List.append_assoc], List.rel_append stay stay'⟩

/-- What firing weighs: the replacement, or the statement that stays. -/
def firedWeight (stm : Stm) : Option (List Stm) → Nat
  | some new => stmsWeight new
  | none => stm.weight

section
variable {fire : Level → Stm → Simplify (Option (List Stm))} {settle : Level → Stm → Simplify Level}

theorem workThrough_eases {replaced : List Stm → Level → Simplify Level}
    (fires : ∀ level stm, Eases (fire level stm) stm.weight (firedWeight stm) (· = none))
    (settles : ∀ level stm, Eases (settle level stm) (stm.weight + level.weight) Level.weight (level.Gains · [stm]))
    (goesOn : ∀ queue level, Eases (replaced queue level) (stmsWeight queue + level.weight) Level.weight fun _ => True)
    (queue : List Stm) (level : Level) :
    Eases (workThrough fire settle replaced queue level) (stmsWeight queue + level.weight) Level.weight
      (level.Gains · queue) := by
  induction queue generalizing level with
  | nil =>
    refine Eases.pure (by simp [stmsWeight]) fun _ none => ⟨none, [], ?_, .nil⟩
    rw [List.append_nil]
  | cons stm queue ih =>
    rw [workThrough, stmsWeight_cons, Nat.add_assoc]
    refine (fires level stm).bind _ fun r => ?_
    cases r with
    | some new =>
      refine (goesOn (new ++ queue) level).imp ?_ ?_ ?_ <;> simp only [firedWeight, stmsWeight_append]
      · omega
      · omega
      · intro _ _ _ impossible
        cases impossible
    | none =>
      have later next : Eases (workThrough fire settle replaced queue next) (next.weight + stmsWeight queue) Level.weight
          fun last => level.Gains next [stm] → level.Gains last (stm :: queue) := by
        refine (ih next).imp (fun _ => by omega) (fun _ => by omega) ?_
        exact fun _ _ later first => first.trans later
      refine ((settles level stm).bind _ later).imp ?_ ?_ fun _ _ gains _ => gains <;> simp only [firedWeight] <;> omega

theorem drain_eases (fires : ∀ level stm, Eases (fire level stm) stm.weight (firedWeight stm) (· = none))
    (settles : ∀ level stm, Eases (settle level stm) (stm.weight + level.weight) Level.weight (level.Gains · [stm]))
    (n : Nat) (queue : List Stm) (level : Level) :
    Eases (drain fire settle n queue level) (stmsWeight queue + level.weight) Level.weight (level.Gains · queue) := by
  induction n generalizing queue level with
  | zero =>
    refine workThrough_eases (fun level stm => Eases.pure (Nat.le_refl _) fun _ => rfl) settles (fun queue level => ?_) queue level
    exact Eases.pure (Nat.le_add_left _ _) fun _ => trivial
  | succ n ih =>
    refine workThrough_eases fires settles (fun queue level => ?_) queue level
    exact (ih queue level).imp (fun _ => id) (fun _ _ => id) fun _ _ _ => trivial

end

namespace Simplifier

variable {s : Simplifier}

theorem fireDown_eases (light : s.rules.Lightening) (scope : SymbolTable) (stm : Stm) :
    Eases (s.fireDown scope stm) stm.weight (firedWeight stm) (· = none) := by
  intro p q r ran
  unfold fireDown at ran ⊢
  split at ran
  · rename_i new names applied
    cases ran
    have lighter := (light.down scope).lighter applied
    exact ⟨Nat.le_of_lt lighter, fun same => absurd same (Nat.ne_of_lt lighter)⟩
  · rename_i declined
    cases ran
    refine ⟨Nat.le_refl _, fun _ => ⟨fun p' => ?_, rfl⟩⟩
    rw [(light.down scope).steady declined p'.names]

theorem fireUp_eases (light : s.rules.Lightening) (scope : SymbolTable) (usage : Usage) (stm : Stm) :
    Eases (s.fireUp scope usage stm) stm.weight (firedWeight stm) (· = none) := by
  intro p q r ran
  unfold fireUp at ran ⊢
  split at ran
  · rename_i new names applied
    cases ran
    have lighter := (light.up scope usage).lighter applied
    exact ⟨Nat.le_of_lt lighter, fun same => absurd same (Nat.ne_of_lt lighter)⟩
  · rename_i declined
    cases ran
    refine ⟨Nat.le_refl _, fun _ => ⟨fun p' => ?_, rfl⟩⟩
    rw [(light.up scope usage).steady declined p'.names]

/-- The way back drops statements or keeps them all. -/
theorem sweepUp_eases (light : s.rules.Lightening) (scope : SymbolTable) (result : List Operand) (stms : List Stm) :
    Eases (s.sweepUp scope result stms) (stmsWeight stms) (fun r => stmsWeight r.2) (fun r => r.2 = stms) := by
  induction stms with
  | nil => exact Eases.pure (Nat.le_refl _) fun _ => rfl
  | cons stm stms ih =>
    rw [sweepUp, stmsWeight_cons, Nat.add_comm]
    refine ih.bind _ fun r => ?_
    obtain ⟨usage, rest⟩ := r
    dsimp only
    split
    · rw [Nat.add_comm]
      refine (fireUp_eases light scope usage stm).bind _ fun fired => ?_
      cases fired with
      | some new =>
        refine Eases.pure ?_ fun _ impossible => ?_
        · simp [firedWeight, stmsWeight_append]
        · cases impossible
      | none =>
        refine Eases.pure ?_ fun _ _ same => ?_
        · simp [firedWeight, stmsWeight_cons]
        · exact congrArg _ same
    · refine Eases.pure (Nat.le_add_right _ _) fun same => ?_
      simp only [Stm.weight] at same
      omega

end Simplifier

/-! Code -/

/-- A sweep over bodies that makes them lighter or leaves them as they are. -/
def BodySimplifier.Easing (inner : BodySimplifier) : Prop :=
  ∀ scope blocker body, Eases (inner scope blocker body) (2 * body.weight) (fun r => stmsWeight r.1 + 2 * r.2.weight)
    fun r => r.1 = [] ∧ (r.2.same body = true → r.2 = body)

namespace Simplifier

variable {s : Simplifier} {inner : BodySimplifier}

theorem lambdaWith_eases (easing : inner.Easing) (scope : SymbolTable) (blocker : Blocker) (op : Lambda) :
    Eases (lambdaWith inner scope blocker op) (2 * op.weight) (fun r => stmsWeight r.1 + 2 * r.2.weight)
      fun r => r.1 = [] ∧ (r.2.same op = true → r.2 = op) := by
  unfold lambdaWith
  rw [Lambda.weight_eq]
  refine (easing _ _ op.body).bind 0 fun r => Eases.pure ?_ ?_
  · simp only [Lambda.weight_eq]
    omega
  · rintro _ ⟨none, stays⟩
    refine ⟨none, fun same => ?_⟩
    obtain ⟨params, body, ret⟩ := op
    simp only [Lambda.same, Bool.and_eq_true] at same
    rw [map_stays scope.resolveBinder_stays same.1.1, stays same.1.2, map_stays scope.resolveTy_stays same.2]

theorem sweepMap_eases (easing : inner.Easing) (scope : SymbolTable) (k : MapKernel) :
    Eases (s.sweepMap inner scope k) (Kernel.map k).weight (fun r => stmsWeight r.1 + (Kernel.map r.2).weight)
      fun r => r.1 = [] ∧ ((Kernel.map r.2).same (.map k) = true → r.2 = k) := by
  unfold sweepMap
  rw [Kernel.weight_map, Nat.add_comm]
  refine (easing _ _ k.body).bind _ fun r => Eases.pure ?_ ?_
  · simp only [Kernel.weight_map, List.length_map]
    omega
  · rintro _ ⟨none, stays⟩
    refine ⟨none, fun same => ?_⟩
    obtain ⟨certs, width, thread, space, inputs, returns, body⟩ := k
    simp only [Kernel.same, Bool.and_eq_true, beq_iff_eq] at same
    obtain ⟨⟨⟨⟨⟨⟨sameCerts, sameWidth⟩, _⟩, sameSpace⟩, sameInputs⟩, sameReturns⟩, sameBody⟩ := same
    have spaceStays : (space.map fun d => (d.1, scope.resolveOperand d.2)) = space := by
      refine map_stays (fun d same => ?_) sameSpace
      simp only [samePair, Bool.and_eq_true] at same
      rw [scope.resolveOperand_stays _ same.2]
    have returnsStay : (returns.map fun r => (scope.resolveTy r.1, r.2)) = returns := by
      refine map_stays (fun r same => ?_) sameReturns
      simp only [samePair, Bool.and_eq_true] at same
      rw [scope.resolveTy_stays _ same.1]
    rw [sameCerts, scope.resolveOperand_stays _ sameWidth, spaceStays, map_stays (resolveInput_stays scope) sameInputs,
      returnsStay, stays sameBody]

/-- What a statement of a group kernel becomes, apart from the scope behind it. -/
theorem groupStm_eases (easing : inner.Easing) (scope : SymbolTable) (bound : NameSet) (stm : GroupStm) :
    Eases (s.groupStm inner scope bound stm) stm.weight (fun r => stmsWeight r.1 + r.2.1.weight)
      fun r => r.1 = [] ∧ (r.2.1.same stm = true → r.2.1 = stm) := by
  cases stm with
  | split size chunks division width perThread arrays =>
    refine Eases.pure (by simp [stmsWeight, GroupStm.weight]) fun _ => ⟨rfl, fun same => ?_⟩
    simp only [GroupStm.same, Bool.and_eq_true, beq_iff_eq] at same
    obtain ⟨⟨⟨⟨⟨sameSize, sameChunks⟩, _⟩, sameWidth⟩, samePerThread⟩, sameArrays⟩ := same
    rw [scope.resolveBinder_stays _ sameSize, map_stays scope.resolveBinder_stays sameChunks,
      scope.resolveOperand_stays _ sameWidth, scope.resolveOperand_stays _ samePerThread, sameArrays]
  | thread pat only body =>
    rw [groupStm, GroupStm.weight, Nat.add_comm]
    refine (easing _ _ body).bind 1 fun r => Eases.pure ?_ ?_
    · simp only [GroupStm.weight]
      omega
    · rintro _ ⟨none, stays⟩
      dsimp only at none stays ⊢
      refine ⟨none, fun same => ?_⟩
      simp only [GroupStm.same, Bool.and_eq_true] at same
      obtain ⟨⟨samePat, sameOnly⟩, sameBody⟩ := same
      have onlyStays : only.map scope.resolveOperand = only := by
        cases only with
        | none => rfl
        | some x =>
          simp only [Option.map_some, Option.toList_some, sameAll, Bool.and_true] at sameOnly
          rw [Option.map_some, scope.resolveOperand_stays x sameOnly]
      rw [scope.resolvePattern_stays _ samePat, onlyStays, stays sameBody]
  | reduce pat width op inputs =>
    rw [groupStm, GroupStm.weight, Nat.add_comm]
    refine (lambdaWith_eases easing scope .always op).bind 1 fun r => ?_
    dsimp only
    split
    · rename_i none
      refine Eases.pure ?_ ?_
      · simp only [stmsWeight, GroupStm.weight]
        omega
      · rintro _ ⟨_, stays⟩
        refine ⟨rfl, fun same => ?_⟩
        simp only [GroupStm.same, Bool.and_eq_true] at same
        obtain ⟨⟨⟨samePat, sameWidth⟩, sameOp⟩, sameInputs⟩ := same
        have inputsStay : (inputs.map fun i => (scope.resolveOperand i.1, scope.resolve i.2)) = inputs := by
          refine map_stays (fun i same => ?_) sameInputs
          simp only [samePair, Bool.and_eq_true, beq_iff_eq] at same
          rw [scope.resolveOperand_stays _ same.1, same.2]
        rw [scope.resolvePattern_stays _ samePat, scope.resolveOperand_stays _ sameWidth, stays sameOp, inputsStay]
    · intro p q r ran
      cases ran

theorem groupStms_eases (easing : inner.Easing) (scope : SymbolTable) (bound : NameSet) (stms : List GroupStm) :
    Eases (s.groupStms inner scope bound stms) (groupStmsWeight stms) (fun r => stmsWeight r.1 + groupStmsWeight r.2.1)
      fun r => r.1 = [] ∧ (sameGroupStms r.2.1 stms = true → r.2.1 = stms) := by
  induction stms generalizing scope bound with
  | nil => exact Eases.pure (by simp [stmsWeight, groupStmsWeight]) fun _ => ⟨rfl, fun _ => rfl⟩
  | cons stm stms ih =>
    rw [groupStms, groupStmsWeight]
    refine (groupStm_eases easing scope bound stm).bind _ fun out => ?_
    obtain ⟨hoisted, first, behind⟩ := out
    rw [Nat.add_comm]
    refine (ih _ _).bind _ fun out => ?_
    obtain ⟨more, rest, last⟩ := out
    refine Eases.pure ?_ ?_
    · simp only [stmsWeight_append, groupStmsWeight]
      omega
    · rintro _ ⟨none', stay⟩ ⟨none, stays⟩
      dsimp only at none none' stay stays ⊢
      refine ⟨by rw [none, none', List.nil_append], fun same => ?_⟩
      simp only [sameGroupStms, Bool.and_eq_true] at same
      rw [stays same.1, stay same.2]

theorem liveGroupStms_weight (result : List GroupResult) (stms : List GroupStm) :
    groupStmsWeight (liveGroupStms result stms).2 ≤ groupStmsWeight stms ∧
      (groupStmsWeight (liveGroupStms result stms).2 = groupStmsWeight stms → (liveGroupStms result stms).2 = stms) := by
  induction stms with
  | nil => exact ⟨Nat.le_refl _, fun _ => rfl⟩
  | cons stm stms ih =>
    have heavy : 0 < stm.weight := by cases stm <;> simp only [GroupStm.weight] <;> omega
    simp only [liveGroupStms]
    split
    · simp only [groupStmsWeight]
      exact ⟨by omega, fun same => congrArg _ (ih.2 (by omega))⟩
    · simp only [groupStmsWeight]
      exact ⟨by omega, fun same => by omega⟩

theorem groupBody_eases (easing : inner.Easing) (scope : SymbolTable) (bound : List Name) (body : GroupBody) :
    Eases (s.groupBody inner scope bound body) body.weight (fun r => stmsWeight r.1 + r.2.weight)
      fun r => r.1 = [] ∧ (r.2.same body = true → r.2 = body) := by
  obtain ⟨stms, result⟩ := body
  unfold groupBody
  rw [GroupBody.weight]
  refine (groupStms_eases easing scope (.ofList bound) stms).bind 0 fun out => ?_
  obtain ⟨hoisted, next, behind⟩ := out
  have live := liveGroupStms_weight (result.map (resolveResult behind)) next
  refine Eases.pure ?_ ?_
  · simp only [GroupBody.weight, dropDeadGroupStms]
    omega
  · rintro heavy ⟨none, stay⟩
    dsimp only at none stay ⊢
    refine ⟨none, fun same => ?_⟩
    simp only [GroupBody.weight, GroupBody.same, Bool.and_eq_true, dropDeadGroupStms] at heavy same ⊢
    rw [live.2 (by omega)] at same ⊢
    rw [stay same.1, map_stays (resolveResult_stays _) same.2]

theorem kernel_eases (easing : inner.Easing) (scope : SymbolTable) (k : Kernel) :
    Eases (s.kernel inner scope k) k.weight (fun r => stmsWeight r.1 + r.2.weight)
      fun r => r.1 = [] ∧ (r.2.same k = true → r.2 = k) := by
  cases k with
  | map k =>
    refine (sweepMap_eases easing scope k).bind 0 fun out => ?_
    obtain ⟨hoisted, k'⟩ := out
    refine Eases.pure (Nat.le_refl _) ?_
    exact fun _ r => ⟨r.1, fun same => congrArg _ (r.2 same)⟩
  | scan k =>
    rw [kernel, Kernel.weight_scan, Nat.mul_add, Nat.add_comm, Nat.add_assoc]
    refine (lambdaWith_eases easing scope s.parallel k.combine).bind _ fun out => ?_
    obtain ⟨hoisted, combine⟩ := out
    dsimp only
    rw [Nat.add_left_comm]
    refine (lambdaWith_eases easing scope s.parallel k.fold).bind _ fun out => ?_
    obtain ⟨more, fold⟩ := out
    refine Eases.pure ?_ ?_
    · simp only [stmsWeight_append, Kernel.weight_scan, SymbolTable.resolveAll, List.length_map]
      omega
    · rintro _ ⟨none', stays'⟩ ⟨none, stays⟩
      dsimp only at none none' stays stays' ⊢
      refine ⟨by rw [none, none', List.nil_append], fun same => ?_⟩
      obtain ⟨certs, width, size, combine₀, fold₀, neutral, arrays⟩ := k
      simp only [Kernel.same, Bool.and_eq_true, beq_iff_eq] at same
      obtain ⟨⟨⟨⟨⟨⟨sameCerts, sameWidth⟩, sameSize⟩, sameCombine⟩, sameFold⟩, sameNeutral⟩, sameArrays⟩ := same
      rw [sameCerts, scope.resolveOperand_stays _ sameWidth, scope.resolveSize_stays _ sameSize, stays sameCombine,
        stays' sameFold, scope.resolveOperands_stay _ sameNeutral, sameArrays]
  | chunked k =>
    rw [kernel, Kernel.weight_chunked, Nat.add_comm]
    refine (lambdaWith_eases easing scope s.parallel k.op).bind _ fun out => ?_
    obtain ⟨hoisted, op⟩ := out
    refine Eases.pure ?_ ?_
    · simp only [Kernel.weight_chunked, SymbolTable.resolveAll, List.length_map]
      omega
    · rintro _ ⟨none, stays⟩
      dsimp only at none stays ⊢
      refine ⟨none, fun same => ?_⟩
      obtain ⟨certs, width, size, division, op₀, arrays⟩ := k
      simp only [Kernel.same, Bool.and_eq_true, beq_iff_eq] at same
      obtain ⟨⟨⟨⟨⟨sameCerts, sameWidth⟩, sameSize⟩, _⟩, sameOp⟩, sameArrays⟩ := same
      rw [sameCerts, scope.resolveOperand_stays _ sameWidth, scope.resolveSize_stays _ sameSize, stays sameOp, sameArrays]
  | scatter k =>
    rw [kernel, Kernel.weight_scatter, Nat.add_comm]
    refine (lambdaWith_eases easing scope s.parallel k.op).bind _ fun out => ?_
    obtain ⟨hoisted, op⟩ := out
    refine Eases.pure ?_ ?_
    · simp only [Kernel.weight_scatter, SymbolTable.resolveAll, List.length_map]
      omega
    · rintro _ ⟨none, stays⟩
      dsimp only at none stays ⊢
      refine ⟨none, fun same => ?_⟩
      obtain ⟨certs, width, op₀, arrays, dests⟩ := k
      simp only [Kernel.same, Bool.and_eq_true, beq_iff_eq] at same
      obtain ⟨⟨⟨⟨sameCerts, sameWidth⟩, sameOp⟩, sameArrays⟩, sameDests⟩ := same
      have destsStay : (dests.map fun d => (scope.resolveOperand d.1, scope.resolve d.2)) = dests := by
        refine map_stays (fun d same => ?_) sameDests
        simp only [samePair, Bool.and_eq_true, beq_iff_eq] at same
        rw [scope.resolveOperand_stays _ same.1, same.2]
      rw [sameCerts, scope.resolveOperand_stays _ sameWidth, stays sameOp, sameArrays, destsStay]
  | group k =>
    rw [kernel, Kernel.weight_group]
    refine (groupBody_eases easing _ _ k.body).bind 0 fun out => ?_
    obtain ⟨hoisted, body⟩ := out
    refine Eases.pure (Nat.le_refl _) ?_
    rintro _ ⟨none, stays⟩
    dsimp only at none stays ⊢
    refine ⟨none, fun same => ?_⟩
    obtain ⟨certs, size, space, returns, body₀⟩ := k
    simp only [Kernel.same, Bool.and_eq_true, beq_iff_eq] at same
    obtain ⟨⟨⟨⟨sameCerts, sameSize⟩, _⟩, sameReturns⟩, sameBody⟩ := same
    rw [sameCerts, scope.resolveSize_stays _ sameSize, map_stays scope.resolveTy_stays sameReturns, stays sameBody]
  | numGroups => exact Eases.pure (Nat.le_refl _) fun _ => ⟨rfl, fun _ => rfl⟩
  | groupSize => exact Eases.pure (Nat.le_refl _) fun _ => ⟨rfl, fun _ => rfl⟩

theorem exp_eases (easing : inner.Easing) (scope : SymbolTable) (e : Exp) :
    Eases (s.exp inner scope e) e.weight (fun r => stmsWeight r.1 + r.2.weight)
      fun r => r.1 = [] ∧ (r.2.same e = true → r.2 = e) := by
  have leaf {e e' : Exp} (light : e'.weight = e.weight) (stays : e'.same e = true → e' = e) :
      Eases (Pure.pure ([], e') : Simplify (List Stm × Exp)) e.weight (fun r => stmsWeight r.1 + r.2.weight)
        fun r => r.1 = [] ∧ (r.2.same e = true → r.2 = e) :=
    Eases.pure (by simp only [stmsWeight, light]; omega) fun _ => ⟨rfl, stays⟩
  cases e with
  | operand x =>
    refine leaf rfl fun same => ?_
    rw [Exp.same] at same
    rw [scope.resolveOperand_stays x same]
  | binary op x y =>
    refine leaf rfl fun same => ?_
    simp only [Exp.same, Bool.and_eq_true] at same
    rw [scope.resolveOperand_stays x same.1.2, scope.resolveOperand_stays y same.2]
  | compare op x y =>
    refine leaf rfl fun same => ?_
    simp only [Exp.same, Bool.and_eq_true] at same
    rw [scope.resolveOperand_stays x same.1.2, scope.resolveOperand_stays y same.2]
  | index array indices =>
    refine leaf rfl fun same => ?_
    simp only [Exp.same, Bool.and_eq_true, beq_iff_eq] at same
    rw [same.1, scope.resolveOperands_stay indices same.2]
  | update array indices value =>
    refine leaf rfl fun same => ?_
    simp only [Exp.same, Bool.and_eq_true, beq_iff_eq] at same
    rw [same.1.1, scope.resolveOperands_stay indices same.1.2, scope.resolveOperand_stays value same.2]
  | iota count start stride =>
    refine leaf rfl fun same => ?_
    simp only [Exp.same, Bool.and_eq_true] at same
    rw [scope.resolveOperand_stays count same.1.1, scope.resolveOperand_stays start same.1.2,
      scope.resolveOperand_stays stride same.2]
  | replicate shape value =>
    refine leaf rfl fun same => ?_
    simp only [Exp.same, Bool.and_eq_true] at same
    rw [scope.resolveOperands_stay shape same.1, scope.resolveOperand_stays value same.2]
  | reshape shape array =>
    refine leaf rfl fun same => ?_
    simp only [Exp.same, Bool.and_eq_true, beq_iff_eq] at same
    rw [scope.resolveOperands_stay shape same.1, same.2]
  | rearrange perm array =>
    refine leaf rfl fun same => ?_
    simp only [Exp.same, Bool.and_eq_true, beq_iff_eq] at same
    rw [same.2]
  | copy array =>
    refine leaf rfl fun same => ?_
    simp only [Exp.same, beq_iff_eq] at same
    rw [same]
  | alloc size space =>
    refine leaf rfl fun same => ?_
    simp only [Exp.same, Bool.and_eq_true] at same
    rw [scope.resolveOperand_stays size same.1]
  | branch cond onTrue onFalse ret =>
    rw [exp, Exp.weight, Nat.mul_add]
    refine (easing _ _ onTrue).bind _ fun out => ?_
    obtain ⟨hoisted, first⟩ := out
    dsimp only
    rw [Nat.add_comm]
    refine (easing _ _ onFalse).bind _ fun out => ?_
    obtain ⟨more, second⟩ := out
    refine Eases.pure ?_ ?_
    · simp only [stmsWeight_append, Exp.weight]
      omega
    · rintro _ ⟨none', stays'⟩ ⟨none, stays⟩
      dsimp only at none none' stays stays' ⊢
      refine ⟨by rw [none, none', List.nil_append], fun same => ?_⟩
      simp only [Exp.same, Bool.and_eq_true] at same
      obtain ⟨⟨⟨sameCond, sameTrue⟩, sameFalse⟩, sameRet⟩ := same
      rw [scope.resolveOperand_stays cond sameCond, stays sameTrue, stays' sameFalse, map_stays scope.resolveTy_stays sameRet]
  | loop context values index bound body =>
    rw [exp, Exp.weight]
    refine (easing _ _ body).bind 0 fun out => ?_
    obtain ⟨hoisted, inside⟩ := out
    refine Eases.pure ?_ ?_
    · simp only [Exp.weight]
      omega
    · rintro _ ⟨none, stays⟩
      dsimp only at none stays ⊢
      refine ⟨none, fun same => ?_⟩
      simp only [Exp.same, Bool.and_eq_true] at same
      obtain ⟨⟨⟨⟨sameContext, sameValues⟩, _⟩, sameBound⟩, sameBody⟩ := same
      rw [resolveMerge_stays scope context sameContext, resolveMerge_stays scope values sameValues,
        scope.resolveOperand_stays bound sameBound, stays sameBody]
  | launch k =>
    refine (kernel_eases easing scope k).bind 0 fun out => ?_
    obtain ⟨hoisted, k'⟩ := out
    refine Eases.pure (Nat.le_refl _) ?_
    rintro _ ⟨none, stays⟩
    refine ⟨none, fun same => ?_⟩
    rw [Exp.same] at same
    exact congrArg _ (stays same)

theorem settle_eases (easing : inner.Easing) (blocker : Blocker) (level : Level) (st : Stm) :
    Eases (s.settle inner blocker level st) (st.weight + level.weight) Level.weight (level.Gains · [st]) := by
  unfold settle stm
  rw [Stm.weight, Nat.add_comm 1, Nat.add_assoc, bind_assoc]
  refine (exp_eases easing level.scope st.exp).bind _ fun out => ?_
  obtain ⟨hoisted, e⟩ := out
  rw [pure_bind]
  refine Eases.pure ?_ ?_
  · rw [Level.weight_addAll, stmsWeight_append, stmsWeight_cons, stmsWeight, Stm.weight]
    dsimp only
    omega
  · rintro _ ⟨none, stays⟩
    dsimp only at none stays ⊢
    rw [none]
    refine Level.gains_add fun same => ?_
    obtain ⟨pat, certs, exp⟩ := st
    simp only [Stm.same, Bool.and_eq_true, beq_iff_eq] at same
    rw [level.scope.resolvePattern_stays pat same.1.1, same.1.2, stays same.2]

theorem stms_stay {new old : List Stm} (h : List.Forall₂ Stm.Stays new old) (same : sameStms new old = true) : new = old := by
  induction h with
  | nil => rfl
  | cons head _ ih =>
    simp only [sameStms, Bool.and_eq_true] at same
    rw [head same.1, ih same.2]

theorem sweepBody_eases (light : s.rules.Lightening) (easing : inner.Easing) : (s.sweepBody inner).Easing := by
  intro scope blocker body p q r ran
  obtain ⟨level, between, drained, ran⟩ := Pass.bind_eq_ok.mp ran
  obtain ⟨⟨usage, stms⟩, last, swept, ran⟩ := Pass.bind_eq_ok.mp ran
  obtain ⟨rfl, rfl⟩ := Pass.pure_eq_ok.mp ran
  obtain ⟨light₁, same₁⟩ := drain_eases (fun level stm => fireDown_eases light level.scope stm)
    (fun level stm => settle_eases easing blocker level stm) _ body.stms (.start scope body) _ _ _ drained
  obtain ⟨light₂, same₂⟩ := sweepUp_eases light level.scope _ level.kept _ _ _ swept
  simp only [Level.start, Level.weight, stmsWeight, Nat.add_zero, Body.weight_eq] at light₁ same₁ light₂ same₂ ⊢
  refine ⟨by omega, fun heavy => ?_⟩
  obtain ⟨silent₁, gains⟩ := same₁ (by omega)
  obtain ⟨silent₂, rfl⟩ := same₂ (by omega)
  have nothing : level.hoisted = [] := eq_nil_of_stmsWeight (by omega)
  refine ⟨fun p' => ?_, nothing, fun same => ?_⟩
  · refine Pass.bind_eq_ok.mpr ⟨level, p', silent₁ p', Pass.bind_eq_ok.mpr ⟨_, p', silent₂ p', ?_⟩⟩
    exact Pass.pure_eq_ok.mpr ⟨rfl, rfl⟩
  · obtain ⟨stms, result⟩ := body
    simp only [Body.same, Bool.and_eq_true] at same
    obtain ⟨_, kept, shown, stay⟩ := gains nothing
    rw [List.nil_append] at shown
    rw [shown] at same ⊢
    rw [stms_stay stay same.1, SymbolTable.resolveOperands_stay _ _ same.2]

theorem bodyTo_eases (light : s.rules.Lightening) (depth : Nat) : (s.bodyTo depth).Easing := by
  induction depth with
  | zero => exact fun _ _ body => Eases.pure (by simp [stmsWeight]) fun _ => ⟨rfl, fun _ => rfl⟩
  | succ depth ih => exact sweepBody_eases light ih

end Simplifier

/-- Whether simplification ends, within `n` sweeps, with one that changes nothing. -/
def FunDecl.settles (s : Simplifier) : Nat → FunDecl → Progress → Bool
  | 0, _, _ => false
  | n + 1, f, p =>
    match f.sweep s p with
    | .ok (next, q) => next.same f || next.settles s n q
    | .error _ => false

/-- A sweep that changes nothing changes nothing from any supply, and draws no name. -/
theorem FunDecl.sweep_stays {s : Simplifier} (light : s.rules.Lightening) {f g : FunDecl} {p q : Progress}
    (swept : f.sweep s p = .ok (g, q)) (same : g.same f = true) : g = f ∧ ∀ p', f.sweep s p' = .ok (f, p') := by
  unfold sweep at swept ⊢
  obtain ⟨⟨hoisted, body⟩, between, ran, rest⟩ := Pass.bind_eq_ok.mp swept
  dsimp only at rest
  split at rest
  · rename_i none
    obtain ⟨rfl, rfl⟩ := Pass.pure_eq_ok.mp rest
    simp only [FunDecl.same, Bool.and_eq_true] at same
    obtain rfl := List.isEmpty_iff.mp none
    obtain ⟨_, silent⟩ := Simplifier.bodyTo_eases light f.body.depth _ _ f.body _ _ _ ran
    obtain ⟨silent, _, stays⟩ := silent (by simp [stmsWeight, body.weight_same _ same.2])
    have fixed : body = f.body := stays same.2
    subst fixed
    refine ⟨rfl, fun p' => Pass.bind_eq_ok.mpr ⟨_, p', silent p', ?_⟩⟩
    rfl
  · cases rest

theorem FunDecl.simplify_succ {s : Simplifier} {f g : FunDecl} {p q : Progress} (swept : f.sweep s p = .ok (g, q)) (n : Nat) :
    f.simplify s (n + 1) p = if g.same f then .ok (g, q) else g.simplify s n q := by
  show (f.sweep s >>= fun next => if next.same f then Pure.pure next else next.simplify s n) p = _
  simp only [bind, StateT.bind, swept, Except.bind]
  split <;> rfl

/-- What stays under one sweep stays however often it is simplified. -/
theorem FunDecl.simplify_fixed {s : Simplifier} {f : FunDecl} (fixed : ∀ p, f.sweep s p = .ok (f, p)) (same : f.same f = true)
    (n : Nat) (p : Progress) : f.simplify s n p = .ok (f, p) := by
  cases n with
  | zero => rfl
  | succ n => rw [simplify_succ (fixed p), if_pos same]

theorem FunDecl.fixed_of_settles {s : Simplifier} (light : s.rules.Lightening) {n : Nat} {f g : FunDecl} {p q : Progress}
    (simplified : f.simplify s n p = .ok (g, q)) (settled : f.settles s n p = true) :
    g.same g = true ∧ ∀ p', g.sweep s p' = .ok (g, p') := by
  induction n generalizing f p with
  | zero => cases settled
  | succ n ih =>
    rw [simplify] at simplified
    obtain ⟨next, between, swept, rest⟩ := Pass.bind_eq_ok.mp simplified
    rw [settles, swept] at settled
    dsimp only at settled rest
    split at rest
    · rename_i same
      obtain ⟨rfl, rfl⟩ := Pass.pure_eq_ok.mp rest
      obtain ⟨rfl, fixed⟩ := sweep_stays light swept same
      exact ⟨same, fixed⟩
    · rename_i changed
      exact ih rest (by simpa [changed] using settled)

/-- If a sweep with the standard rules leaves a function unchanged, then it has drawn no name, and from every
other supply it does the same; so a simplification that ended with such a sweep has given a function
that further simplification leaves alone, together with the supply. -/
theorem FunDecl.fixpoint_stays (keepFailing : Bool) (f : FunDecl) :
    (∀ p g q, f.sweep (.make .standard keepFailing) p = .ok (g, q) → g.same f = true →
      g = f ∧ q = p ∧ ∀ p', f.sweep (.make .standard keepFailing) p' = .ok (f, p')) ∧
    (∀ n p g q, f.simplify (.make .standard keepFailing) n p = .ok (g, q) →
      f.settles (.make .standard keepFailing) n p = true →
      ∀ n' p', g.simplify (.make .standard keepFailing) n' p' = .ok (g, p')) := by
  have light : (Simplifier.make .standard keepFailing).rules.Lightening := RuleSet.standard_lightening
  constructor
  · intro p g q swept same
    obtain ⟨rfl, fixed⟩ := sweep_stays light swept same
    cases swept.symm.trans (fixed p)
    exact ⟨rfl, rfl, fixed⟩
  · intro n p g q simplified settled
    obtain ⟨same, fixed⟩ := fixed_of_settles light simplified settled
    exact simplify_fixed fixed same

/-- Adds a number to the elements of an array, in a kernel that reads each once for every name it is given. -/
def sampleReading (params : List Name) : FunDecl :=
  let n : Name := ⟨"n", 0⟩
  let xs : Name := ⟨"xs", 1⟩
  let ys : Name := ⟨"ys", 2⟩
  let i : Name := ⟨"i", 4⟩
  let z : Name := ⟨"z", 5⟩
  let word : Ty := .scalar .i64
  let row : Ty := .array .i64 [.var n] false
  let kernel : MapKernel :=
    ⟨[], .var n, ⟨"t", 3⟩, [(i, .var n)], params.map fun x => ⟨⟨x, word, none⟩, xs, [.var i]⟩, [(word, [0])],
      ⟨[.ofWord z (.binary .add (.var ⟨"x", 6⟩) (.var n))], [.var z]⟩⟩
  ⟨"main", [⟨n, word, none⟩, ⟨xs, row, none⟩], [row], ⟨[.single ys row (.launch (.map kernel))], [.var ys]⟩⟩

theorem sampleReading_fixpoint_stays :
    (sampleReading [⟨"x", 6⟩, ⟨"y", 7⟩]).simplify (.make .standard true) 4 ⟨⟨8⟩, 0⟩ = .ok (sampleReading [⟨"x", 6⟩], ⟨⟨8⟩, 1⟩) ∧
      (sampleReading [⟨"x", 6⟩, ⟨"y", 7⟩]).settles (.make .standard true) 4 ⟨⟨8⟩, 0⟩ = true ∧
      (sampleReading [⟨"x", 6⟩]).sweep (.make .standard true) ⟨⟨8⟩, 0⟩ = .ok (sampleReading [⟨"x", 6⟩], ⟨⟨8⟩, 0⟩) ∧
      (sampleReading [⟨"x", 6⟩]).same (sampleReading [⟨"x", 6⟩]) = true ∧
      (∀ p, (sampleReading [⟨"x", 6⟩]).sweep (.make .standard true) p = .ok (sampleReading [⟨"x", 6⟩], p)) ∧
      ∀ n p, (sampleReading [⟨"x", 6⟩]).simplify (.make .standard true) n p = .ok (sampleReading [⟨"x", 6⟩], p) := by
  have first : (sampleReading [⟨"x", 6⟩, ⟨"y", 7⟩]).sweep (.make .standard true) ⟨⟨8⟩, 0⟩ =
      .ok (sampleReading [⟨"x", 6⟩], ⟨⟨8⟩, 1⟩) := by rfl
  have changed : (sampleReading [⟨"x", 6⟩]).same (sampleReading [⟨"x", 6⟩, ⟨"y", 7⟩]) = false := by decide +kernel
  have swept (n : Nat) : (sampleReading [⟨"x", 6⟩]).sweep (.make .standard true) ⟨⟨8⟩, n⟩ =
      .ok (sampleReading [⟨"x", 6⟩], ⟨⟨8⟩, n⟩) := by rfl
  have same : (sampleReading [⟨"x", 6⟩]).same (sampleReading [⟨"x", 6⟩]) = true := by decide +kernel
  have simplified : (sampleReading [⟨"x", 6⟩, ⟨"y", 7⟩]).simplify (.make .standard true) 4 ⟨⟨8⟩, 0⟩ =
      .ok (sampleReading [⟨"x", 6⟩], ⟨⟨8⟩, 1⟩) := by
    rw [FunDecl.simplify_succ first, if_neg (by rw [changed]; decide), FunDecl.simplify_succ (swept 1), if_pos same]
  have settled : (sampleReading [⟨"x", 6⟩, ⟨"y", 7⟩]).settles (.make .standard true) 4 ⟨⟨8⟩, 0⟩ = true := by decide +kernel
  exact ⟨simplified, settled, swept 0, same, ((FunDecl.fixpoint_stays true _).1 _ _ _ (swept 0) same).2.2,
    (FunDecl.fixpoint_stays true _).2 _ _ _ _ simplified settled⟩

end ArrayKernels
