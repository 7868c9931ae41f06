import ArrayKernels.Proofs.SweepScoping
import ArrayKernels.Proofs.Weight

/-! Every sweep has an outcome. Under a blocker that keeps everything nothing leaves a body, however deep the
statements that rise into it come from, so that neither a function nor the operator of a group reduction
releases a statement. And the work on a queue is done before the replacements that it is granted are used up. -/
namespace ArrayKernels

/-- The step has an outcome from every state. -/
def Ends {α : Type} (m : Simplify α) : Prop := ∀ p, ∃ r q, m p = .ok (r, q)

namespace Ends

variable {α β : Type} {m : Simplify α} {f : α → Simplify β}

theorem pure (r : α) : Ends (pure r) := fun p => ⟨r, p, rfl⟩

theorem bind (first : Ends m) (second : ∀ {p r q}, m p = .ok (r, q) → Ends (f r)) : Ends (m >>= f) := by
  intro p
  obtain ⟨r, between, ran⟩ := first p
  obtain ⟨out, q, ran'⟩ := second ran between
  exact ⟨out, q, Pass.bind_eq_ok.mpr ⟨r, between, ran, ran'⟩⟩

theorem mapM {f : α → Simplify β} (one : ∀ x, Ends (f x)) (xs : List α) : Ends (xs.mapM f) := by
  induction xs with
  | nil => exact .pure []
  | cons x xs ih =>
    rw [List.mapM_cons]
    exact (one x).bind fun _ => ih.bind fun _ => .pure _

end Ends

/-! The work on a queue -/

section
variable {σ : Type} {fire : σ → Stm → Simplify (Option (List Stm))} {settle : σ → Stm → Simplify σ}

theorem workThrough_ends {replaced : List Stm → σ → Simplify σ} (fires : ∀ level stm, Ends (fire level stm))
    (settles : ∀ level stm, Ends (settle level stm)) (goesOn : ∀ queue level, Ends (replaced queue level)) (queue : List Stm) (level : σ) :
    Ends (workThrough fire settle replaced queue level) := by
  induction queue generalizing level with
  | nil => exact .pure level
  | cons stm queue ih =>
    refine (fires level stm).bind fun {_ fired _} _ => ?_
    cases fired with
    | some new => exact goesOn _ level
    | none => exact (settles level stm).bind fun _ => ih _

theorem drain_ends (fires : ∀ level stm, Ends (fire level stm)) (settles : ∀ level stm, Ends (settle level stm)) (n : Nat)
    (queue : List Stm) (level : σ) : Ends (drain fire settle n queue level) := by
  induction n generalizing queue level with
  | zero => exact workThrough_ends (fun _ _ => .pure none) settles (fun _ level => .pure level) queue level
  | succ n ih => exact workThrough_ends fires settles ih queue level

/-- The work on a queue with no bound on the replacements. -/
inductive WorkedThrough (fire : σ → Stm → Simplify (Option (List Stm))) (settle : σ → Stm → Simplify σ) :
    List Stm → σ → Progress → σ → Progress → Prop
  | done {level p} : WorkedThrough fire settle [] level p level p
  | replaced {stm queue level p new between last q} : fire level stm p = .ok (some new, between) →
      WorkedThrough fire settle (new ++ queue) level between last q → WorkedThrough fire settle (stm :: queue) level p last q
  | settled {stm queue level p between next after last q} : fire level stm p = .ok (none, between) →
      settle level stm between = .ok (next, after) → WorkedThrough fire settle queue next after last q →
      WorkedThrough fire settle (stm :: queue) level p last q

theorem replacementsIn_cons (stm : Stm) (stms : List Stm) :
    replacementsIn (stm :: stms) = stm.exp.replacements + replacementsIn stms := rfl

theorem replacementsIn_append (before after : List Stm) :
    replacementsIn (before ++ after) = replacementsIn before + replacementsIn after := by
  induction before with
  | nil => exact (Nat.zero_add _).symm
  | cons stm before ih => rw [List.cons_append, replacementsIn_cons, replacementsIn_cons, ih, Nat.add_assoc]

/-- Every replacement allows fewer replacements than what it replaces, and where there is none nothing happens. -/
structure Spends (fire : σ → Stm → Simplify (Option (List Stm))) : Prop where
  ends : ∀ level stm, Ends (fire level stm)
  fewer : ∀ {level stm p new q}, fire level stm p = .ok (some new, q) → replacementsIn new < stm.exp.replacements
  quiet : ∀ {level stm p q}, fire level stm p = .ok (none, q) → q = p

theorem Spends.workThrough_worked (spends : Spends fire) {replaced : List Stm → σ → Simplify σ} {n : Nat}
    (goesOn : ∀ {queue level p last q}, replacementsIn queue ≤ n → replaced queue level p = .ok (last, q) →
      WorkedThrough fire settle queue level p last q)
    {queue : List Stm} {level last : σ} {p q : Progress} (enough : replacementsIn queue ≤ n + 1)
    (ran : workThrough fire settle replaced queue level p = .ok (last, q)) : WorkedThrough fire settle queue level p last q := by
  induction queue generalizing level p with
  | nil =>
    obtain ⟨rfl, rfl⟩ := Pass.pure_eq_ok.mp ran
    exact .done
  | cons stm queue ih =>
    rw [replacementsIn_cons] at enough
    obtain ⟨fired, between, tried, ran⟩ := Pass.bind_eq_ok.mp ran
    cases fired with
    | some new =>
      have less := spends.fewer tried
      refine .replaced tried (goesOn ?_ ran)
      rw [replacementsIn_append]
      omega
    | none =>
      obtain ⟨next, after, done, ran⟩ := Pass.bind_eq_ok.mp ran
      exact .settled tried done (ih (by omega) ran)

/-- A bound that is as large as what the queue allows is not noticed: the work goes on until every statement is settled that is
not replaced. -/
theorem Spends.drain_worked (spends : Spends fire) {n : Nat} {queue : List Stm} {level last : σ} {p q : Progress}
    (enough : replacementsIn queue ≤ n) (ran : drain fire settle n queue level p = .ok (last, q)) :
    WorkedThrough fire settle queue level p last q := by
  induction n generalizing queue level p last q with
  | succ n ih => exact spends.workThrough_worked ih enough ran
  | zero =>
    -- the queue allows no replacement, so that trying none is as good as trying
    unfold drain at ran
    induction queue generalizing level p with
    | nil =>
      obtain ⟨rfl, rfl⟩ := Pass.pure_eq_ok.mp ran
      exact .done
    | cons stm queue ih =>
      rw [replacementsIn_cons] at enough
      obtain ⟨_, _, skipped, ran⟩ := Pass.bind_eq_ok.mp ran
      obtain ⟨rfl, rfl⟩ := Pass.pure_eq_ok.mp skipped
      obtain ⟨next, after, done, ran⟩ := Pass.bind_eq_ok.mp ran
      obtain ⟨fired, between, tried⟩ := spends.ends level stm p
      cases fired with
      | some new => exact absurd (spends.fewer tried) (by omega)
      | none => exact .settled tried (spends.quiet tried ▸ done) (ih (by omega) ran)

end

/-! The standard rules spend replacements -/

section
variable {table : SymbolTable} {stm : Stm} {names names' : NameSupply} {new : List Stm}

theorem replacementsIn_withKernel (stm : Stm) (k : Kernel) : replacementsIn [stm.withKernel k] = (Exp.launch k).replacements := rfl

theorem Exp.replacements_map (k : MapKernel) : (Exp.launch (.map k)).replacements = k.inputs.length + k.returns.length := rfl

theorem Exp.replacements_scan (k : ScanKernel) : (Exp.launch (.scan k)).replacements = k.arrays.length := rfl

theorem Exp.replacements_chunked (k : ChunkedKernel) : (Exp.launch (.chunked k)).replacements = k.arrays.length := rfl

theorem Exp.replacements_scatter (k : ScatterKernel) : (Exp.launch (.scatter k)).replacements = k.arrays.length := rfl

theorem replicateOutputs_replacements {k : MapKernel} {outputs : List (Binder × (Ty × List Nat) × Operand)} {stms : List Stm}
    (made : replicateOutputs stm k outputs names = (stms, names')) : replacementsIn stms = 0 := by
  induction outputs generalizing names stms names' with
  | nil =>
    cases made
    rfl
  | cons output outputs ih =>
    obtain ⟨b, ⟨ty, perm⟩, value⟩ := output
    rcases rest : replicateOutputs stm k outputs (names.fresh (b.name.base ++ "_flat")).2 with ⟨more, final⟩
    simp only [replicateOutputs, rest] at made
    cases made
    rewrite [replacementsIn_cons, replacementsIn_cons, ih rest]
    rfl

theorem dropUnusedInputs_fewer (h : dropUnusedInputs table stm names = some (new, names')) :
    replacementsIn new < stm.exp.replacements := by
  obtain ⟨k, launched, fewer, rfl, _⟩ := dropUnusedInputs_eq_some h
  rw [replacementsIn_withKernel, launched, Exp.replacements_map, Exp.replacements_map]
  exact Nat.add_lt_add_right fewer _

theorem inlineInputs_fewer (h : inlineInputs table stm names = some (new, names')) :
    replacementsIn new < stm.exp.replacements := by
  obtain ⟨k, prelude, kept, launched, made, some, rfl⟩ := inlineInputs_eq_some h
  have light := inlineEach_weight made
  have heavy : 0 < stmsWeight prelude := Nat.pos_of_ne_zero fun zero => some (eq_nil_of_stmsWeight zero)
  rw [replacementsIn_withKernel, launched, Exp.replacements_map, Exp.replacements_map]
  dsimp only
  omega

theorem hoistInvariantOutputs_fewer (h : hoistInvariantOutputs table stm names = some (new, names')) :
    replacementsIn new < stm.exp.replacements := by
  obtain ⟨k, stms, launched, flagged, some, _, made, moved⟩ := hoistInvariantOutputs_eq_some h
  have one := List.count_pos_iff.mpr some
  have matched := flagged.returns
  have kept := count_unflagged (invariantFlags table k)
  rw [launched, Exp.replacements_map]
  obtain ⟨rfl, _⟩ | rfl := moved
  · rw [replicateOutputs_replacements made]
    omega
  · have picked : (pick ((invariantFlags table k).map (!·)) k.returns).length = ((invariantFlags table k).map (!·)).count true :=
      length_pick (by rw [List.length_map, matched])
    have left : replacementsIn [keepOutputs ((invariantFlags table k).map (!·)) stm k] =
        k.inputs.length + (pick ((invariantFlags table k).map (!·)) k.returns).length := rfl
    rw [replacementsIn_append, replicateOutputs_replacements made, left]
    omega

theorem inlineChunkIotas_fewer (h : inlineChunkIotas table stm names = some (new, names')) :
    replacementsIn new < stm.exp.replacements := by
  obtain ⟨k, _, _, params, before, launched, _, matched, some, made, rfl⟩ := inlineChunkIotas_eq_some h
  have fewer := length_otherStreams matched some
  rw [replacementsIn_withKernel, launched, Exp.replacements_chunked, Exp.replacements_chunked, List.length_map]
  omega

theorem inlineScanIotas_fewer (h : inlineScanIotas table stm names = some (new, names')) :
    replacementsIn new < stm.exp.replacements := by
  obtain ⟨k, _, params, _, launched, _, matched, rfl, some, _, rfl⟩ := inlineScanIotas_eq_some h
  have fewer := length_otherStreams (by rw [List.length_drop]; omega) some
  rw [replacementsIn_withKernel, launched, Exp.replacements_scan, Exp.replacements_scan, List.length_map]
  omega

theorem inlineScatterIotas_fewer (h : inlineScatterIotas table stm names = some (new, names')) :
    replacementsIn new < stm.exp.replacements := by
  obtain ⟨k, _, params, launched, _, matched, some, _, rfl⟩ := inlineScatterIotas_eq_some h
  have fewer := length_otherStreams matched some
  rw [replacementsIn_withKernel, launched, Exp.replacements_scatter, Exp.replacements_scatter, List.length_map]
  omega

theorem RuleSet.standard_fewer (h : standard.replaceDown table stm names = some (new, names')) :
    replacementsIn new < stm.exp.replacements := by
  obtain ⟨rule, mem, applied⟩ := List.exists_of_findSome?_eq_some h
  simp only [standard, List.mem_cons, List.not_mem_nil, or_false] at mem
  rcases mem with rfl | rfl | rfl | rfl | rfl | rfl
  · exact dropUnusedInputs_fewer applied
  · exact inlineInputs_fewer applied
  · exact hoistInvariantOutputs_fewer applied
  · exact inlineChunkIotas_fewer applied
  · exact inlineScanIotas_fewer applied
  · exact inlineScatterIotas_fewer applied

end

namespace Simplifier

variable {s : Simplifier} {inner : BodySimplifier} {scope : SymbolTable} {blocker : Blocker}

theorem fireDown_ends (scope : SymbolTable) (stm : Stm) : Ends (s.fireDown scope stm) := by
  intro p
  unfold fireDown
  split
  · exact ⟨_, _, rfl⟩
  · exact ⟨_, _, rfl⟩

theorem fireUp_ends (scope : SymbolTable) (usage : Usage) (stm : Stm) : Ends (s.fireUp scope usage stm) := by
  intro p
  unfold fireUp
  split
  · exact ⟨_, _, rfl⟩
  · exact ⟨_, _, rfl⟩

theorem fireDown_spends (standard : s.rules = .standard) : Spends fun (level : Level) stm => s.fireDown level.scope stm where
  ends level stm := fireDown_ends level.scope stm
  fewer := by
    intro level stm p new q fired
    unfold fireDown at fired
    rw [standard] at fired
    split at fired
    · rename_i found
      cases fired
      exact RuleSet.standard_fewer found
    · cases fired
  quiet := by
    intro level stm p q fired
    unfold fireDown at fired
    split at fired
    · cases fired
    · cases fired
      rfl

theorem sweepUp_ends (scope : SymbolTable) (result : List Operand) (stms : List Stm) : Ends (s.sweepUp scope result stms) := by
  induction stms with
  | nil => exact .pure _
  | cons stm stms ih =>
    refine ih.bind fun {_ r _} _ => ?_
    obtain ⟨usage, rest⟩ := r
    dsimp only
    split
    · refine (fireUp_ends scope usage stm).bind fun {_ fired _} _ => ?_
      cases fired with
      | some new => exact .pure _
      | none => exact .pure _
    · exact .pure _

end Simplifier

/-! Nothing is released where everything is kept -/

/-- The work on a body has an outcome, and a blocker that keeps everything lets nothing go. -/
structure BodySimplifier.Reliable (inner : BodySimplifier) : Prop where
  ends : ∀ scope blocker body, Ends (inner scope blocker body)
  holds : ∀ {scope body p hoisted body' q}, inner scope .always body p = .ok ((hoisted, body'), q) → hoisted = []

theorem Blocker.or_always (b : Blocker) : b.or .always = .always := by cases b <;> rfl

namespace Simplifier

variable {s : Simplifier} {inner : BodySimplifier}

theorem lambdaWith_ends (h : inner.Reliable) (scope : SymbolTable) (blocker : Blocker) (op : Lambda) :
    Ends (lambdaWith inner scope blocker op) := (h.ends _ _ _).bind fun _ => .pure _

theorem lambdaWith_holds (h : inner.Reliable) {scope : SymbolTable} {op op' : Lambda} {hoisted : List Stm} {p q : Progress}
    (ran : lambdaWith inner scope .always op p = .ok ((hoisted, op'), q)) : hoisted = [] := by
  obtain ⟨⟨left, body⟩, between, swept, ran⟩ := Pass.bind_eq_ok.mp ran
  obtain ⟨same, _⟩ := Pass.pure_eq_ok.mp ran
  cases same
  exact h.holds (Blocker.or_always _ ▸ swept)

theorem groupStm_ends (h : inner.Reliable) (scope : SymbolTable) (bound : NameSet) (stm : GroupStm) :
    Ends (s.groupStm inner scope bound stm) := by
  cases stm with
  | split => exact .pure _
  | thread pat only body => exact (h.ends _ _ _).bind fun _ => .pure _
  | reduce pat width op inputs =>
    refine (lambdaWith_ends h scope .always op).bind fun {_ r _} ran => ?_
    obtain ⟨hoisted, op'⟩ := r
    rw [lambdaWith_holds h ran]
    exact .pure _

theorem groupStms_ends (h : inner.Reliable) (stms : List GroupStm) (scope : SymbolTable) (bound : NameSet) :
    Ends (s.groupStms inner scope bound stms) := by
  induction stms generalizing scope bound with
  | nil => exact .pure _
  | cons stm stms ih => exact (groupStm_ends h scope bound stm).bind fun _ => (ih _ _).bind fun _ => .pure _

theorem kernel_ends (h : inner.Reliable) (scope : SymbolTable) (k : Kernel) : Ends (s.kernel inner scope k) := by
  have lambda (op : Lambda) : Ends (s.lambda inner scope op) := lambdaWith_ends h scope s.parallel op
  cases k with
  | map k =>
    have swept : Ends (s.sweepMap inner scope k) := (h.ends _ _ _).bind fun _ => .pure _
    exact swept.bind fun _ => .pure _
  | scan k => exact (lambda k.combine).bind fun _ => (lambda k.fold).bind fun _ => .pure _
  | chunked k => exact (lambda k.op).bind fun _ => .pure _
  | scatter k => exact (lambda k.op).bind fun _ => .pure _
  | group k =>
    have swept (scope : SymbolTable) : Ends (s.groupBody inner scope k.space.names k.body) :=
      (groupStms_ends h k.body.stms scope _).bind fun _ => .pure _
    exact (swept _).bind fun _ => .pure _
  | numGroups => exact .pure _
  | groupSize => exact .pure _

theorem exp_ends (h : inner.Reliable) (scope : SymbolTable) (e : Exp) : Ends (s.exp inner scope e) := by
  cases e with
  | branch cond onTrue onFalse ret => exact (h.ends _ _ _).bind fun _ => (h.ends _ _ _).bind fun _ => .pure _
  | loop context values index bound body => exact (h.ends _ _ _).bind fun _ => .pure _
  | launch k => exact (kernel_ends h scope k).bind fun _ => .pure _
  | operand | binary | compare | index | update | iota | replicate | reshape | rearrange | copy | alloc => exact .pure _

theorem settle_ends (h : inner.Reliable) (blocker : Blocker) (level : Level) (stm : Stm) :
    Ends (s.settle inner blocker level stm) := by
  have swept : Ends (s.stm inner level.scope stm) := (exp_ends h level.scope stm.exp).bind fun _ => .pure _
  exact swept.bind fun _ => .pure _

/-- The statements that rise from nested bodies are kept like those of the body itself. -/
theorem sweepBody_reliable (h : inner.Reliable) : (s.sweepBody inner).Reliable where
  ends scope blocker body := by
    have drained := drain_ends (fun (level : Level) => fireDown_ends (s := s) level.scope) (settle_ends (s := s) h blocker)
    exact (drained _ _ _).bind fun _ => (sweepUp_ends _ _ _).bind fun _ => .pure _
  holds := by
    intro scope body p hoisted body' q ran
    obtain ⟨level, between, drained, ran⟩ := Pass.bind_eq_ok.mp ran
    obtain ⟨⟨usage, stms⟩, last, swept, ran⟩ := Pass.bind_eq_ok.mp ran
    obtain ⟨same, rfl⟩ := Pass.pure_eq_ok.mp ran
    cases same
    have passes : level.Passes .always := (passes_kept .always).drain (fun _ mem => absurd mem List.not_mem_nil) drained
    exact List.eq_nil_iff_forall_not_mem.mpr fun stm mem => Bool.noConfusion (passes stm mem)

theorem bodyTo_reliable (s : Simplifier) (depth : Nat) : (s.bodyTo depth).Reliable := by
  induction depth with
  | zero =>
    refine ⟨fun _ _ _ => .pure _, fun ran => ?_⟩
    obtain ⟨same, _⟩ := Pass.pure_eq_ok.mp ran
    cases same
    rfl
  | succ depth ih => exact sweepBody_reliable ih

end Simplifier

theorem FunDecl.sweep_ends (s : Simplifier) (f : FunDecl) : Ends (f.sweep s) := by
  have reliable := s.bodyTo_reliable f.body.depth
  refine (reliable.ends _ _ _).bind fun {_ r _} ran => ?_
  obtain ⟨hoisted, body⟩ := r
  rw [reliable.holds ran]
  exact .pure _

theorem FunDecl.simplify_ends (s : Simplifier) (n : Nat) (f : FunDecl) : Ends (f.simplify s n) := by
  induction n generalizing f with
  | zero => exact .pure f
  | succ n ih =>
    refine (f.sweep_ends s).bind fun {_ next _} _ => ?_
    split
    · exact .pure next
    · exact ih next

end ArrayKernels
