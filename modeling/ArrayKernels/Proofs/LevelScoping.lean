import ArrayKernels.Proofs.Consumption
import ArrayKernels.Proofs.RuleScoping

/-! The statements of a body stay in scope while they are worked on. What leaves the body mentions nothing that the body
keeps, and what is dropped is not mentioned by the rest. -/
namespace ArrayKernels

/-! The level of a body -/

section
variable {S T : Scope} {after : NameSet} {stm : Stm} {stms kept queue : List Stm}

theorem Stm.Scoped.narrow (covers : Covers S T stm.free stm.bound) (h : stm.Scoped S) : stm.Scoped T := by
  have alone : StmsScoped S ∅ [stm] := stmsScoped_cons.mpr ⟨h, InScope.empty⟩
  refine (stmsScoped_cons.mp (StmsScoped.narrow [stm] (covers.part (fun v mem => .inl ?_) fun v mem => ?_) alone)).1
  · obtain impossible | ⟨st, among, free⟩ := exists_of_freeBefore mem
    · exact absurd impossible (NameSet.not_mem_empty v)
    · exact List.mem_singleton.mp among ▸ free
  · rwa [boundInStms_cons, boundInStms, List.append_nil] at mem

/-- A statement that mentions none of the statements before it can stand in front of them. -/
theorem StmsScoped.swap (h : StmsScoped S after (kept ++ stm :: queue)) (silent : ∀ v ∈ stmNames kept, v ∉ stm.free)
    (apart : ∀ v ∈ stmNames kept, v ∉ stm.bound) : StmsScoped S after (stm :: (kept ++ queue)) := by
  rw [stmsScoped_append, stmsScoped_cons] at h
  obtain ⟨before, here, later⟩ := h
  rw [stmsScoped_cons, stmsScoped_append]
  refine ⟨here.narrow fun v mem mentioned => ?_, before.mono fun _ => .inl, Scope.bind_comm _ _ ▸ later⟩
  rcases mem with visible | own
  · exact visible
  · exact absurd mentioned (not_or.mpr ⟨silent v own, apart v own⟩)

theorem count_stmNames_le (stms : List Stm) (v : Name) : (stmNames stms).count v ≤ (boundInStms stms).count v := by
  induction stms with
  | nil => exact Nat.le_refl 0
  | cons stm stms ih =>
    rw [stmNames_cons, boundInStms_cons, Stm.bound]
    simp only [List.count_append]
    omega

end

/-- What has left the body, what is kept and what is queued follow each other in scope. -/
structure Level.Scoping (S : Scope) (n : Nat) (bound : List Name) (after : NameSet) (queue : List Stm) (level : Level) (next : Nat) :
    Prop where
  grows : n ≤ next
  counts : ∀ v, (boundInStms (level.hoisted ++ level.kept ++ queue)).count v ≤ bound.count v + drawn n next v
  inside : StmsScoped S after (level.hoisted ++ level.kept ++ queue)
  table : level.scope.Within (S.bind (stmNames (level.hoisted ++ level.kept)))
  kept : ∀ v ∈ stmNames level.kept, v ∈ level.bound

namespace Level.Scoping

variable {S : Scope} {n next next' : Nat} {bound : List Name} {after : NameSet} {blocker : Blocker} {stm : Stm} {queue new : List Stm}
  {level : Level}

/-- The first statement of the queue in its scope. -/
theorem first (h : level.Scoping S n bound after (stm :: queue) next) : stm.Scoped (S.bind (stmNames (level.hoisted ++ level.kept))) :=
  (stmsScoped_cons.mp (stmsScoped_append.mp h.inside).2).1

theorem first_fits (h : level.Scoping S n bound after (stm :: queue) next) (old : Fits S n bound) :
    Fits (S.bind (stmNames (level.hoisted ++ level.kept))) next stm.bound := by
  refine Fits.enter ((old.renew h.grows h.counts).part fun v => ?_)
  have names := count_stmNames_le (level.hoisted ++ level.kept) v
  rw [boundInStms_append, boundInStms_cons]
  simp only [List.count_append] at names ⊢
  omega

theorem replace (h : level.Scoping S n bound after (stm :: queue) next)
    (moves : Moves (S.bind (stmNames (level.hoisted ++ level.kept))) next next' stm.bound new [] fun T => ∀ v ∈ stm.pat.names, T v) :
    level.Scoping S n bound after (new ++ queue) next' := by
  refine { h with grows := Nat.le_trans h.grows moves.grows, counts := fun v => ?_, inside := ?_ }
  · have old := h.counts v
    have made := moves.counts v
    have both := drawn_add h.grows moves.grows v
    simp only [boundInStms_append, boundInStms_cons, List.count_append, List.count_nil] at old made ⊢
    omega
  · obtain ⟨before, queued⟩ := stmsScoped_append.mp h.inside
    refine stmsScoped_append.mpr ⟨before, stmsScoped_append.mpr ⟨moves.before, (stmsScoped_cons.mp queued).2.mono fun v mem => ?_⟩⟩
    rcases mem with visible | named
    · exact .inl visible
    · exact moves.after _ (fun _ mem => mem) v named

theorem add (h : level.Scoping S n bound after (stm :: queue) next) (old : Fits S n bound) (blocker : Blocker) :
    (level.add blocker stm).Scoping S n bound after queue next := by
  have apart := (h.first_fits old).apart
  have known : (level.scope.bindStm stm).Within (S.bind (stmNames (level.hoisted ++ level.kept) ++ stm.pat.names)) := by
    rw [Scope.bind_append]
    exact h.table.bindStm h.first.2.2
  unfold Level.add
  split
  · refine { h with counts := fun v => ?_, inside := ?_, table := known.mono fun v mem => ?_, kept := fun v mem => ?_ }
    · simpa using h.counts v
    · simpa using h.inside
    · simpa [stmNames] using mem
    · rw [stmNames_append, List.mem_append] at mem
      exact NameSet.mem_insertAll.mpr (mem.imp (h.kept v) fun here => by simpa [stmNames] using here)
  · rename_i leaves
    rw [keeps, Bool.or_eq_true, Bool.or_eq_true, not_or, not_or] at leaves
    refine { h with counts := fun v => ?_, inside := ?_, table := known.mono fun v mem => ?_ }
    · have count := h.counts v
      simp only [boundInStms_append, boundInStms_cons, boundInStms, List.count_append, List.count_nil] at count ⊢
      omega
    · have inside := h.inside
      rw [List.append_assoc, stmsScoped_append] at inside
      rw [List.append_assoc, List.append_assoc, stmsScoped_append]
      refine ⟨inside.1, inside.2.swap (fun v own free => leaves.1.1 ?_) fun v own binds => apart v binds (.inr ?_)⟩
      · exact List.any_eq_true.mpr ⟨v, free, decide_eq_true (h.kept v own)⟩
      · rw [stmNames_append]
        exact List.mem_append_right _ own
    · simp only [Scope.bind, stmNames_append, stmNames_cons, List.mem_append] at mem ⊢
      grind [stmNames]

theorem addAll (h : level.Scoping S n bound after (new ++ queue) next) (old : Fits S n bound) (blocker : Blocker) :
    (new.foldl (fun level stm => level.add blocker stm) level).Scoping S n bound after queue next := by
  induction new generalizing level with
  | nil => exact h
  | cons stm new ih => exact ih (h.add old blocker)

theorem start {scope : SymbolTable} {body : Body} (within : scope.Within S) (inside : body.Scoped S) :
    (Level.start scope body).Scoping S n body.bound (freeOperands body.result) body.stms n := by
  refine ⟨Nat.le_refl _, fun v => ?_, body.scoped_iff.mp inside, within.mono fun _ => .inl, fun _ mem => absurd mem List.not_mem_nil⟩
  rw [body.bound_eq]
  exact Nat.le_add_right _ _

/-- When all is done, what is kept follows what has left, and is followed by the resolved results. -/
theorem finish {result : List Operand} (h : level.Scoping S n bound (freeOperands result) [] next) (old : Fits S n bound) :
    StmsScoped S ∅ level.hoisted ∧ Fits (S.bind (stmNames level.hoisted)) next (boundInStms level.kept) ∧
      StmsScoped (S.bind (stmNames level.hoisted)) (freeOperands (level.scope.resolveOperands result)) level.kept := by
  obtain ⟨placed, results⟩ := stmsScoped_iff.mp (List.append_nil (level.hoisted ++ level.kept) ▸ h.inside)
  obtain ⟨left, kept⟩ := stmsScoped_append.mp placed
  have resolved := h.table.operands results
  rw [stmNames_append, Scope.bind_append] at resolved
  have all := old.renew h.grows h.counts
  rw [List.append_nil, boundInStms_append] at all
  have entered : Fits S next (stmNames level.hoisted ++ boundInStms level.kept) := all.part fun v => by
    have names := count_stmNames_le level.hoisted v
    simp only [List.count_append]
    omega
  exact ⟨left, entered.enter, stmsScoped_iff.mpr ⟨kept, resolved⟩⟩

end Level.Scoping

/-- What has left the level got past the blocker. -/
def Level.Passes (blocker : Blocker) (level : Level) : Prop := ∀ stm ∈ level.hoisted, blocker.blocks stm stm.free = false

theorem Level.Passes.add {blocker : Blocker} {level : Level} (h : level.Passes blocker) (stm : Stm) :
    (level.add blocker stm).Passes blocker := by
  unfold Level.add
  split
  · exact h
  · rename_i leaves
    rw [keeps, Bool.not_eq_true, Bool.or_eq_false_iff] at leaves
    intro st mem
    rcases List.mem_append.mp mem with before | now
    · exact h st before
    · exact List.mem_singleton.mp now ▸ leaves.2

/-! Walking backwards from the result -/

section
variable {S : Scope} {s : Simplifier} {scope : SymbolTable} {result : List Operand} {after : NameSet} {stm : Stm}
  {stms rest new : List Stm} {usage : Usage} {p q : Progress}

theorem freeBefore_append (stms more : List Stm) : freeBefore after (stms ++ more) = freeBefore (freeBefore after more) stms := by
  induction stms with
  | nil => rfl
  | cons stm stms ih => rw [List.cons_append, freeBefore, freeBefore, ih]

/-- The usage before statements covers what they mention. -/
theorem Usage.mem_used_before {v : Name} (covers : ∀ v ∈ after, v ∈ usage.used) (mem : v ∈ freeBefore after new) :
    v ∈ (new.foldr (fun stm usage => usage.before stm) usage).used := by
  induction new generalizing v with
  | nil => exact covers v mem
  | cons stm new ih =>
    rw [freeBefore, NameSet.mem_union, NameSet.mem_without] at mem
    exact NameSet.mem_union.mpr (mem.imp_left fun later => ih later.1)

theorem Stm.Scoped.stays {n : Nat} (h : stm.Scoped S) : Moves S n n stm.bound [stm] [] fun T => ∀ v ∈ stm.pat.names, T v := by
  obtain ⟨pat, certs, exp⟩ := stm
  exact Moves.ofExp [] (.stay _ fun T more => h.2.2.mono more) h.1 h.2.1

/-- A statement that is used stays, or a rule replaces it. -/
theorem Simplifier.fireUp_moves (rules : s.rules.Scoping) {fired : Option (List Stm)}
    (ran : s.fireUp scope usage stm p = .ok (fired, q)) (fits : Fits S p.names.next stm.bound) (inside : stm.Scoped S) :
    Moves S p.names.next q.names.next stm.bound (fired.getD [stm]) [] fun T => ∀ v ∈ stm.pat.names, usage.isUsed v = true → T v := by
  unfold fireUp at ran
  split at ran
  · rename_i new names replaced
    cases ran
    exact rules.up replaced fits inside
  · cases ran
    have stays := inside.stays (n := p.names.next)
    exact { stays with after := fun T part v own _ => stays.after T part v own }

/-- Of the statements, what is not used is dropped, and rules are applied to the others. -/
theorem Simplifier.sweepUp_moves (rules : s.rules.Scoping) (swept : s.sweepUp scope result stms p = .ok ((usage, rest), q))
    (fits : Fits S p.names.next (boundInStms stms)) (inside : StmsScoped S (freeOperands result) stms) :
    Moves S p.names.next q.names.next (boundInStms stms) [] (boundInStms rest) (fun T => StmsScoped T (freeOperands result) rest)
      ∧ ∀ v ∈ freeBefore (freeOperands result) rest, v ∈ usage.used := by
  induction stms generalizing S usage rest q with
  | nil =>
    obtain ⟨same, rfl⟩ := Pass.pure_eq_ok.mp swept
    cases same
    exact ⟨.stay _ fun T more => inside.mono more, fun v mem => mem⟩
  | cons stm stms ih =>
    obtain ⟨⟨later, kept⟩, between, first, swept⟩ := Pass.bind_eq_ok.mp swept
    obtain ⟨here, behind⟩ := stmsScoped_cons.mp inside
    rw [boundInStms_cons] at fits
    have entered : Fits S p.names.next (stm.pat.names ++ boundInStms stms) := fits.part fun v => by
      simp only [Stm.bound, List.count_append]
      omega
    obtain ⟨moves, covers⟩ := ih first entered.enter behind
    have apart := (moves.fits entered.enter).apart
    have counts (v : Name) : (boundInStms kept).count v ≤ (boundInStms stms).count v + drawn p.names.next between.names.next v := by
      simpa [boundInStms] using moves.counts v
    -- the rest binds none of the names of the statement, so it needs those that it uses
    have narrows {T : Scope} (more : ∀ v, S v → T v) (used : ∀ v ∈ stm.pat.names, later.isUsed v = true → T v) :
        StmsScoped T (freeOperands result) kept := by
      refine StmsScoped.narrow kept (fun v mem mentioned => ?_) moves.here
      rcases mem with visible | own
      · exact more v visible
      · rcases mentioned with free | binds
        · exact used v own (decide_eq_true (covers v free))
        · exact absurd (.inr own) ((moves.fits entered.enter).apart v (List.mem_append_right _ binds))
    dsimp only at swept
    split at swept
    · obtain ⟨fired, last, tried, swept⟩ := Pass.bind_eq_ok.mp swept
      have replaced := fireUp_moves rules tried (fits.left.later moves.grows) here
      generalize named : fired.getD [stm] = new at replaced
      have same : (new.foldr (fun stm usage => usage.before stm) later, new ++ kept) = (usage, rest) ∧ last = q := by
        cases fired <;> exact named ▸ Pass.pure_eq_ok.mp swept
      obtain ⟨same, rfl⟩ := same
      cases same
      refine ⟨.inPlace (Nat.le_trans moves.grows replaced.grows) (fun v => ?_) fun T more => ?_, fun v mem => ?_⟩
      · have count := counts v
        have made := replaced.counts v
        have both := drawn_add moves.grows replaced.grows v
        simp only [boundInStms_append, boundInStms_cons, List.count_append, List.count_nil] at made ⊢
        omega
      · exact StmsScoped.mono more (stmsScoped_append.mpr ⟨replaced.before, narrows (fun _ => .inl) (replaced.after _ fun _ mem => mem)⟩)
      · rw [freeBefore_append] at mem
        exact Usage.mem_used_before covers mem
    · rename_i unused
      obtain ⟨same, rfl⟩ := Pass.pure_eq_ok.mp swept
      cases same
      refine ⟨.inPlace moves.grows (fun v => ?_) fun T more => narrows more fun v own used => ?_, covers⟩
      · rw [boundInStms_cons, List.count_append]
        have count := counts v
        omega
      · exact absurd (List.any_eq_true.mpr ⟨v, own, used⟩) unused

end

end ArrayKernels
