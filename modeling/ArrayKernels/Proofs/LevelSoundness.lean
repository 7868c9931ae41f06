import ArrayKernels.Proofs.Holding

/-! The statements of a body have the values of the body while they are worked on. A statement that leaves the body was run
before it, so that it can be left out; a statement that stays, or what replaces it, leaves the names that the rest
needs known at least as well. -/
namespace ArrayKernels

/-- What takes the place of a statement leaves its names known at least as well. -/
def TopDownRule.Sound (how : Leniency) (rule : TopDownRule) : Prop :=
  ∀ {table stm names new names'} {S : Scope}, rule table stm names = some (new, names') → table.Within S →
    Fits S names.next stm.bound → stm.Scoped S → ∀ {σ}, table.Known how σ → Replaces how σ stm new fun _ => True

/-- What takes the place of a statement leaves those of its names that are used known at least as well. -/
def BottomUpRule.Sound (how : Leniency) (rule : BottomUpRule) : Prop :=
  ∀ {table usage stm names new names'} {S : Scope}, rule table usage stm names = some (new, names') →
    Fits S names.next stm.bound → stm.Scoped S → ∀ σ, Replaces how σ stm new fun v => usage.isUsed v = true

structure RuleSet.Sound (how : Leniency) (rules : RuleSet) : Prop where
  down : TopDownRule.Sound how rules.replaceDown
  up : BottomUpRule.Sound how rules.replaceUp

section
variable {how : Leniency} {S : Scope} {n : Nat} {σ : Store} {stm : Stm} {stms : List Stm} {result : List Operand} {vs : List Value}

/-- A statement that holds can be left out. -/
theorem Stm.Holds.skip (h : stm.Holds how σ) (distinct : (boundInStms stms).Nodup)
    (ran : (⟨stm :: stms, result⟩ : Body).run (.lenient how) σ = .ok vs) : (⟨stms, result⟩ : Body).run (.lenient how) σ = .ok vs := by
  obtain ⟨τ, again, same⟩ := h
  rw [Body.run_cons, again, ok_bind] at ran
  refine Body.run_mono distinct (fun v _ => ?_) ran
  by_cases own : v ∈ stm.pat.names
  · exact (same v own).1
  · rw [Stm.run_frame again own]
    exact .refl _

/-- A statement that binds nothing that the rest needs can be left out. -/
theorem Body.run_drop (fits : Fits S n (boundInStms stms)) (inside : StmsScoped S (freeOperands result) stms)
    (unused : ∀ v ∈ stm.pat.names, ¬S v)
    (ran : (⟨stm :: stms, result⟩ : Body).run (.lenient how) σ = .ok vs) : (⟨stms, result⟩ : Body).run (.lenient how) σ = .ok vs := by
  rw [Body.run_cons] at ran
  obtain ⟨τ, first, ran⟩ := bind_eq_ok.mp ran
  refine Body.run_mono fits.distinct (fun v mem => ?_) ran
  rw [Stm.run_frame first fun own => ?_]
  · exact .refl _
  · exact unused v own (StmsScoped.reads _ inside v mem)

end

/-! The level of a body -/

/-- Where the statements that have left the body hold, what is kept of it and what is queued have its values. -/
def Level.Sound (how : Leniency) (scope : SymbolTable) (body : Body) (queue : List Stm) (level : Level) : Prop :=
  ∀ σ vs, scope.Known how σ → HoldsAll how σ level.hoisted → body.run (.lenient how) σ = .ok vs →
    ∃ τ, runStms (.lenient how) σ level.kept = .ok τ ∧ level.scope.Known how τ ∧
      (⟨queue, body.result⟩ : Body).run (.lenient how) τ = .ok vs

namespace Level

variable {how : Leniency} {S : Scope} {n next next' : Nat} {bound : List Name} {scope : SymbolTable} {body : Body} {stm : Stm}
  {queue new : List Stm} {level : Level}

theorem Scoping.queue_fits {after : NameSet} (h : level.Scoping S n bound after queue next) (old : Fits S n bound) :
    Fits (S.bind (stmNames (level.hoisted ++ level.kept))) next (boundInStms queue) := by
  refine Fits.enter ((old.renew h.grows h.counts).part fun v => ?_)
  have names := count_stmNames_le (level.hoisted ++ level.kept) v
  rw [boundInStms_append]
  simp only [List.count_append] at names ⊢
  omega

namespace Sound

theorem replace (h : level.Sound how scope body (stm :: queue))
    (scoping : level.Scoping S n bound (freeOperands body.result) (stm :: queue) next) (old : Fits S n bound)
    (moves : Moves (S.bind (stmNames (level.hoisted ++ level.kept))) next next' stm.bound new [] fun T => ∀ v ∈ stm.pat.names, T v)
    (replaces : ∀ {τ}, level.scope.Known how τ → Replaces how τ stm new fun _ => True) :
    level.Sound how scope body (new ++ queue) := by
  intro σ vs known holds ran
  obtain ⟨τ, kept, known, ran⟩ := h σ vs known holds ran
  have fits := (scoping.replace moves).queue_fits old
  rw [boundInStms_append] at fits
  have behind := (stmsScoped_cons.mp (stmsScoped_append.mp scoping.inside).2).2
  exact ⟨τ, kept, known, (replaces known).run fits behind (fun _ _ _ => trivial) ran⟩

theorem add (h : level.Sound how scope body (stm :: queue))
    (scoping : level.Scoping S n bound (freeOperands body.result) (stm :: queue) next) (old : Fits S n bound) (blocker : Blocker) :
    (level.add blocker stm).Sound how scope body queue := by
  have fits := scoping.queue_fits old
  rw [boundInStms_cons] at fits
  have after := scoping.add old blocker
  unfold Level.add at after ⊢
  split
  · intro σ vs known holds ran
    obtain ⟨τ, kept, known, ran⟩ := h σ vs known holds ran
    rw [Body.run_cons] at ran
    obtain ⟨υ, first, ran⟩ := bind_eq_ok.mp ran
    refine ⟨υ, ?_, ?_, ran⟩
    · rw [runStms_append, kept, ok_bind, runStms_cons, first]
      rfl
    · refine SymbolTable.Known.bindStm (known.frame scoping.table fun v visible => ?_) (scoping.first.holds fits.left first)
      rw [Stm.run_frame first fun own => fits.left.apart v (List.mem_append_left _ own) visible]
      exact .refl _
  · rename_i leaves
    rw [if_neg leaves] at after
    intro σ vs known holds ran
    obtain ⟨before, left⟩ := HoldsAll.append_iff.mp holds
    obtain ⟨τ, kept, known, ran⟩ := h σ vs known before ran
    -- the statement stands before the kept ones, which do not touch what it mentions
    have placed := (stmsScoped_cons.mp (stmsScoped_append.mp (stmsScoped_append.mp (stmsScoped_append.mp after.inside).1).1).2).1
    have apart : Fits (S.bind (stmNames level.hoisted)) next (stmNames level.kept ++ stm.bound) := by
      refine Fits.enter ((old.renew scoping.grows scoping.counts).part fun v => ?_)
      have hoisted := count_stmNames_le level.hoisted v
      have kept := count_stmNames_le level.kept v
      simp only [boundInStms_append, boundInStms_cons, List.count_append]
      omega
    have holds := (left stm List.mem_cons_self).of_sameBut (runStms_sameBut kept) placed apart
    exact ⟨τ, kept, known.bindStm holds, holds.skip fits.right.distinct ran⟩

theorem addAll (h : level.Sound how scope body (new ++ queue))
    (scoping : level.Scoping S n bound (freeOperands body.result) (new ++ queue) next) (old : Fits S n bound) (blocker : Blocker) :
    (new.foldl (fun level stm => level.add blocker stm) level).Sound how scope body queue := by
  induction new generalizing level with
  | nil => exact h
  | cons stm new ih => exact ih (h.add scoping old blocker) (scoping.add old blocker)

end Sound

end Level

/-! Walking backwards from the result -/

section
variable {how : Leniency} {S : Scope} {s : Simplifier} {scope : SymbolTable} {result : List Operand} {stm : Stm} {stms rest : List Stm}
  {usage : Usage} {p q : Progress} {σ : Store} {vs : List Value}

theorem Simplifier.fireUp_replaces (rules : s.rules.Sound how) {fired : Option (List Stm)}
    (ran : s.fireUp scope usage stm p = .ok (fired, q)) (fits : Fits S p.names.next stm.bound) (inside : stm.Scoped S) :
    Replaces how σ stm (fired.getD [stm]) fun v => usage.isUsed v = true := by
  unfold fireUp at ran
  split at ran
  · cases ran
    exact rules.up ‹_› fits inside σ
  · cases ran
    intro τ first
    refine ⟨τ, ?_, fun v _ _ => .refl _⟩
    rw [Option.getD_none, runStms_cons, first]
    rfl

/-- What is not used can be dropped, and what is used keeps its values. -/
theorem Simplifier.sweepUp_runs (scoping : s.rules.Scoping) (rules : s.rules.Sound how)
    (swept : s.sweepUp scope result stms p = .ok ((usage, rest), q)) (fits : Fits S p.names.next (boundInStms stms))
    (inside : StmsScoped S (freeOperands result) stms) (ran : (⟨stms, result⟩ : Body).run (.lenient how) σ = .ok vs) :
    (⟨rest, result⟩ : Body).run (.lenient how) σ = .ok vs := by
  induction stms generalizing S usage rest q σ with
  | nil =>
    obtain ⟨same, rfl⟩ := Pass.pure_eq_ok.mp swept
    cases same
    exact ran
  | cons stm stms ih =>
    have whole := (sweepUp_moves scoping swept fits inside).1
    have placed := whole.fits fits
    obtain ⟨⟨later, kept⟩, between, first, swept⟩ := Pass.bind_eq_ok.mp swept
    obtain ⟨here, behind⟩ := stmsScoped_cons.mp inside
    rw [boundInStms_cons] at fits
    have entered : Fits S p.names.next (stm.pat.names ++ boundInStms stms) := fits.part fun v => by
      simp only [Stm.bound, List.count_append]
      omega
    obtain ⟨moves, covers⟩ := sweepUp_moves scoping first entered.enter behind
    have apart := (moves.fits entered.enter).apart
    -- the rest of the walk first: the statement is run in front of what is left of the others
    have ran : (⟨stm :: kept, result⟩ : Body).run (.lenient how) σ = .ok vs := by
      rw [Body.run_cons] at ran ⊢
      obtain ⟨τ, ranFirst, ran⟩ := bind_eq_ok.mp ran
      exact bind_eq_ok.mpr ⟨τ, ranFirst, ih first entered.enter behind ran⟩
    have needs (v : Name) (own : v ∈ stm.pat.names) (needed : v ∈ freeBefore (freeOperands result) kept ∨ v ∈ boundInStms kept) :
        later.isUsed v = true := by
      rcases needed with free | binds
      · exact decide_eq_true (covers v free)
      · exact absurd (.inr own) (apart v (List.mem_append_right _ binds))
    dsimp only at swept
    split at swept
    · obtain ⟨fired, last, tried, swept⟩ := Pass.bind_eq_ok.mp swept
      have replaces := fireUp_replaces (σ := σ) rules tried (fits.left.later moves.grows) here
      generalize named : fired.getD [stm] = new at replaces
      have same : (new.foldr (fun stm usage => usage.before stm) later, new ++ kept) = (usage, rest) ∧ last = q := by
        cases fired <;> exact named ▸ Pass.pure_eq_ok.mp swept
      obtain ⟨same, rfl⟩ := same
      cases same
      rw [boundInStms, List.nil_append, boundInStms_append] at placed
      exact replaces.run placed moves.here needs ran
    · rename_i unused
      obtain ⟨same, rfl⟩ := Pass.pure_eq_ok.mp swept
      cases same
      exact Body.run_drop placed.right whole.here (fun v own => fits.left.apart v (List.mem_append_left _ own)) ran

end

end ArrayKernels
