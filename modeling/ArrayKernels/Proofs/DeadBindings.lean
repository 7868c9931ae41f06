import ArrayKernels.Proofs.HoistedOutputs
import ArrayKernels.Proofs.LevelScoping
import ArrayKernels.Proofs.SweepEnds

/-! Dead code. A walk backwards from the result of a body keeps a table of the names that are used behind each place: the free names
of the statements that are left there and of the result. A statement that binds no used name goes, and so do the outputs of a map
kernel that are not used. All names that are used keep their values, and so the result keeps its own.

The statements of a group kernel run one by one across all threads, and a reduction reads what other threads have bound. What a
statement reads in any thread is free in it or bound in it, so that the same walk keeps the results of the kernel. -/
namespace ArrayKernels

/-! One statement -/

/-- What is left of a statement gives the used ones of its names the values that they had, and changes no other name. -/
def Stm.Leaves (stm : Stm) (used : Name → Prop) (new : List Stm) : Prop :=
  ∀ env next, evalStms env [stm] = .ok next →
    ∃ next', evalStms env new = .ok next' ∧ ∀ v, (v ∈ stm.pat.names → used v) → next'.get? v = next.get? v

section
variable {stm : Stm} {used : Name → Prop} {new stms : List Stm} {result : List Operand} {env : Env} {vs : List Value}

theorem Stm.Leaves.whole : stm.Leaves used [stm] := fun _ next ran => ⟨next, ran, fun _ _ => rfl⟩

theorem Stm.Leaves.nothing (unused : ∀ v ∈ stm.pat.names, ¬used v) : stm.Leaves used [] := by
  intro env next ran
  obtain ⟨pat, certs, exp⟩ := stm
  obtain ⟨values, _, ran⟩ := bind_eq_ok.mp ran
  obtain ⟨_, bound, same⟩ := bind_eq_ok.mp ran
  cases same
  refine ⟨env, rfl, fun v kept => ?_⟩
  exact (Env.bindValues_frame bound fun own => unused v own (kept own)).symm

/-- What is left of a statement can stand in its place if all of its names that are needed behind it are used. -/
theorem Stm.Leaves.eval (h : stm.Leaves used new)
    (needs : ∀ v ∈ stm.pat.names, v ∈ freeBefore (freeOperands result) stms ∨ v ∈ boundInStms stms → used v)
    (evaluates : (⟨stm :: stms, result⟩ : Body).eval env = .ok vs) : (⟨new ++ stms, result⟩ : Body).eval env = .ok vs := by
  obtain ⟨next, first, ran⟩ := bind_eq_ok.mp ((Body.eval_append env [stm] stms result).symm.trans evaluates)
  obtain ⟨next', first', same⟩ := h env next first
  have enclosed : Encloses (fun v => v ∈ stm.pat.names → used v) (freeBefore (freeOperands result) stms) (boundInStms stms) := by
    constructor
    · exact fun v free own => needs v own (.inl free)
    · exact fun v bound own => needs v own (.inr bound)
  rw [Body.eval_append, first', ok_bind, ← ran]
  exact Body.eval_agree ⟨stms, result⟩ enclosed same

end

/-- Bindings of other names make no difference. -/
theorem Env.get?_bindAll_filter {keep : Name → Bool} {bs : List (Name × Value)} {v : Name} {env env' : Env}
    (kept : v ∈ bs.map Prod.fst → keep v = true) (same : env.get? v = env'.get? v) :
    (env.bindAll (bs.filter fun b => keep b.1)).get? v = (env'.bindAll bs).get? v := by
  induction bs generalizing env env' with
  | nil => exact same
  | cons b bs ih =>
    have later : v ∈ bs.map Prod.fst → keep v = true := fun mem => kept (List.mem_cons_of_mem _ mem)
    rw [List.filter_cons, bindAll_cons]
    split
    · rw [bindAll_cons]
      apply ih later
      rw [get?_bind, get?_bind, same]
    · rename_i dropped
      apply ih later
      rw [same, get?_bind, if_neg]
      rintro rfl
      exact dropped (kept List.mem_cons_self)

section
variable {table : SymbolTable} {usage : Usage} {stm : Stm} {names names' : NameSupply} {new : List Stm}

/-- The outputs of a kernel that are used keep their values. -/
theorem dropDeadOutputs_leaves (applied : dropDeadOutputs table usage stm names = some (new, names')) :
    stm.Leaves (fun v => usage.isUsed v = true) new := by
  obtain ⟨k, launched, flagged, _, _, shape⟩ := dropDeadOutputs_eq_some applied
  rcases shape with ⟨rfl, dead⟩ | rfl
  · apply Stm.Leaves.nothing
    intro v own isUsed
    rw [Pattern.names_eq flagged.context] at own
    obtain ⟨b, among, rfl⟩ := List.mem_map.mp own
    exact dead (List.mem_map.mpr ⟨b, among, isUsed⟩)
  · intro env next ran
    obtain ⟨vs, evaluates, full, rfl⟩ := (evalStms_outputs flagged.context).mp ran
    rw [launched] at evaluates
    have bound := Pattern.map_fst_zip flagged.context full
    have flags := calc usedFlags usage stm
      _ = stm.pat.names.map usage.isUsed := by
        rw [Pattern.names_eq flagged.context, List.map_map]
        rfl
      _ = (stm.pat.names.zip vs).map (usage.isUsed ∘ Prod.fst) := by rw [← List.map_map, bound]
    refine ⟨_, keepOutputs_evaluates flagged evaluates full, fun v kept => ?_⟩
    rw [flags, pick_map]
    apply Env.get?_bindAll_filter _ rfl
    rw [bound]
    exact kept

theorem dropDeadOutputs_bound (applied : dropDeadOutputs table usage stm names = some (new, names')) {v : Name}
    (mem : v ∈ boundInStms new) : v ∈ stm.bound := by
  obtain ⟨k, launched, flagged, _, _, shape⟩ := dropDeadOutputs_eq_some applied
  rcases shape with ⟨rfl, _⟩ | rfl
  · cases mem
  · rw [boundInStms_cons, boundInStms, List.append_nil, Stm.bound, List.mem_append] at mem
    rw [Stm.bound, List.mem_append]
    apply mem.imp
    · intro own
      rw [keepOutputs_names flagged] at own
      exact (pick_sublist _ _).subset own
    · intro inner
      rw [launched, Exp.bound, Kernel.bound_map, Body.bound_eq]
      rw [keepOutputs, Exp.bound, Kernel.bound_map, Body.bound_eq] at inner
      exact inner

end

/-! The walk -/

namespace Simplifier

section
variable {s : Simplifier} {scope : SymbolTable} {result : List Operand} {stm : Stm} {stms rest : List Stm} {usage : Usage} {p q : Progress}

/-- The walk comes to a statement after those behind it, and leaves some of it. -/
theorem sweepUp_cons (standard : s.rules = .standard) (swept : s.sweepUp scope result (stm :: stms) p = .ok ((usage, rest), q)) :
    ∃ later kept between new, s.sweepUp scope result stms p = .ok ((later, kept), between) ∧
      usage = new.foldr (fun stm usage => usage.before stm) later ∧ rest = new ++ kept ∧
      stm.Leaves (fun v => later.isUsed v = true) new ∧ ∀ v ∈ boundInStms new, v ∈ stm.bound := by
  obtain ⟨⟨later, kept⟩, between, first, swept⟩ := Pass.bind_eq_ok.mp swept
  dsimp only at swept
  split at swept
  · obtain ⟨fired, last, tried, swept⟩ := Pass.bind_eq_ok.mp swept
    unfold fireUp at tried
    rw [standard] at tried
    split at tried
    · rename_i new names replaced
      cases tried
      obtain ⟨same, rfl⟩ := Pass.pure_eq_ok.mp swept
      cases same
      obtain ⟨rule, only, replaced⟩ := List.exists_of_findSome?_eq_some replaced
      cases List.mem_singleton.mp only
      exact ⟨later, kept, between, new, first, rfl, rfl, dropDeadOutputs_leaves replaced, fun v => dropDeadOutputs_bound replaced⟩
    · cases tried
      obtain ⟨same, rfl⟩ := Pass.pure_eq_ok.mp swept
      cases same
      refine ⟨later, kept, between, [stm], first, rfl, rfl, .whole, fun v mem => ?_⟩
      rwa [boundInStms_cons, boundInStms, List.append_nil] at mem
  · rename_i unused
    obtain ⟨same, rfl⟩ := Pass.pure_eq_ok.mp swept
    cases same
    rw [Bool.not_eq_true, List.any_eq_false] at unused
    exact ⟨_, _, _, [], first, rfl, rfl, .nothing unused, fun v mem => absurd mem List.not_mem_nil⟩

/-- The table covers what is left. -/
theorem sweepUp_covers (standard : s.rules = .standard) (swept : s.sweepUp scope result stms p = .ok ((usage, rest), q)) :
    ∀ v ∈ freeBefore (freeOperands result) rest, v ∈ usage.used := by
  induction stms generalizing usage rest q with
  | nil =>
    obtain ⟨same, rfl⟩ := Pass.pure_eq_ok.mp swept
    cases same
    exact fun v mem => mem
  | cons stm stms ih =>
    obtain ⟨later, kept, between, new, first, rfl, rfl, _⟩ := sweepUp_cons standard swept
    intro v mem
    rw [freeBefore_append] at mem
    exact Usage.mem_used_before (ih first) mem

/-- What is left binds no other names. -/
theorem sweepUp_bound (standard : s.rules = .standard) (swept : s.sweepUp scope result stms p = .ok ((usage, rest), q)) :
    ∀ v ∈ boundInStms rest, v ∈ boundInStms stms := by
  induction stms generalizing usage rest q with
  | nil =>
    obtain ⟨same, rfl⟩ := Pass.pure_eq_ok.mp swept
    cases same
    exact fun v mem => mem
  | cons stm stms ih =>
    obtain ⟨later, kept, between, new, first, rfl, rfl, _, bound⟩ := sweepUp_cons standard swept
    intro v mem
    rw [boundInStms_append, List.mem_append] at mem
    rw [boundInStms_cons, List.mem_append]
    exact mem.imp (bound v) (ih first v)

theorem sweepUp_evaluates {env : Env} {vs : List Value} (standard : s.rules = .standard)
    (swept : s.sweepUp scope result stms p = .ok ((usage, rest), q)) (distinct : (boundInStms stms).Nodup)
    (evaluates : (⟨stms, result⟩ : Body).eval env = .ok vs) : (⟨rest, result⟩ : Body).eval env = .ok vs := by
  induction stms generalizing usage rest q env with
  | nil =>
    obtain ⟨same, rfl⟩ := Pass.pure_eq_ok.mp swept
    cases same
    exact evaluates
  | cons stm stms ih =>
    obtain ⟨later, kept, between, new, first, rfl, rfl, leaves, _⟩ := sweepUp_cons standard swept
    rw [boundInStms_cons, List.nodup_append] at distinct
    -- the statement is evaluated in front of what is left of the others
    have evaluates : (⟨stm :: kept, result⟩ : Body).eval env = .ok vs := by
      obtain ⟨next, ran, evaluates⟩ := bind_eq_ok.mp ((Body.eval_append env [stm] stms result).symm.trans evaluates)
      exact (Body.eval_append env [stm] kept result).trans (bind_eq_ok.mpr ⟨next, ran, ih first distinct.2.1 evaluates⟩)
    apply leaves.eval _ evaluates
    rintro v own (free | bound)
    · exact decide_eq_true (sweepUp_covers standard first v free)
    · exact absurd rfl (distinct.2.2 v (List.mem_append_left _ own) v (sweepUp_bound standard first v bound))

end

/-- The walk backwards with the standard rules comes to an end, and keeps the values of the result. -/
theorem sweepUp_keeps_values {s : Simplifier} (standard : s.rules = .standard) (scope : SymbolTable) {result : List Operand}
    {stms : List Stm} (p : Progress) {env : Env} {vs : List Value} (distinct : (boundInStms stms).Nodup)
    (evaluates : (⟨stms, result⟩ : Body).eval env = .ok vs) :
    ∃ usage rest q, s.sweepUp scope result stms p = .ok ((usage, rest), q) ∧ (⟨rest, result⟩ : Body).eval env = .ok vs := by
  obtain ⟨⟨usage, rest⟩, q, swept⟩ := sweepUp_ends scope result stms p
  exact ⟨usage, rest, q, swept, sweepUp_evaluates standard swept distinct evaluates⟩

end Simplifier

/-- A copy that is not used, a kernel of which one output is used, and an element of that output. -/
def sampleWithDeadCode : List Stm :=
  [.single ⟨"d", 8⟩ (.scalar .i64) (.operand (.var ⟨"c", 0⟩)), sampleFill 2 [(⟨"i", 5⟩, .word 2)],
    .single ⟨"w", 9⟩ (.scalar .i64) (.index ⟨"zs", 3⟩ [.word 1])]

theorem sampleWithDeadCode_keeps_values :
    ∃ usage rest q, (Simplifier.make .standard true).sweepUp sampleFillScope [.var ⟨"w", 9⟩] sampleWithDeadCode ⟨⟨10⟩, 0⟩ =
      .ok ((usage, rest), q) ∧ (rest.map fun stm => stm.pat.names) = [[⟨"zs", 3⟩], [⟨"w", 9⟩]] ∧
      (⟨rest, [.var ⟨"w", 9⟩]⟩ : Body).eval sampleFillValues = .ok [.word 6] := by
  have left : ((Simplifier.make .standard true).sweepUp sampleFillScope [.var ⟨"w", 9⟩] sampleWithDeadCode ⟨⟨10⟩, 0⟩).toOption.any
      (fun done => (done.1.2.map fun stm => stm.pat.names) = [[⟨"zs", 3⟩], [⟨"w", 9⟩]]) = true := by decide +kernel
  obtain ⟨usage, rest, q, swept, evaluates⟩ := @Simplifier.sweepUp_keeps_values (Simplifier.make .standard true) rfl sampleFillScope
    [.var ⟨"w", 9⟩] sampleWithDeadCode ⟨⟨10⟩, 0⟩ sampleFillValues _ (by decide) rfl
  rw [swept] at left
  exact ⟨usage, rest, q, swept, of_decide_eq_true left, evaluates⟩

/-! Statements of group kernels -/

section
variable {S : Scope} {stm : GroupStm} {groupSize : Nat} {threads threads' next : List Env}

/-- Each thread keeps the values of all names that a statement does not bind. -/
theorem GroupStm.eval_others (positive : 0 < groupSize) (ran : evalGroupStms groupSize [stm] threads = .ok next)
    (other : ∀ v ∈ stm.names, ¬S v) : List.Forall₂ (Env.Agree S) threads next := by
  have strict := runGroupStms_strict .none groupSize [stm] threads
  apply (GroupStm.run_frame positive (strict.trans ran)).imp
  intro e e' kept v visible
  exact (kept v fun own => other v own visible).symm

/-- A statement does the same to threads that agree on all that it reads. -/
theorem GroupStm.eval_agree (free : InScope S stm.free) (bound : ∀ v ∈ stm.bound, S v)
    (agree : List.Forall₂ (Env.Agree S) threads threads') (ran : evalGroupStms groupSize [stm] threads = .ok next) :
    ∃ next', evalGroupStms groupSize [stm] threads' = .ok next' ∧ List.Forall₂ (Env.Agree S) next next' := by
  have enclosed : Encloses S (freeBeforeGroup ∅ [stm]) (boundInGroupStms [stm]) := by
    constructor
    · intro v mem
      simp only [freeBeforeGroup, NameSet.mem_union, NameSet.mem_without, NameSet.not_mem_empty, false_and, false_or] at mem
      exact free v mem
    · intro v mem
      rw [boundInGroupStms, boundInGroupStms, List.append_nil] at mem
      exact bound v mem
  have outcome := evalGroupStms_agree [stm] enclosed agree groupSize
  rw [ran] at outcome
  exact outcome.exists_ok

end

namespace Simplifier

section
variable {result : List GroupResult} {stms : List GroupStm}

/-- The names that are read by what is left of the statements or by the result, and those that are bound in the statements. -/
def LiveNames (result : List GroupResult) (stms : List GroupStm) : Scope :=
  fun v => v ∈ (liveGroupStms result stms).1 ∨ v ∈ boundInGroupStms stms

/-- A statement of which no name is used leaves nothing behind; any other stays, and uses its free names. -/
theorem liveGroupStms_cons (result : List GroupResult) (stm : GroupStm) (stms : List GroupStm) :
    ((∀ v ∈ stm.names, v ∉ (liveGroupStms result stms).1) ∧ liveGroupStms result (stm :: stms) = liveGroupStms result stms) ∨
      liveGroupStms result (stm :: stms) = ((liveGroupStms result stms).1 ∪ stm.free, stm :: (liveGroupStms result stms).2) := by
  dsimp only [liveGroupStms]
  split
  · exact .inr rfl
  · rename_i unused
    simp only [List.any_eq_true, decide_eq_true_eq, not_exists, not_and] at unused
    exact .inl ⟨unused, rfl⟩

/-- The threads run what is left of the statements, and end with the same values of all names that the result reads. -/
theorem liveGroupStms_evaluates {groupSize : Nat} {threads threads' final : List Env} (positive : 0 < groupSize)
    (distinct : (boundInGroupStms stms).Nodup) (agree : List.Forall₂ (Env.Agree (LiveNames result stms)) threads threads')
    (ran : evalGroupStms groupSize stms threads = .ok final) :
    ∃ final', evalGroupStms groupSize (liveGroupStms result stms).2 threads' = .ok final' ∧
      List.Forall₂ (Env.Agree (· ∈ NameSet.gather GroupResult.free result)) final final' := by
  induction stms generalizing threads threads' with
  | nil =>
    cases ran
    exact ⟨threads', rfl, agree.imp fun e e' h v mem => h v (.inl mem)⟩
  | cons stm stms ih =>
    rw [evalGroupStms_cons] at ran
    obtain ⟨next, first, ran⟩ := bind_eq_ok.mp ran
    rw [boundInGroupStms, stm.bound_eq, List.nodup_append] at distinct
    obtain ⟨_, distinct, apart⟩ := distinct
    rcases liveGroupStms_cons result stm stms with ⟨unused, same⟩ | same
    · -- the statement is dropped: what it binds is not read, and is not bound again
      have others : List.Forall₂ (Env.Agree (LiveNames result stms)) threads next := by
        apply GroupStm.eval_others positive first
        rintro v own (used | bound)
        · exact unused v own used
        · exact apart v (List.mem_append_left _ own) v bound rfl
      have wider (v : Name) (visible : LiveNames result stms v) : LiveNames result (stm :: stms) v := by
        rw [LiveNames, same]
        exact visible.imp_right (List.mem_append_right _)
      rw [same]
      apply ih distinct _ ran
      apply forall₂_of_forall₂ others agree
      intro e e' e'' moved h v visible
      exact (moved v visible).symm.trans (h v (wider v visible))
    · -- the statement stays, and does the same on both sides
      have wider (v : Name) (visible : LiveNames result stms v) : LiveNames result (stm :: stms) v := by
        rw [LiveNames, same]
        exact visible.imp (fun used => NameSet.mem_union.mpr (.inl used)) (List.mem_append_right _)
      have free (v : Name) (mem : v ∈ stm.free) : LiveNames result (stm :: stms) v := by
        rw [LiveNames, same]
        exact .inl (NameSet.mem_union.mpr (.inr mem))
      have bound (v : Name) (mem : v ∈ stm.bound) : LiveNames result (stm :: stms) v := .inr (List.mem_append_left _ mem)
      obtain ⟨next', first', agree'⟩ := GroupStm.eval_agree free bound agree first
      obtain ⟨final', ran', related⟩ := ih distinct (agree'.imp fun e e' h v visible => h v (wider v visible)) ran
      refine ⟨final', ?_, related⟩
      rw [same, evalGroupStms_cons, first', ok_bind, ran']

end

/-- Without the statements that bind nothing that is read, a group kernel has the values that it had. -/
theorem dropDeadGroupStms_keeps_values {k : GroupKernel} {env : Env} {vs : List Value} (distinct : (Kernel.group k).bound.Nodup)
    (evaluates : (Kernel.group k).eval env = .ok vs) :
    (Kernel.group { k with body := ⟨dropDeadGroupStms k.body.stms k.body.result, k.body.result⟩ }).eval env = .ok vs := by
  obtain ⟨certs, size, space, returns, stms, result⟩ := k
  rw [Kernel.bound_group, List.nodup_append] at distinct
  obtain ⟨threads, counted, evaluates⟩ := bind_eq_ok.mp evaluates
  obtain ⟨groupSize, sized, evaluates⟩ := bind_eq_ok.mp evaluates
  obtain ⟨final, ran, assembled⟩ := bind_eq_ok.mp evaluates
  have start (S : Scope) (threads : List Env) : List.Forall₂ (Env.Agree S) threads threads :=
    List.forall₂_same.mpr fun e _ v _ => rfl
  have positive : 0 < max groupSize 1 := Nat.lt_of_lt_of_le Nat.one_pos (Nat.le_max_right groupSize 1)
  obtain ⟨final', ran', related⟩ := liveGroupStms_evaluates positive distinct.2.1 (start _ _) ran
  have reads (r : GroupResult) (mem : r ∈ result) : InScope (· ∈ NameSet.gather GroupResult.free result) r.free :=
    fun v free => NameSet.mem_gather.mpr ⟨r, mem, free⟩
  have same : GroupKernel.results env final' returns result = GroupKernel.results env final returns result := by
    unfold GroupKernel.results
    split
    · apply mapM_eq_of_forall₂ (List.forall₂_same.mpr _)
      intro rt mem
      have whole : env.Agree (fun _ => True) env := fun v _ => rfl
      exact (GroupKernel.assemble_agree whole related (fun _ _ => trivial) (fun _ _ => trivial) (reads _ (List.of_mem_zip mem).1)).symm
    · rfl
  refine bind_eq_ok.mpr ⟨threads, counted, bind_eq_ok.mpr ⟨groupSize, sized, bind_eq_ok.mpr ⟨final', ran', ?_⟩⟩⟩
  exact same.trans assembled

end Simplifier

/-- Four threads in groups of two, each with one element of an array. The double of the element is not used. The first thread of each
group keeps its chunk, and each group adds up its elements. -/
def sampleGroupSums : GroupKernel :=
  let word (n : Int64) : Operand := .const (.i64 n)
  let many : Name := ⟨"many", 4⟩
  let chunk : Name := ⟨"chunk", 5⟩
  let x : Name := ⟨"x", 6⟩
  let double : Name := ⟨"double", 8⟩
  let first : Name := ⟨"first", 10⟩
  let sum : Name := ⟨"sum", 11⟩
  let scalar (v : Name) : Binder := ⟨v, .scalar .i64, none⟩
  let row (v : Name) : Binder := ⟨v, .array .i64 [.var many] false, none⟩
  let add : Lambda := ⟨[scalar ⟨"l", 12⟩, scalar ⟨"acc", 13⟩, scalar ⟨"y", 14⟩],
    ⟨[.ofWord ⟨"next", 15⟩ (.binary .add (.var ⟨"acc", 13⟩) (.var ⟨"y", 14⟩))], [.var ⟨"next", 15⟩]⟩, [.scalar .i64]⟩
  let four : Ty := .array .i64 [word 4] false
  ⟨[], ⟨word 2, word 2, word 1, word 4, word 1, word 4⟩, ⟨⟨"t", 1⟩, ⟨"lane", 2⟩, ⟨"group", 3⟩⟩, [four, four, four],
    ⟨[.split (scalar many) [row chunk] .contiguous (word 4) (word 1) [⟨"xs", 0⟩],
      .thread ⟨[], [scalar x]⟩ none ⟨[.ofWord ⟨"e", 7⟩ (.index chunk [word 0])], [.var ⟨"e", 7⟩]⟩,
      .thread ⟨[], [scalar double]⟩ none ⟨[.ofWord ⟨"d", 9⟩ (.binary .add (.var x) (.var x))], [.var ⟨"d", 9⟩]⟩,
      .thread ⟨[], [row first]⟩ (some (word 0)) ⟨[], [.var chunk]⟩,
      .reduce ⟨[], [scalar sum]⟩ (word 2) add [(word 0, x)]],
      [.row (.var sum), .write (.var ⟨"t", 1⟩) (.var x), .chunks .contiguous (word 4) (word 1) first]⟩⟩

theorem sampleGroupSums_keeps_values : ∃ vs,
    (Simplifier.dropDeadGroupStms sampleGroupSums.body.stms sampleGroupSums.body.result).map GroupStm.names =
        [[⟨"many", 4⟩, ⟨"chunk", 5⟩], [⟨"x", 6⟩], [⟨"first", 10⟩], [⟨"sum", 11⟩]] ∧
      (Kernel.group { sampleGroupSums with
        body := ⟨Simplifier.dropDeadGroupStms sampleGroupSums.body.stms sampleGroupSums.body.result, sampleGroupSums.body.result⟩ }).eval
          ⟨[(⟨"xs", 0⟩, .words [1, 2, 3, 4])]⟩ = .ok vs ∧
      vs.map Value.asWords = [some [3, 3, 7, 7], some [1, 2, 3, 4], some [1, 0, 3, 0]] := by
  have whole : ((Kernel.group sampleGroupSums).eval ⟨[(⟨"xs", 0⟩, .words [1, 2, 3, 4])]⟩).toOption.any
      (fun vs => vs.map Value.asWords = [some [3, 3, 7, 7], some [1, 2, 3, 4], some [1, 0, 3, 0]]) = true := by decide +kernel
  obtain ⟨vs, evaluates, sums⟩ := exists_of_any whole
  have distinct : (Kernel.group sampleGroupSums).bound.Nodup := by decide +kernel
  exact ⟨vs, by decide +kernel, Simplifier.dropDeadGroupStms_keeps_values distinct evaluates, of_decide_eq_true sums⟩

end ArrayKernels
