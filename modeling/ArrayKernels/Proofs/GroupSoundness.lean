import ArrayKernels.Proofs.KernelSoundness

/-! Group kernels keep their values. The statements of the kernel are swept one after another, which leaves the threads as
they are; then the statements that bind nothing that is used are dropped, which leaves the threads as they are in what is
used. -/
namespace ArrayKernels

/-- A thread of a group kernel has what is known around the kernel, apart from the kernel's own names. -/
def Store.Thread (σ : Store) (own : List Name) (e : Env) : Prop := ∀ v, v ∉ own → e.get? v = σ.env.get? v

section
variable {σ : Store} {own : List Name} {e : Env}

namespace Store

theorem launch_thread (σ : Store) (own : List Name) : σ.Thread own (σ.launch own).env := fun v other => by
  rw [launch, Env.get?_hide, if_neg other]

namespace Thread

theorem sameBut (h : σ.Thread own e) : σ.SameBut own ⟨e, σ.notes.clear own⟩ := fun v other => by
  simp only [cell, Notes.clear, if_neg other, h v other]

theorem bindAll (h : σ.Thread own e) {bs : List (Name × Value)} (part : ∀ v ∈ bs.map Prod.fst, v ∈ own) :
    σ.Thread own (e.bindAll bs) := fun v other => by
  rw [Env.get?_bindAll_of_not_mem _ fun mem => other (part v mem), h v other]

theorem bindValues (h : σ.Thread own e) {pat : Pattern} (part : ∀ v ∈ pat.names, v ∈ own) {values : List Value} {next : Env}
    (bound : e.bindValues pat values = .ok next) : σ.Thread own next := fun v other => by
  rw [Env.bindValues_frame bound fun mem => other (part v mem), h v other]

end Thread

end Store

theorem Kernel.run_group {how : Leniency} (k : GroupKernel) : (Kernel.group k).run (.lenient how) σ =
    if σ.allKnown (NameSet.gather Ty.rowReads k.returns) then
      k.run (fun groupSize threads => runGroupStms (.lenient how) (σ.notes.clear k.ownNames) groupSize k.body.stms threads)
        (σ.launch k.ownNames).env
    else .error .storage := by
  rcases k with ⟨certs, size, space, returns, ⟨stms, result⟩⟩
  rw [run, Mode.group]
  split <;> rfl

theorem runGroupStms_cons (m : Mode) (notes : Notes) (groupSize : Nat) (stm : GroupStm) (stms : List GroupStm) (threads : List Env) :
    runGroupStms m notes groupSize (stm :: stms) threads =
      runGroupStms m notes groupSize [stm] threads >>= runGroupStms m notes groupSize stms := by
  cases stm with
  | split size chunks division width perThread arrays =>
    rw [runGroupStms, runGroupStms, bind_assoc]
    rfl
  | thread pat only body =>
    rw [runGroupStms, runGroupStms, bind_assoc]
    rfl
  | reduce pat width op inputs =>
    rw [runGroupStms, runGroupStms, bind_assoc]
    rfl

end

theorem count_names_inside_le (stms : List GroupStm) (v : Name) :
    (stms.flatMap GroupStm.names).count v + (stms.flatMap GroupStm.inside).count v ≤ (boundInGroupStms stms).count v := by
  induction stms with
  | nil => exact Nat.le_refl 0
  | cons stm stms ih =>
    have here : stm.names.count v + stm.inside.count v ≤ stm.bound.count v := by
      cases stm with
      | split size chunks division width perThread arrays => simp [GroupStm.bound, GroupStm.names, GroupStm.inside]
      | thread pat only body => simp [GroupStm.bound, GroupStm.names, GroupStm.inside]
      | reduce pat width op inputs =>
        simp only [GroupStm.bound, GroupStm.names, GroupStm.inside, Lambda.bound_eq, List.count_append]
        omega
    rw [boundInGroupStms, List.flatMap_cons, List.flatMap_cons]
    simp only [List.count_append]
    omega

/-! Sweeping the statements -/

/-- The same thread in both runs. -/
def SameThread (σ : Store) (own : List Name) (e e' : Env) : Prop := e = e' ∧ σ.Thread own e

section
variable {how : Leniency} {S : Scope} {s : Simplifier} {inner : BodySimplifier} {scope scope' : SymbolTable} {bound : NameSet}
  {own before : List Name} {p q : Progress} {hoisted : List Stm} {σ : Store} {threads threads' : List Env}

theorem SameThread.bindValues {e e' : Env} {pat pat' : Pattern} {values values' : List Value} (h : SameThread σ own e e')
    (names : pat.SameNames pat') (part : ∀ v ∈ pat.names, v ∈ own) (alike : ValuesAlike .exact values values') :
    Follows False (SameThread σ own) (e.bindValues pat values) (e'.bindValues pat' values') := by
  obtain ⟨rfl, kept⟩ := h
  obtain rfl := alike.eq_of_exact
  rw [← names.bindValues_eq]
  exact .refl fun next made => ⟨rfl, kept.bindValues part made⟩

theorem SymbolTable.sameNames_resolvePattern (t : SymbolTable) (pat : Pattern) : pat.SameNames (t.resolvePattern pat) :=
  ⟨(names_resolvePattern pat).symm, (names_map_resolveBinder pat.values).symm⟩

namespace Simplifier

/-- A swept statement leaves the threads as the old one does. -/
theorem groupStm_follows (h : inner.Sound how) {stm stm' : GroupStm}
    (ran : s.groupStm inner scope bound stm p = .ok ((hoisted, stm', scope'), q)) (within : scope.Within S)
    (fits : Fits S p.names.next (before ++ stm.bound)) (inside : stm.Scoped (S.bind before)) (listed : ∀ v ∈ before, v ∈ bound)
    (apart : Fits S p.names.next (own ++ stm.inside)) (named : ∀ v ∈ stm.names, v ∈ own) (known : scope.Known how σ)
    (holds : HoldsAll how σ hoisted) (groupSize : Nat) (related : List.Forall₂ (SameThread σ own) threads threads') :
    scope'.Known how σ ∧ Follows False (List.Forall₂ (SameThread σ own))
      (runGroupStms (.lenient how) (σ.notes.clear own) groupSize [stm] threads)
      (runGroupStms (.lenient how) (σ.notes.clear own) groupSize [stm'] threads') := by
  have here {e : Env} (kept : σ.Thread own e) : scope.Known how ⟨e, σ.notes.clear own⟩ := known.of_sameBut within apart.left kept.sameBut
  cases stm with
  | split size chunks division width perThread arrays =>
    obtain ⟨same, rfl⟩ := Pass.pure_eq_ok.mp ran
    cases same
    refine ⟨known.extend splitEntries_plain, ?_⟩
    rw [runGroupStms, runGroupStms]
    refine Follows.bind (?_ : Follows False (List.Forall₂ (SameThread σ own)) _ _) fun next next' _ _ related => .ok related
    refine .mapM ((forall₂_zipIdx related 0).imp fun et et' both => ?_)
    obtain ⟨e, t⟩ := et
    obtain ⟨e', t'⟩ := et'
    obtain ⟨⟨same, kept⟩, number⟩ := both
    cases same
    cases number
    rw [related.length_eq]
    refine GroupKernel.split_follows t (Env.size_follows ((here kept).operand width)) (Env.size_follows ((here kept).operand perThread))
      rfl (SymbolTable.names_map_resolveBinder chunks).symm ((here kept).lookups arrays) fun bs bs' part alike => ?_
    have same : bs = bs' := by
      rw [← List.forall₂_eq_eq_eq]
      exact alike.imp fun b b' both => Prod.ext both.1 both.2.eq
    exact ⟨by rw [same], kept.bindAll fun v mem => named v (part v mem)⟩
  | thread pat only body =>
    obtain ⟨⟨left, body'⟩, between, swept, ran⟩ := Pass.bind_eq_ok.mp ran
    obtain ⟨same, rfl⟩ := Pass.pure_eq_ok.mp ran
    cases same
    refine ⟨known.extend threadEntries_plain, ?_⟩
    rw [runGroupStms, runGroupStms]
    refine Follows.bind (?_ : Follows False (List.Forall₂ (SameThread σ own)) _ _) fun next next' _ _ related => .ok related
    refine GroupKernel.thread_follows related (fun e e' t same => ?_) (fun e e' _ _ same => ?_) (fun e e' t same _ => ?_)
      fun e e' values values' same alike => same.bindValues (scope.sameNames_resolvePattern pat) named alike
    · obtain ⟨rfl, kept⟩ := same
      cases only with
      | none => exact .ok rfl
      | some lane => exact GroupKernel.active_follows groupSize t (Env.size_follows ((here kept).operand lane))
    · obtain ⟨rfl, kept⟩ := same
      refine ⟨fun vs runs => ⟨vs, ?_, ValuesAlike.rfl_exact vs⟩, False.elim⟩
      have entered : Fits S p.names.next (before ++ body.bound) := fits.part fun v => by
        simp only [GroupStm.bound, List.count_append]
        omega
      exact h.under swept within entered inside.2.2 (fun stm passes v mem => Blocker.mentions_open passes v (listed v mem)) apart known
        holds kept.sameBut runs
    · obtain ⟨rfl, kept⟩ := same
      refine .mapM (List.forall₂_map_right_iff.mpr (List.forall₂_same.mpr fun b _ => ?_))
      exact Env.blank_follows ((here kept).type b.ty)
  | reduce pat width op inputs =>
    obtain ⟨⟨left, op'⟩, between, swept, ran⟩ := Pass.bind_eq_ok.mp ran
    dsimp only at ran
    split at ran
    · rename_i none
      obtain ⟨same, rfl⟩ := Pass.pure_eq_ok.mp ran
      cases same
      obtain rfl := List.isEmpty_iff.mp none
      refine ⟨known.bindParams _, ?_⟩
      rw [runGroupStms, runGroupStms]
      refine Follows.bind (?_ : Follows False (List.Forall₂ (SameThread σ own)) _ _) fun next next' _ _ related => .ok related
      refine GroupKernel.reduce_follows related (fun e e' same => ?_) (fun e e' same => ?_) (fun e e' args args' _ _ same alike => ?_)
        fun e e' values values' same alike => same.bindValues (scope.sameNames_resolvePattern pat) named alike
      · obtain ⟨rfl, kept⟩ := same
        exact Env.size_follows ((here kept).operand width)
      · obtain ⟨rfl, kept⟩ := same
        refine List.forall₂_map_right_iff.mpr (List.forall₂_same.mpr fun i _ => ?_)
        exact ⟨(here kept).operand i.1, (here kept).lookup i.2⟩
      · obtain ⟨rfl, kept⟩ := same
        have entered : Fits S p.names.next (before ++ op.bound) := fits.part fun v => by
          simp only [GroupStm.bound, List.count_append]
          omega
        exact lambdaWith_follows h swept (within.mono fun _ => .inl) entered.enter inside.2.2 (here kept) (fun _ mem => absurd mem List.not_mem_nil) alike
    · cases ran

theorem groupStms_follows (h : inner.Sound how) {stms stms' : List GroupStm}
    (ran : s.groupStms inner scope bound stms p = .ok ((hoisted, stms', scope'), q)) (within : scope.Within S)
    (fits : Fits S p.names.next (before ++ boundInGroupStms stms)) (inside : GroupStmsScoped (S.bind before) ∅ stms)
    (listed : ∀ v ∈ before, v ∈ bound) (apart : Fits S p.names.next (own ++ stms.flatMap GroupStm.inside))
    (named : ∀ v ∈ stms.flatMap GroupStm.names, v ∈ own) (known : scope.Known how σ) (holds : HoldsAll how σ hoisted)
    (groupSize : Nat) (related : List.Forall₂ (SameThread σ own) threads threads') :
    scope'.Known how σ ∧ Follows False (List.Forall₂ (SameThread σ own))
      (runGroupStms (.lenient how) (σ.notes.clear own) groupSize stms threads)
      (runGroupStms (.lenient how) (σ.notes.clear own) groupSize stms' threads') := by
  induction stms generalizing scope bound before p hoisted stms' threads threads' with
  | nil =>
    obtain ⟨same, rfl⟩ := Pass.pure_eq_ok.mp ran
    cases same
    exact ⟨known, .ok related⟩
  | cons stm stms ih =>
    obtain ⟨⟨left, stm', scope₁⟩, between, swept, ran⟩ := Pass.bind_eq_ok.mp ran
    obtain ⟨⟨more, rest, scope₂⟩, last, sweptRest, ran⟩ := Pass.bind_eq_ok.mp ran
    obtain ⟨same, rfl⟩ := Pass.pure_eq_ok.mp ran
    cases same
    obtain ⟨holdsFirst, holdsRest⟩ := HoldsAll.append_iff.mp holds
    rw [boundInGroupStms] at fits
    rw [List.flatMap_cons, ← List.append_assoc] at apart
    have here : Fits S p.names.next (before ++ stm.bound) := by
      rw [← List.append_assoc] at fits
      exact fits.left
    obtain ⟨names, _, within₁, moves⟩ := groupStm_moves h.scoping swept within here inside.1 listed
    have behind : Fits S between.names.next ((before ++ stm.names) ++ boundInGroupStms stms) :=
      (fits.later moves.grows).part fun v => by
        simp only [stm.bound_eq, List.count_append]
        omega
    have behindApart : Fits S between.names.next (own ++ stms.flatMap GroupStm.inside) := (apart.later moves.grows).part fun v => by
      simp only [List.count_append]
      omega
    have insideRest : GroupStmsScoped (S.bind (before ++ stm.names)) ∅ stms := by
      rw [Scope.bind_append]
      exact inside.2
    have listedRest (v : Name) (mem : v ∈ before ++ stm.names) : v ∈ bound.insertAll stm'.names := by
      rw [NameSet.mem_insertAll, names]
      exact (List.mem_append.mp mem).imp_left (listed v)
    rw [List.flatMap_cons, List.forall_mem_append] at named
    have first {threads threads' : List Env} (related : List.Forall₂ (SameThread σ own) threads threads') :=
      groupStm_follows h swept within here inside.1 listed apart.left named.1 known holdsFirst groupSize related
    have later {threads threads' : List Env} (related : List.Forall₂ (SameThread σ own) threads threads') :=
      ih sweptRest within₁ behind insideRest listedRest behindApart named.2 (first related).1 holdsRest related
    refine ⟨(later related).1, ?_⟩
    rw [runGroupStms_cons, runGroupStms_cons _ _ _ stm']
    exact (first related).2.bind fun next next' _ _ related => (later related).2

theorem resolveResult_follows {n : Nat} (within : scope.Within S) (fits : Fits S n own) (known : scope.Known how σ) (r : GroupResult) :
    GroupKernel.ResultFollows False .exact (SameThread σ own) (σ.launch own).env (σ.launch own).env r (resolveResult scope r) := by
  have launched := known.of_sameBut within fits (Store.sameBut_launch σ own)
  have here {e e' : Env} (same : SameThread σ own e e') : e = e' ∧ scope.Known how ⟨e, σ.notes.clear own⟩ :=
    ⟨same.1, known.of_sameBut within fits same.2.sameBut⟩
  have operand (x : Operand) (e e' : Env) (same : SameThread σ own e e') :
      Follows False (Value.Alike .exact) (e.operand x) (e'.operand (scope.resolveOperand x)) := by
    obtain ⟨rfl, known⟩ := here same
    exact known.operand x
  cases r with
  | row value => exact .row (operand value)
  | write index value => exact .write (fun e e' same => Env.word_follows (operand index e e' same)) (operand value)
  | chunks division width perThread array =>
    refine .chunks division (Env.size_follows (launched.operand width)) (Env.size_follows (launched.operand perThread)) fun e e' same => ?_
    obtain ⟨rfl, known⟩ := here same
    exact Env.array_follows (known.lookup array)

/-- A kernel with swept statements and resolved operands. -/
theorem groupStms_kernel_follows (h : inner.Sound how) {k : GroupKernel} (certs : List Name) {table : SymbolTable} {stms : List GroupStm}
    (ran : s.groupStms inner table bound k.body.stms p = .ok ((hoisted, stms, scope'), q)) (within : scope.Within S)
    (tableWithin : table.Within S) (fits : Fits S p.names.next (Kernel.group k).bound)
    (inside : GroupStmsScoped (S.bind k.space.names) ∅ k.body.stms) (listed : ∀ v ∈ k.space.names, v ∈ bound)
    (known : scope.Known how σ) (tableKnown : table.Known how σ) (holds : HoldsAll how σ hoisted) :
    Follows False (ValuesAlike .exact) ((Kernel.group k).run (.lenient how) σ)
      ((Kernel.group ⟨certs, scope.resolveSize k.size, k.space, k.returns.map scope.resolveTy,
        ⟨stms, k.body.result.map (resolveResult scope')⟩⟩).run (.lenient how) σ) := by
  rw [Kernel.bound_group] at fits
  obtain ⟨names, _, within', moves⟩ := groupStms_moves h.scoping ran tableWithin fits inside listed
  have own : (⟨certs, scope.resolveSize k.size, k.space, k.returns.map scope.resolveTy,
      ⟨stms, k.body.result.map (resolveResult scope')⟩⟩ : GroupKernel).ownNames = k.ownNames := by
    rw [GroupKernel.ownNames, GroupKernel.ownNames, names]
  have apart : Fits S p.names.next (k.ownNames ++ k.body.stms.flatMap GroupStm.inside) := fits.part fun v => by
    have fewer := count_names_inside_le k.body.stms v
    simp only [GroupKernel.ownNames, List.count_append]
    omega
  have launched := known.of_sameBut within apart.left (Store.sameBut_launch σ k.ownNames)
  rw [Kernel.run_group, Kernel.run_group, own]
  refine Mode.check_follows known.allKnown fun all => ?_
  refine (Env.size_follows (launched.operand k.size.threads)).bind fun n _ _ _ same => ?_
  subst same
  refine (Env.size_follows (launched.operand k.size.groupSize)).bind fun g _ _ _ same => ?_
  subst same
  have start : List.Forall₂ (SameThread σ k.ownNames)
      ((List.range n).map (GroupKernel.threadEnv k.space (max g 1) (σ.launch k.ownNames).env))
      ((List.range n).map (GroupKernel.threadEnv k.space (max g 1) (σ.launch k.ownNames).env)) := by
    refine List.forall₂_same.mpr fun e mem => ?_
    obtain ⟨t, _, rfl⟩ := List.mem_map.mp mem
    exact ⟨rfl, (Store.launch_thread σ k.ownNames).bindAll fun v mem => List.mem_append_left _ mem⟩
  obtain ⟨known', follows⟩ := groupStms_follows h ran tableWithin fits inside listed apart (fun v mem => List.mem_append_right _ mem)
    tableKnown holds (max g 1) start
  refine follows.bind fun final final' _ _ related => ?_
  refine GroupKernel.results_follow related (List.forall₂_map_right_iff.mpr (List.forall₂_same.mpr fun ty mem => ?_))
    (List.forall₂_map_right_iff.mpr (List.forall₂_same.mpr fun r _ => ?_))
  · exact ⟨(known.type ty).elem_eq, launched.rowShape (Store.allKnown_launch all) mem, Env.blank_follows (launched.type ty)⟩
  · exact resolveResult_follows within' (apart.left.later moves.grows) known' r

end Simplifier

end

/-! Dropping statements -/

theorem forall₂_of_forall₂ {α β γ : Type} {first : α → β → Prop} {second : α → γ → Prop} {both : β → γ → Prop} {xs : List α} {ys : List β}
    {zs : List γ} (h : List.Forall₂ first xs ys) (h' : List.Forall₂ second xs zs) (joined : ∀ x y z, first x y → second x z → both y z) :
    List.Forall₂ both ys zs := by
  induction h generalizing zs with
  | nil =>
    cases h'
    exact .nil
  | cons head _ ih =>
    cases h' with
    | cons head' tail' => exact .cons (joined _ _ _ head head') (ih tail')

theorem GroupKernel.flatten_blocks {α : Type} {size n : Nat} {xs : List α} (enough : xs.length ≤ n * size) :
    (blocks size n xs).flatten = xs := by
  induction n generalizing xs with
  | zero =>
    rw [Nat.zero_mul, Nat.le_zero, List.length_eq_zero_iff] at enough
    rw [enough]
    rfl
  | succ n ih =>
    rw [blocks, List.flatten_cons, ih, List.take_append_drop]
    rw [List.length_drop]
    rw [Nat.succ_mul] at enough
    omega

theorem GroupKernel.flatten_groups {size : Nat} (positive : 0 < size) (threads : List Env) : (groups size threads).flatten = threads := by
  refine flatten_blocks ?_
  have covered := Nat.lt_div_mul_add (a := threads.length + (size - 1)) positive
  omega

/-- A statement of a group kernel changes the threads in the names of the statement only. -/
theorem GroupStm.run_frame {m : Mode} {notes : Notes} {stm : GroupStm} {groupSize : Nat} (positive : 0 < groupSize)
    {threads next : List Env} (ran : runGroupStms m notes groupSize [stm] threads = .ok next) :
    List.Forall₂ (fun e e' => ∀ v, v ∉ stm.names → e'.get? v = e.get? v) threads next := by
  have numbered {f : Env × Nat → Eval Env} (each : ∀ et e, f et = .ok e → ∀ v, v ∉ stm.names → e.get? v = et.1.get? v)
      (ran : threads.zipIdx.mapM f = .ok next) : List.Forall₂ (fun e e' => ∀ v, v ∉ stm.names → e'.get? v = e.get? v) threads next := by
    have all : List.Forall₂ (fun e e' => ∀ v, v ∉ stm.names → e'.get? v = e.get? v) (threads.zipIdx.map Prod.fst) next :=
      List.forall₂_map_left_iff.mpr ((mapM_eq_ok.mp ran).imp each)
    rwa [List.zipIdx_map_fst] at all
  cases stm with
  | split size chunks division width perThread arrays =>
    obtain ⟨_, ran, same⟩ := bind_eq_ok.mp ran
    cases same
    refine numbered (fun et e ran v other => ?_) ran
    obtain ⟨width, _, ran⟩ := bind_eq_ok.mp ran
    obtain ⟨perThread, _, ran⟩ := bind_eq_ok.mp ran
    obtain ⟨parts, cut, ran⟩ := bind_eq_ok.mp ran
    cases ran
    refine Env.get?_bindAll_of_not_mem _ fun bound => other ?_
    obtain rfl | later := List.mem_cons.mp bound
    · exact List.mem_cons_self
    · obtain ⟨b, part, rfl⟩ := List.mem_map.mp later
      obtain ⟨ca, pair, made⟩ := exists_of_mem_right (mapM_eq_ok.mp cut) part
      obtain ⟨a, _, made⟩ := bind_eq_ok.mp made
      obtain ⟨rows, _, made⟩ := bind_eq_ok.mp made
      cases made
      exact List.mem_cons_of_mem _ (List.mem_map_of_mem (List.of_mem_zip pair).1)
  | thread pat only body =>
    obtain ⟨_, ran, same⟩ := bind_eq_ok.mp ran
    cases same
    refine numbered (fun et e ran v other => ?_) ran
    rw [GroupKernel.runThread_eq] at ran
    obtain ⟨chosen, _, ran⟩ := bind_eq_ok.mp ran
    obtain ⟨values, _, ran⟩ := bind_eq_ok.mp ran
    exact Env.bindValues_frame ran other
  | reduce pat width op inputs =>
    obtain ⟨_, ran, same⟩ := bind_eq_ok.mp ran
    cases same
    obtain ⟨reduced, folded, ran⟩ := bind_eq_ok.mp ran
    obtain ⟨bound, made, ran⟩ := bind_eq_ok.mp ran
    cases ran
    have members : List.Forall₂ (List.Forall₂ fun e e' => ∀ v, v ∉ pat.names → e'.get? v = e.get? v)
        (GroupKernel.groups groupSize threads) bound := by
      have each : List.Forall₂ (List.Forall₂ fun e e' => ∀ v, v ∉ pat.names → e'.get? v = e.get? v)
          (((GroupKernel.groups groupSize threads).zip reduced).map Prod.fst) bound := by
        refine List.forall₂_map_left_iff.mpr ((mapM_eq_ok.mp made).imp fun mr next ran => ?_)
        exact (mapM_eq_ok.mp ran).imp fun e e' bound v other => Env.bindValues_frame bound other
      rwa [List.map_fst_zip (Nat.le_of_eq (mapM_eq_ok.mp folded).length_eq)] at each
    have all := List.rel_flatten members
    rwa [GroupKernel.flatten_groups positive] at all

theorem Notes.clear_clear {own part : List Name} (inside : ∀ v ∈ part, v ∈ own) (n : Notes) : (n.clear own).clear part = n.clear own := by
  rw [clear, clear]
  congr 1 <;>
  · funext v
    by_cases mem : v ∈ part
    · rw [if_pos mem, if_pos (inside v mem)]
    · rw [if_neg mem]

section
variable {how : Leniency} {S : Scope} {n : Nat} {result : List GroupResult} {stms : List GroupStm}

theorem Simplifier.liveGroupStms_names_subset {v : Name} (mem : v ∈ (liveGroupStms result stms).2.flatMap GroupStm.names) :
    v ∈ stms.flatMap GroupStm.names :=
  ((liveGroupStms_sublist result stms).flatMap _).subset mem

theorem Simplifier.liveGroupStms_uses {v : Name} (mem : v ∈ NameSet.gather GroupResult.free result) : v ∈ (liveGroupStms result stms).1 := by
  induction stms with
  | nil => exact mem
  | cons stm stms ih =>
    dsimp only [liveGroupStms]
    split
    · exact NameSet.mem_union.mpr (.inl ih)
    · exact ih

/-- A name of the kernel that is used is bound by a statement that stays. -/
theorem Simplifier.mem_live_of_used {v : Name} (inside : GroupStmsScoped S ∅ stms) (fits : Fits S n (boundInGroupStms stms))
    (used : v ∈ (liveGroupStms result stms).1) (named : v ∈ stms.flatMap GroupStm.names) :
    v ∈ (liveGroupStms result stms).2.flatMap GroupStm.names := by
  induction stms generalizing S with
  | nil => cases named
  | cons stm stms ih =>
    rw [boundInGroupStms] at fits
    have entered : Fits S n (stm.names ++ boundInGroupStms stms) := fits.part fun v => by
      simp only [stm.bound_eq, List.count_append]
      omega
    have bound (mem : v ∈ stms.flatMap GroupStm.names) : v ∈ boundInGroupStms stms := by
      refine List.count_pos_iff.mp ?_
      rw [count_boundInGroupStms]
      exact Nat.lt_of_lt_of_le (List.count_pos_iff.mpr mem) (Nat.le_add_right _ _)
    rw [List.flatMap_cons, List.mem_append] at named
    dsimp only [liveGroupStms] at used ⊢
    split at used
    · rename_i live
      rw [if_pos live, List.flatMap_cons, List.mem_append]
      refine named.imp_right fun later => ?_
      rcases NameSet.mem_union.mp used with used | free
      · exact ih inside.2 entered.enter used later
      · exfalso
        rcases GroupStm.Scoped.free stm inside.1 v free with visible | here
        · exact entered.apart v (List.mem_append_right _ (bound later)) visible
        · exact (List.nodup_append.mp fits.distinct).2.2 v here v (bound later) rfl
    · rename_i dead
      rw [if_neg dead]
      rcases named with own | later
      · exact absurd (List.any_eq_true.mpr ⟨v, own, decide_eq_true used⟩) dead
      · exact ih inside.2 entered.enter used later

section
variable {notes notes' : Notes} {groupSize : Nat} {own before within : List Name} {threads threads' : List Env}

theorem Simulation.ThreadAgrees.fewer {vs vs' : NameSet} {e e' : Env}
    (h : (monotone how).ThreadAgrees notes notes' vs own within e e') (part : ∀ v ∈ vs', v ∈ vs) :
    (monotone how).ThreadAgrees notes notes' vs' own within e e' :=
  ⟨fun v mem => h.agree v (mem.imp_left (part v)), h.clean⟩

/-- Without the statements that bind nothing that is used, the threads come to know as much of what is used. The names
`before` are bound before the statements, and the names `within` in their bodies. -/
theorem Simplifier.liveGroupStms_follows (positive : 0 < groupSize)
    (names : own = before ++ (liveGroupStms result stms).2.flatMap GroupStm.names)
    (distinct : (before ++ boundInGroupStms stms).Nodup) (nested : ∀ v ∈ stms.flatMap GroupStm.innerBound, v ∈ within)
    (apart : ∀ v ∈ within, v ∉ before ++ stms.flatMap GroupStm.names)
    (related : List.Forall₂ ((monotone how).ThreadAgrees (notes.clear own) (notes'.clear own)
      ((liveGroupStms result stms).1 ∪ .ofList within) own within) threads threads') :
    Follows False (List.Forall₂ ((monotone how).ThreadAgrees (notes.clear own) (notes'.clear own)
        (NameSet.gather GroupResult.free result ∪ .ofList within) own within))
      (runGroupStms (.lenient how) (notes.clear own) groupSize stms threads)
      (runGroupStms (.lenient how) (notes'.clear own) groupSize (liveGroupStms result stms).2 threads') := by
  induction stms generalizing before threads threads' with
  | nil => exact .ok related
  | cons stm stms ih =>
    have outside (v : Name) (mem : v ∈ within) : v ∉ own := by
      rw [names]
      refine fun own => apart v mem ((List.mem_append.mp own).elim (List.mem_append_left _) fun live => List.mem_append_right _ ?_)
      exact liveGroupStms_names_subset live
    have separate : (before ++ (stm.names ++ boundInGroupStms stms)).Nodup := by
      refine List.nodup_iff_count.mpr fun v => Nat.le_trans ?_ (List.nodup_iff_count.mp distinct v)
      rw [boundInGroupStms, stm.bound_eq]
      simp only [List.count_append]
      omega
    rw [List.flatMap_cons, List.forall_mem_append] at nested
    rw [List.flatMap_cons] at apart
    rw [runGroupStms_cons]
    dsimp only [liveGroupStms] at names related ⊢
    split at names
    · rename_i live
      rw [if_pos live] at related ⊢
      rw [runGroupStms_cons _ _ _ stm (liveGroupStms result stms).2]
      rw [List.flatMap_cons, ← List.append_assoc] at names
      refine Follows.bind (?_ : Follows False (List.Forall₂ ((monotone how).ThreadAgrees (notes.clear own) (notes'.clear own)
        ((liveGroupStms result stms).1 ∪ stm.free ∪ .ofList within) own within)) _ _) fun next next' _ _ related => ?_
      · refine Simulation.groupStms_follow monotone.lawful [stm] ?_ outside (fun v mem => ?_) (fun v mem => ?_) (fun v mem => ?_)
          (absurd · Mode.lenient_ne_strict) (absurd · Mode.lenient_ne_strict) related
        · rw [boundInGroupStms, boundInGroupStms, List.append_nil]
          rw [boundInGroupStms] at distinct
          exact (List.nodup_append.mp (List.nodup_append.mp distinct).2.1).1
        · obtain read | none := mem_readsInGroup_cons.mp mem
          · rcases stm.free_of_reads read with free | bound
            · exact .inl (by simp [free])
            · rw [stm.bound_eq, List.mem_append] at bound
              rcases bound with named | inner
              · exact .inr (by simp [names, named])
              · exact .inl (NameSet.mem_union.mpr (.inr (NameSet.mem_ofList.mpr (nested.1 v inner))))
          · exact absurd none (NameSet.not_mem_empty v)
        · rw [List.flatMap_cons, List.flatMap_nil, List.append_nil] at mem
          simp [names, mem]
        · rw [List.flatMap_cons, List.flatMap_nil, List.append_nil] at mem
          exact nested.1 v mem
      · refine ih names ?_ nested.2 ?_ (related.imp fun e e' h => h.fewer fun v mem => ?_)
        · rwa [← List.append_assoc] at separate
        · rwa [← List.append_assoc] at apart
        · rw [NameSet.mem_union] at mem ⊢
          exact mem.imp_left fun used => NameSet.mem_union.mpr (.inl used)
    · rename_i dead
      rw [if_neg dead] at related ⊢
      refine ⟨fun final ran => ?_, False.elim⟩
      obtain ⟨next, first, ran⟩ := bind_eq_ok.mp ran
      have unused (v : Name) (mem : v ∈ stm.names) :
          v ∉ (liveGroupStms result stms).1 ∪ .ofList within ∧ v ∉ own := by
        refine ⟨fun used => ?_, fun mine => ?_⟩
        · rcases NameSet.mem_union.mp used with used | inner
          · exact dead (List.any_eq_true.mpr ⟨v, mem, decide_eq_true used⟩)
          · exact apart v (NameSet.mem_ofList.mp inner) (by simp [mem])
        · rw [names, List.mem_append] at mine
          obtain ⟨_, rest, first⟩ := List.nodup_append.mp separate
          rcases mine with earlier | later
          · exact first v earlier v (List.mem_append_left _ mem) rfl
          · refine (List.nodup_append.mp rest).2.2 v mem v (List.count_pos_iff.mp ?_) rfl
            rw [count_boundInGroupStms]
            exact Nat.lt_of_lt_of_le (List.count_pos_iff.mpr (liveGroupStms_names_subset later)) (Nat.le_add_right _ _)
      have related : List.Forall₂ ((monotone how).ThreadAgrees (notes.clear own) (notes'.clear own)
          ((liveGroupStms result stms).1 ∪ .ofList within) own within) next threads' := by
        refine forall₂_of_forall₂ (GroupStm.run_frame positive first) related fun e now e' changed agrees => ⟨fun v mem => ?_, fun _ _ => trivial⟩
        have kept : now.get? v = e.get? v := changed v fun named => mem.elim (unused v named).1 (unused v named).2
        have before := agrees.agree v mem
        simp only [Store.cell, kept] at before ⊢
        exact before
      refine (ih names ?_ nested.2 ?_ related).forth final ran
      · refine List.nodup_iff_count.mpr fun v => Nat.le_trans ?_ (List.nodup_iff_count.mp separate v)
        simp only [List.count_append]
        omega
      · refine fun v mem among => apart v mem ?_
        simp only [List.mem_append] at among ⊢
        exact among.imp_right .inr

end

/-- A kernel without the statements that bind nothing that is used. -/
theorem Simplifier.dropDead_follows {σ : Store} (k : GroupKernel) (fits : Fits S n (Kernel.group k).bound)
    (sizes : InScope S k.size.free) (types : InScope S (freeTypes k.returns)) (placed : GroupStmsScoped (S.bind k.space.names) ∅ k.body.stms) :
    Follows False (ValuesAlike .exact) ((Kernel.group k).run (.lenient how) σ)
      ((Kernel.group { k with body := ⟨dropDeadGroupStms k.body.stms k.body.result, k.body.result⟩ }).run (.lenient how) σ) := by
  have distinct := Kernel.bound_group k ▸ fits.distinct
  have entered := (Kernel.bound_group k ▸ fits).enter
  let live := liveGroupStms k.body.result k.body.stms
  let own := k.space.names ++ live.2.flatMap GroupStm.names
  have names : ({ k with body := ⟨dropDeadGroupStms k.body.stms k.body.result, k.body.result⟩ } : GroupKernel).ownNames = own := rfl
  have part (v : Name) (mem : v ∈ own) : v ∈ k.ownNames :=
    (List.mem_append.mp mem).elim (List.mem_append_left _) fun named => List.mem_append_right _ (liveGroupStms_names_subset named)
  have bound (v : Name) (mem : v ∈ k.ownNames) : v ∈ (Kernel.group k).bound := GroupKernel.mem_bound_of_ownNames mem
  -- what the two launches know of a name is the same, unless a statement that is dropped binds it
  have cells (v : Name) (mem : v ∈ own ∨ v ∉ k.ownNames) : ((σ.launch k.ownNames).cell v).Below ((σ.launch own).cell v) := by
    by_cases mine : v ∈ own
    · rw [Store.cell_launch mine, Store.cell_launch (part v mine)]
      exact .refl _
    · have other := mem.resolve_left mine
      rw [Store.sameBut_launch σ own v mine, Store.sameBut_launch σ k.ownNames v other]
      exact .refl _
  have visible (vs : NameSet) (inScope : InScope S vs) : (monotone how).Agree (σ.launch k.ownNames) (σ.launch own) vs :=
    fun v mem => cells v (.inr fun mine => fits.apart v (bound v mine) (inScope v mem))
  have used (v : Name) (mem : v ∈ live.1) : v ∈ own ∨ v ∉ k.ownNames := by
    by_cases mine : v ∈ k.ownNames
    · refine .inl ((List.mem_append.mp mine).elim (List.mem_append_left _) fun named => List.mem_append_right _ ?_)
      exact mem_live_of_used placed entered mem named
    · exact .inr mine
  have apart (v : Name) (mem : v ∈ k.body.stms.flatMap GroupStm.innerBound) : v ∉ k.ownNames :=
    GroupKernel.not_mem_ownNames fits.distinct mem
  rw [Kernel.run_group, Kernel.run_group, names]
  refine Mode.check_follows id fun all => ?_
  have sized (x : Operand) (among : x ∈ k.size.operands) :
      Follows False Eq ((σ.launch k.ownNames).env.size x) ((σ.launch own).env.size x) :=
    Env.size_follows ((visible _ sizes).operand fun v mem => NameSet.mem_gather.mpr ⟨x, among, mem⟩)
  refine (sized k.size.threads (by simp [LaunchSize.operands])).bind fun count _ _ _ same => ?_
  subst same
  refine (sized k.size.groupSize (by simp [LaunchSize.operands])).bind fun g _ _ _ same => ?_
  subst same
  have cleared := Notes.clear_clear part σ.notes
  have start : List.Forall₂ ((monotone how).ThreadAgrees ((σ.notes.clear k.ownNames).clear own) (σ.notes.clear own)
      (live.1 ∪ .ofList (k.body.stms.flatMap GroupStm.innerBound)) own (k.body.stms.flatMap GroupStm.innerBound))
      ((List.range count).map (GroupKernel.threadEnv k.space (max g 1) (σ.launch k.ownNames).env))
      ((List.range count).map (GroupKernel.threadEnv k.space (max g 1) (σ.launch own).env)) := by
    refine List.forall₂_map_left_iff.mpr (List.forall₂_map_right_iff.mpr (List.forall₂_same.mpr fun t _ => ?_))
    refine Simulation.ThreadAgrees.bindAll ⟨fun v mem => ?_, fun _ _ => trivial⟩ (fun v mem mine => apart v mem (part v mine))
      (fun v mem => List.mem_append_left _ mem) (.cons ⟨rfl, count_alike _⟩ (.cons ⟨rfl, count_alike _⟩ (.cons ⟨rfl, count_alike _⟩ .nil)))
    rw [cleared]
    refine cells v ?_
    rcases mem with mem | mine
    · exact (NameSet.mem_union.mp mem).elim (used v) fun inner => .inr (apart v (NameSet.mem_ofList.mp inner))
    · exact .inl mine
  have follows := liveGroupStms_follows (Nat.lt_of_lt_of_le Nat.zero_lt_one (Nat.le_max_right g 1)) rfl
    distinct (fun v mem => mem) apart start
  rw [cleared] at follows
  refine follows.bind fun final final' _ _ related => ?_
  refine GroupKernel.results_follow related (List.forall₂_same.mpr fun ty mem => ?_) (List.forall₂_same.mpr fun r mem => ?_)
  · have types := (visible _ types).mono fun v (free : v ∈ ty.free) => NameSet.mem_gather.mpr ⟨ty, mem, free⟩
    have rows := types.mono fun v => ty.free_of_rowReads
    refine ⟨rfl, monotone.rowShape_eq rows (Store.allKnown_iff.mpr fun v read => ?_), Env.blank_follows (types.type fun v => id)⟩
    exact Store.allKnown_iff.mp (Store.allKnown_launch all) v (NameSet.mem_gather.mpr ⟨ty, mem, read⟩)
  · have launched : (monotone how).Agree (σ.launch k.ownNames) (σ.launch own) (NameSet.gather GroupResult.free k.body.result) :=
      fun v free => cells v (used v (liveGroupStms_uses free))
    exact Simulation.result_follows launched (fun e e' h => ⟨_, _, fun v free => h.agree v (.inl (NameSet.mem_union.mpr (.inl free)))⟩)
      fun v free => NameSet.mem_gather.mpr ⟨r, mem, free⟩

end

end ArrayKernels
