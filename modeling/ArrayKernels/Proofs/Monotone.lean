import ArrayKernels.Proofs.Below
import ArrayKernels.Proofs.Simulation

/-! Lenient runs that know more. A run that knows at least as much about the names it reads has the same
values. -/
namespace ArrayKernels

theorem Mode.lenient_ne_strict {how : Leniency} : Mode.lenient how ≠ .strict := by
  intro same
  cases same

/-- The second store knows as much of the names that are read. -/
def monotone (how : Leniency) : Simulation False .exact (.lenient how) (.lenient how) where
  rel := Cell.Below
  clean _ _ := True
  fine _ _ := True
  fine' _ _ := True
  look h v := h.read_follows v v
  given alike := by
    rw [alike.eq]
    exact .value _ (.inl rfl)

namespace monotone

variable {how : Leniency} {σ σ' : Store}

theorem allKnown {vs : NameSet} (agree : (monotone how).Agree σ σ' vs) (known : σ.allKnown vs = true) :
    σ'.allKnown vs = true :=
  Store.allKnown_iff.mpr fun v mem => ((agree v mem).known (Store.allKnown_iff.mp known v mem)).1

theorem rowShape_eq {ty : Ty} (agree : ∀ v ∈ ty.rowReads, (σ.cell v).Below (σ'.cell v)) (known : σ.allKnown ty.rowReads = true) :
    σ.env.rowShape ty = σ'.env.rowShape ty := by
  refine Store.rowShape_eq (List.forall₂_same.mpr fun x mem => ?_)
  cases x with
  | const c => exact ⟨.value _ (.inl rfl), rfl⟩
  | var v =>
    have read : v ∈ ty.rowReads := NameSet.mem_gather.mpr ⟨_, mem, NameSet.mem_singleton.mpr rfl⟩
    exact ⟨agree v read, Store.allKnown_iff.mp known v read⟩

/-- What is known when a kernel is launched. -/
theorem launch {vs : NameSet} {own : List Name} (agree : (monotone how).Agree σ σ' (vs.without own)) :
    (monotone how).Agree (σ.launch own) (σ'.launch own) vs := by
  intro v mem
  by_cases mine : v ∈ own
  · rw [Store.cell_launch mine, Store.cell_launch mine]
    exact .absent
  · rw [Store.cell_launch_of_not_mem mine, Store.cell_launch_of_not_mem mine]
    exact agree v (NameSet.mem_without.mpr ⟨mem, mine⟩)

theorem lawful : (monotone how).Lawful where
  leaf := by
    intro σ σ' pat certs e leaf _ _ agree
    have more : e.Renamed (σ.Below σ') e := .self leaf (fun c => .value _ (.inl rfl)) agree
    exact more.settle_below (.refl _)
  nested := by
    intro σ σ' pat certs e nested _ _ values
    have plain (τ : Store) : τ.fullProduct e = none ∧ τ.hollow pat e = false := by
      cases e <;> first | exact ⟨rfl, rfl⟩ | cases nested
    refine Mode.settle_below (.refl _) id (values.imp fun _ _ _ _ => ValuesAlike.eq_of_exact)
      (fun _ _ => .inl (plain σ).1) fun hollow => ?_
    rw [(plain σ).2] at hollow
    cases hollow
  map := by
    intro σ σ' pat certs k run run' _ agree _ body
    obtain ⟨certs', width, thread, space, inputs, returns, inner⟩ := k
    refine Mode.map_follows id (Env.size_follows (agree.operand fun v mem => by simp [Kernel.reads, mem]))
      (Env.sizes_follow (agree.operands fun v mem => ?_)) (fun dims t measured => ?_)
      (fun e e' entered => body e e' (absurd · Mode.lenient_ne_strict) (absurd · Mode.lenient_ne_strict) entered)
      (List.forall₂_same.mpr fun r mem => ⟨rfl, rfl, Env.sizes_follow (agree.operands fun v free => ?_)⟩)
    · simp only [Kernel.reads, NameSet.mem_union]
      exact .inl (.inl (.inl (.inr mem)))
    · refine MapKernel.threadEnv_follows (fun v mem other => agree.lookup ?_) measured t
      simp only [Kernel.reads, NameSet.mem_union, NameSet.mem_without]
      exact .inl (.inl (.inr ⟨mem, other⟩))
    · simp only [Kernel.reads, NameSet.mem_union]
      exact .inr (NameSet.mem_gather.mpr ⟨r, mem, free⟩)
  chunked := by
    intro σ σ' k op op' _ agree body
    let params := k.op.params.map Binder.name
    have rows : (monotone how).Agree (σ.launch params) (σ'.launch params) (NameSet.gather Ty.rowReads k.op.ret) :=
      launch (agree.mono fun v mem => k.mem_reads_of_rows mem)
    have agree : (monotone how).Agree (σ.launch params) (σ'.launch params) (Kernel.chunked k).reads :=
      launch (agree.mono fun v mem => (NameSet.mem_without.mp mem).1)
    rw [Mode.chunked, Mode.chunked]
    refine Mode.check_follows (allKnown rows) fun known => ?_
    refine (agree.mono fun v mem => k.mem_reads_of_launch mem).chunked_run (fun ty mem => ?_)
      fun args args' _ _ alike => body args args' (absurd · Mode.lenient_ne_strict) (absurd · Mode.lenient_ne_strict) alike
    have part (v : Name) (free : v ∈ ty.rowReads) : v ∈ NameSet.gather Ty.rowReads k.op.ret :=
      NameSet.mem_gather.mpr ⟨ty, mem, free⟩
    exact rowShape_eq (rows.mono part) (Store.allKnown_iff.mpr fun v free => Store.allKnown_iff.mp known v (part v free))
  group := by
    intro σ σ' k _ agree
    have rows : (monotone how).Agree σ σ' (NameSet.gather Ty.rowReads k.returns) := agree.mono fun v mem => k.mem_reads_of_rows mem
    rw [Mode.group, Mode.group]
    refine Mode.check_follows (allKnown rows) fun known => .ok ?_
    have launched : (monotone how).Agree (σ.launch k.ownNames) (σ'.launch k.ownNames) (NameSet.gather Ty.rowReads k.returns) :=
      launch (rows.mono fun v mem => (NameSet.mem_without.mp mem).1)
    refine ⟨fun v mem => ?_, fun ty mem => rowShape_eq (launched.mono fun v free => ?_) ?_⟩
    · rw [Store.cell_launch mem, Store.cell_launch mem]
      exact .absent
    · exact NameSet.mem_gather.mpr ⟨ty, mem, free⟩
    · refine Store.allKnown_iff.mpr fun v free => ?_
      exact Store.allKnown_iff.mp (Store.allKnown_launch known) v (NameSet.mem_gather.mpr ⟨ty, mem, free⟩)

end monotone

variable {how : Leniency} {σ σ' : Store}

theorem Body.run_mono {body : Body} {vs : List Value} (distinct : body.bound.Nodup)
    (more : ∀ v ∈ body.reads, (σ.cell v).Below (σ'.cell v)) (ran : body.run (.lenient how) σ = .ok vs) :
    body.run (.lenient how) σ' = .ok vs := by
  have safe : (monotone how).Safe σ σ' body := ⟨(absurd · Mode.lenient_ne_strict), (absurd · Mode.lenient_ne_strict)⟩
  obtain ⟨vs', ran', alike⟩ :=
    (Simulation.body_follows monotone.lawful body distinct more (fun _ _ => trivial) safe).forth vs ran
  rw [ran', alike.eq_of_exact]

/-- Runs a statement. -/
def Stm.run (m : Mode) (σ : Store) (stm : Stm) : Eval Store := m.settle σ stm.pat stm.exp (stm.exp.run m σ)

theorem runStms_cons (m : Mode) (σ : Store) (stm : Stm) (stms : List Stm) :
    runStms m σ (stm :: stms) = stm.run m σ >>= fun τ => runStms m τ stms := by
  obtain ⟨pat, certs, exp⟩ := stm
  rfl

theorem Stm.run_frame {m : Mode} {τ : Store} {stm : Stm} (ran : stm.run m σ = .ok τ) {v : Name} (other : v ∉ stm.pat.names) :
    τ.cell v = σ.cell v := Mode.settle_frame ran other

theorem Stm.run_mono {τ : Store} {stm : Stm} (distinct : stm.exp.bound.Nodup)
    (more : ∀ v ∈ stm.exp.reads, (σ.cell v).Below (σ'.cell v)) (ran : stm.run (.lenient how) σ = .ok τ) :
    ∃ τ', stm.run (.lenient how) σ' = .ok τ' ∧ ∀ v ∈ stm.pat.names, (τ.cell v).Below (τ'.cell v) := by
  have fine : (monotone how).Fine σ σ' ⟨stm.pat, stm.certs, stm.exp⟩ := ⟨fun _ => trivial, fun _ => trivial⟩
  have safe : (monotone how).SafeExp σ σ' stm.exp := ⟨(absurd · Mode.lenient_ne_strict), (absurd · Mode.lenient_ne_strict)⟩
  cases nested : stm.exp.isNested with
  | true =>
    have values := Simulation.exp_follows monotone.lawful stm.exp nested distinct more (fun _ _ => trivial) fine safe
    exact (monotone.lawful.nested nested fine (fun _ _ => trivial) values).forth τ ran
  | false =>
    rw [Stm.run, Exp.run_leaf nested] at ran ⊢
    exact (monotone.lawful.leaf nested fine (fun _ _ => trivial) (Exp.reads_leaf nested ▸ more)).forth τ ran

end ArrayKernels
