import ArrayKernels.Proofs.Follows
import ArrayKernels.Simplify.Program

/-! A statement leaves a body only if the body does not consume what it binds. Consumption is described by
rules of its own, one for each way in which an array can be updated from inside an expression; the
analysis finds all that the rules give, apart from what reaches an update only through views that are
taken in nested bodies. -/
namespace ArrayKernels

/-- The value of the expression shares the storage of the array. -/
inductive Exp.Views : Exp → Name → Prop
  | whole {v} : Views (.operand (.var v)) v
  | index {v indices} : Views (.index v indices) v
  | reshape {v shape} : Views (.reshape shape v) v
  | rearrange {v perm} : Views (.rearrange perm v) v

theorem Exp.Views.aliasSource {e : Exp} {v : Name} (h : e.Views v) : e.aliasSource = some v := by
  cases h <;> rfl

/-- Statements make `w` a view of `v`, in the order in which they stand. -/
inductive Shares : List Stm → Name → Name → Prop
  | same {stms v} : Shares stms v v
  | later {stm stms v w} : Shares stms v w → Shares (stm :: stms) v w
  | view {stm stms u v w} : stm.exp.Views v → u ∈ stm.pat.names → Shares stms u w → Shares (stm :: stms) v w

mutual

/-- Evaluating the expression updates the array in place. A parameter of a loop or a kernel stands for what it
is bound to. If `far`, then what nested bodies make views of is updated with the views, and the arrays of
operators of reductions and of divisions count too. -/
inductive Exp.Consumes (far : Bool) : Exp → Name → Prop
  | update {array indices value} : Exp.Consumes far (.update array indices value) array
  | onTrue {cond onTrue onFalse ret v} : Body.Consumes far onTrue v → Exp.Consumes far (.branch cond onTrue onFalse ret) v
  | onFalse {cond onTrue onFalse ret v} : Body.Consumes far onFalse v → Exp.Consumes far (.branch cond onTrue onFalse ret) v
  | merged {context values index bound body v} {b : Binder} : Body.Consumes far body b.name → (b, .var v) ∈ context ++ values →
      Exp.Consumes far (.loop context values index bound body) v
  | repeated {context values index bound body v} : Body.Consumes far body v →
      v ∉ body.bound ++ (context ++ values).map (·.1.name) ++ [index] → Exp.Consumes far (.loop context values index bound body) v
  | launch {k v} : Kernel.Consumes far k v → Exp.Consumes far (.launch k) v

inductive Body.Consumes (far : Bool) : Body → Name → Prop
  | stm {stms result stm v} : stm ∈ stms → Exp.Consumes far stm.exp v → Body.Consumes far ⟨stms, result⟩ v
  | view {stms result v w} : far = true → Shares stms v w → Body.Consumes far ⟨stms, result⟩ w → Body.Consumes far ⟨stms, result⟩ v

/-- The parameters from number `skip` on are bound to parts of the arrays. -/
inductive Lambda.Consumes (far : Bool) : Lambda → Nat → List Name → Name → Prop
  | param {params body ret skip arrays v} {b : Binder} : Body.Consumes far body b.name → (b, v) ∈ (params.drop skip).zip arrays →
      Lambda.Consumes far ⟨params, body, ret⟩ skip arrays v
  | free {params body ret skip arrays v} : Body.Consumes far body v → v ∉ body.bound ++ params.map Binder.name →
      Lambda.Consumes far ⟨params, body, ret⟩ skip arrays v

inductive Kernel.Consumes (far : Bool) : Kernel → Name → Prop
  | input {k : MapKernel} {i : MapInput} : Body.Consumes far k.body i.param.name → i ∈ k.inputs → Kernel.Consumes far (.map k) i.array
  | thread {k : MapKernel} {v} : Body.Consumes far k.body v → v ∉ k.body.bound ++ k.threadNames → Kernel.Consumes far (.map k) v
  | fold {k : ScanKernel} {v} : Lambda.Consumes far k.fold (1 + k.neutral.length) k.arrays v → Kernel.Consumes far (.scan k) v
  | combine {k : ScanKernel} {v} : Lambda.Consumes far k.combine 0 [] v → Kernel.Consumes far (.scan k) v
  | chunks {k : ChunkedKernel} {v} : Lambda.Consumes far k.op 2 k.arrays v → Kernel.Consumes far (.chunked k) v
  | rows {k : ScatterKernel} {v} : Lambda.Consumes far k.op 1 k.arrays v → Kernel.Consumes far (.scatter k) v
  | dest {k : ScatterKernel} {count v} : (count, v) ∈ k.dests → Kernel.Consumes far (.scatter k) v
  | lanes {k : GroupKernel} {pat only body v} : .thread pat only body ∈ k.body.stms → Body.Consumes far body v →
      v ∉ boundInGroupStms k.body.stms → Kernel.Consumes far (.group k) v
  | chunk {k : GroupKernel} {size chunks division width perThread arrays pat only body v} {b : Binder} : far = true →
      .split size chunks division width perThread arrays ∈ k.body.stms → (b, v) ∈ chunks.zip arrays →
      .thread pat only body ∈ k.body.stms → Body.Consumes far body b.name → Kernel.Consumes far (.group k) v
  | reduce {k : GroupKernel} {pat width op inputs v} : far = true → .reduce pat width op inputs ∈ k.body.stms →
      Lambda.Consumes far op 0 [] v → Kernel.Consumes far (.group k) v

end

/-- The body updates a view of the array that its own statements have made. -/
def Body.Spends (far : Bool) (body : Body) (v : Name) : Prop := ∃ w, Shares body.stms v w ∧ body.Consumes far w

theorem mem_escaping_of_bound {inner : NameSet} {bindings : List (Binder × Name)} {hidden : List Name} {b : Binder} {v : Name}
    (consumed : b.name ∈ inner) (mem : (b, v) ∈ bindings) : v ∈ escaping inner bindings hidden := by
  refine NameSet.mem_union.mpr (.inl (NameSet.mem_ofList.mpr (List.mem_filterMap.mpr ⟨_, mem, ?_⟩)))
  rw [if_pos consumed]

theorem mem_escaping_of_free {inner : NameSet} {bindings : List (Binder × Name)} {hidden : List Name} {v : Name}
    (consumed : v ∈ inner) (visible : v ∉ hidden) : v ∈ escaping inner bindings hidden :=
  NameSet.mem_union.mpr (.inr (NameSet.mem_without.mpr ⟨consumed, visible⟩))

theorem mem_variableInits {merge : List (Binder × Operand)} {b : Binder} {v : Name} (mem : (b, .var v) ∈ merge) :
    (b, v) ∈ variableInits merge :=
  List.mem_filterMap.mpr ⟨_, mem, rfl⟩

theorem Kernel.consumed_map (k : MapKernel) : (Kernel.map k).consumed =
    escaping k.body.consumed (k.inputs.map fun i => (i.param, i.array)) (k.body.bound ++ k.threadNames) := by
  cases k
  rw [consumed]
  rfl

theorem Kernel.consumed_scan (k : ScanKernel) :
    (Kernel.scan k).consumed = k.fold.consumed (1 + k.neutral.length) k.arrays ∪ k.combine.consumed 0 [] := by
  cases k
  rw [consumed]

theorem Kernel.consumed_chunked (k : ChunkedKernel) : (Kernel.chunked k).consumed = k.op.consumed 2 k.arrays := by
  cases k
  rw [consumed]

theorem Kernel.consumed_scatter (k : ScatterKernel) :
    (Kernel.scatter k).consumed = k.op.consumed 1 k.arrays ∪ NameSet.ofList (k.dests.map Prod.snd) := by
  cases k
  rw [consumed]

theorem Kernel.consumed_group (k : GroupKernel) :
    (Kernel.group k).consumed = consumedInThreads (boundInGroupStms k.body.stms) k.body.stms := by
  rcases k with ⟨_, _, _, _, ⟨_, _⟩⟩
  rw [consumed]

theorem mem_consumedInStms {stms : List Stm} {stm : Stm} {v : Name} (mem : stm ∈ stms) (consumed : v ∈ stm.exp.consumed) :
    v ∈ consumedInStms stms := by
  induction stms with
  | nil => cases mem
  | cons head stms ih =>
    obtain ⟨pat, certs, exp⟩ := head
    rw [consumedInStms, NameSet.mem_union]
    rcases List.mem_cons.mp mem with rfl | later
    · exact .inl consumed
    · exact .inr (ih later)

theorem mem_consumedInThreads {inside : List Name} {stms : List GroupStm} {pat : Pattern} {only : Option Operand} {body : Body}
    {v : Name} (mem : .thread pat only body ∈ stms) (consumed : v ∈ body.consumed) (visible : v ∉ inside) :
    v ∈ consumedInThreads inside stms := by
  induction stms with
  | nil => cases mem
  | cons head stms ih =>
    rcases List.mem_cons.mp mem with rfl | later
    · rw [consumedInThreads, NameSet.mem_union]
      exact .inl (NameSet.mem_without.mpr ⟨consumed, visible⟩)
    · cases head with
      | split => exact ih later
      | reduce => exact ih later
      | thread => exact NameSet.mem_union.mpr (.inr (ih later))

-- Induction over the derivation: the analysis has one clause for each rule.
mutual

theorem Exp.Consumes.mem_consumed {e : Exp} {v : Name} : e.Consumes false v → v ∈ e.consumed
  | .update => NameSet.mem_singleton.mpr rfl
  | .onTrue inside => NameSet.mem_union.mpr (.inl inside.mem_consumed)
  | .onFalse inside => NameSet.mem_union.mpr (.inr inside.mem_consumed)
  | .merged inside mem => mem_escaping_of_bound inside.mem_consumed (mem_variableInits mem)
  | .repeated inside visible => mem_escaping_of_free inside.mem_consumed visible
  | .launch inside => inside.mem_consumed

theorem Body.Consumes.mem_consumed {body : Body} {v : Name} : body.Consumes false v → v ∈ body.consumed
  | .stm mem inside => mem_consumedInStms mem inside.mem_consumed
  | .view impossible _ _ => nomatch impossible

theorem Lambda.Consumes.mem_consumed {op : Lambda} {skip : Nat} {arrays : List Name} {v : Name} :
    op.Consumes false skip arrays v → v ∈ op.consumed skip arrays
  | .param inside mem => mem_escaping_of_bound inside.mem_consumed mem
  | .free inside visible => mem_escaping_of_free inside.mem_consumed visible

theorem Kernel.Consumes.mem_consumed {k : Kernel} {v : Name} : k.Consumes false v → v ∈ k.consumed
  | .input inside mem => Kernel.consumed_map _ ▸ mem_escaping_of_bound inside.mem_consumed (List.mem_map_of_mem mem)
  | .thread inside visible => Kernel.consumed_map _ ▸ mem_escaping_of_free inside.mem_consumed visible
  | .fold inside => Kernel.consumed_scan _ ▸ NameSet.mem_union.mpr (.inl inside.mem_consumed)
  | .combine inside => Kernel.consumed_scan _ ▸ NameSet.mem_union.mpr (.inr inside.mem_consumed)
  | .chunks inside => Kernel.consumed_chunked _ ▸ inside.mem_consumed
  | .rows inside => Kernel.consumed_scatter _ ▸ NameSet.mem_union.mpr (.inl inside.mem_consumed)
  | .dest mem => Kernel.consumed_scatter _ ▸ NameSet.mem_union.mpr (.inr (NameSet.mem_ofList.mpr (List.mem_map_of_mem mem)))
  | .lanes mem inside visible => Kernel.consumed_group _ ▸ mem_consumedInThreads mem inside.mem_consumed visible
  | .chunk impossible _ _ _ _ => nomatch impossible
  | .reduce impossible _ _ => nomatch impossible

end

/-- What is consumed from a statement on, given what is consumed after it. -/
def Stm.consumedSources (stm : Stm) (consumed : NameSet) : NameSet :=
  if stm.pat.names.any (· ∈ consumed) then
    match stm.exp.aliasSource with
    | some v => consumed.insert v
    | none => consumed
  else consumed

theorem Body.consumedSources_eq (body : Body) : body.consumedSources = body.stms.foldr Stm.consumedSources body.consumed := rfl

theorem Stm.mem_consumedSources_of_mem {stm : Stm} {consumed : NameSet} {v : Name} (mem : v ∈ consumed) :
    v ∈ stm.consumedSources consumed := by
  unfold consumedSources
  split
  · split
    · exact NameSet.mem_insert.mpr (.inl mem)
    · exact mem
  · exact mem

theorem Stm.mem_consumedSources_of_views {stm : Stm} {consumed : NameSet} {u v : Name} (views : stm.exp.Views v)
    (bound : u ∈ stm.pat.names) (mem : u ∈ consumed) : v ∈ stm.consumedSources consumed := by
  have viewed : stm.pat.names.any (· ∈ consumed) = true := List.any_eq_true.mpr ⟨u, bound, by simpa using mem⟩
  rw [consumedSources, if_pos viewed, views.aliasSource]
  exact NameSet.mem_insert.mpr (.inr rfl)

theorem Shares.mem_consumedSources {stms : List Stm} {v w : Name} (shares : Shares stms v w) {consumed : NameSet}
    (mem : w ∈ consumed) : v ∈ stms.foldr Stm.consumedSources consumed := by
  induction shares with
  | @same stms v =>
    induction stms with
    | nil => exact mem
    | cons stm stms ih => exact Stm.mem_consumedSources_of_mem ih
  | later _ ih => exact Stm.mem_consumedSources_of_mem (ih mem)
  | view views bound _ ih => exact Stm.mem_consumedSources_of_views views bound (ih mem)

theorem Body.Spends.mem_consumedSources {body : Body} {v : Name} (spends : body.Spends false v) : v ∈ body.consumedSources := by
  obtain ⟨w, shares, consumes⟩ := spends
  rw [consumedSources_eq]
  exact shares.mem_consumedSources consumes.mem_consumed

/-- What has left the level binds nothing that its body consumes. -/
def Level.Spares (consumed : NameSet) (level : Level) : Prop :=
  level.consumed = consumed ∧ ∀ stm ∈ level.hoisted, ∀ v ∈ stm.pat.names, v ∉ consumed

theorem Level.Spares.add {consumed : NameSet} {level : Level} (spares : level.Spares consumed) (blocker : Blocker) (stm : Stm) :
    (level.add blocker stm).Spares consumed := by
  obtain ⟨same, spared⟩ := spares
  unfold Level.add
  split
  · exact ⟨same, spared⟩
  · rename_i leaves
    refine ⟨same, fun st mem v bound consumed => ?_⟩
    rcases List.mem_append.mp mem with before | now
    · exact spared st before v bound consumed
    · obtain rfl := List.mem_singleton.mp now
      refine leaves ?_
      have some : st.pat.names.any (· ∈ level.consumed) = true := List.any_eq_true.mpr ⟨v, bound, by simpa [same] using consumed⟩
      rw [keeps, some, Bool.or_true, Bool.true_or]

theorem Level.Spares.addAll {consumed : NameSet} {level : Level} (spares : level.Spares consumed) (blocker : Blocker)
    (stms : List Stm) : (stms.foldl (fun level stm => level.add blocker stm) level).Spares consumed := by
  induction stms generalizing level with
  | nil => exact spares
  | cons stm stms ih => exact ih (spares.add blocker stm)

/-! Invariants of the work on a queue -/

section
variable {σ : Type} {P : List Stm → σ → Progress → Prop} {fire : σ → Stm → Simplify (Option (List Stm))}
  {settle : σ → Stm → Simplify σ} {level last : σ} {queue : List Stm} {p q : Progress}

/-- What holds of the queue and the level is kept when a statement is replaced, and when it is settled. -/
structure Kept (P : List Stm → σ → Progress → Prop) (fire : σ → Stm → Simplify (Option (List Stm)))
    (settle : σ → Stm → Simplify σ) : Prop where
  replaced : ∀ {stm queue level new p q}, P (stm :: queue) level p → fire level stm p = .ok (some new, q) → P (new ++ queue) level q
  passed : ∀ {stm queue level p q}, P (stm :: queue) level p → fire level stm p = .ok (none, q) → P (stm :: queue) level q
  settled : ∀ {stm queue level next p q}, P (stm :: queue) level p → settle level stm p = .ok (next, q) → P queue next q

theorem workThrough_keeps {replaced : List Stm → σ → Simplify σ}
    (goesOn : ∀ {stm queue level new p between last q}, P (stm :: queue) level p → fire level stm p = .ok (some new, between) →
      replaced (new ++ queue) level between = .ok (last, q) → P [] last q)
    (passed : ∀ {stm queue level p q}, P (stm :: queue) level p → fire level stm p = .ok (none, q) → P (stm :: queue) level q)
    (settled : ∀ {stm queue level next p q}, P (stm :: queue) level p → settle level stm p = .ok (next, q) → P queue next q)
    (holds : P queue level p) (ran : workThrough fire settle replaced queue level p = .ok (last, q)) : P [] last q := by
  induction queue generalizing level p with
  | nil =>
    obtain ⟨rfl, rfl⟩ := Pass.pure_eq_ok.mp ran
    exact holds
  | cons stm queue ih =>
    obtain ⟨fired, between, tried, ran⟩ := Pass.bind_eq_ok.mp ran
    cases fired with
    | some new => exact goesOn holds tried ran
    | none =>
      obtain ⟨next, after, done, ran⟩ := Pass.bind_eq_ok.mp ran
      exact ih (settled (passed holds tried) done) ran

theorem Kept.drain (kept : Kept P fire settle) {n : Nat} (holds : P queue level p)
    (ran : drain fire settle n queue level p = .ok (last, q)) : P [] last q := by
  induction n generalizing queue level p last q with
  | zero =>
    -- nothing is replaced any more
    refine workThrough_keeps (fun _ tried _ => ?_) (fun holds tried => ?_) kept.settled holds ran
    · cases (Pass.pure_eq_ok.mp tried).1
    · exact (Pass.pure_eq_ok.mp tried).2 ▸ holds
  | succ n ih => exact workThrough_keeps (fun holds tried ran => ih (kept.replaced holds tried) ran) kept.passed kept.settled holds ran

end

/-- No statement that leaves a body binds an array that the body consumes: neither one that an update or a
scatter names, at any depth and through the parameters of loops and kernels, nor one of which the
statements of the body make a consumed view. -/
theorem Simplifier.bodyTo_hoists_unspent (s : Simplifier) (depth : Nat) (scope : SymbolTable) (blocker : Blocker) (body : Body)
    (p : Progress) (hoisted : List Stm) (out : Body) (q : Progress)
    (swept : s.bodyTo depth scope blocker body p = .ok ((hoisted, out), q)) :
    ∀ stm ∈ hoisted, ∀ v ∈ stm.pat.names, ¬ body.Spends false v := by
  cases depth with
  | zero =>
    obtain ⟨same, _⟩ := Pass.pure_eq_ok.mp swept
    cases same
    exact fun _ mem => absurd mem List.not_mem_nil
  | succ depth =>
    obtain ⟨level, between, drained, swept⟩ := Pass.bind_eq_ok.mp swept
    obtain ⟨_, last, _, swept⟩ := Pass.bind_eq_ok.mp swept
    obtain ⟨same, _⟩ := Pass.pure_eq_ok.mp swept
    cases same
    have start : (Level.start scope body).Spares body.consumedSources := ⟨rfl, fun _ mem => absurd mem List.not_mem_nil⟩
    have spares : level.Spares body.consumedSources := by
      have kept : Kept (fun _ level _ => level.Spares body.consumedSources) (fun level st => s.fireDown level.scope st)
          (s.settle (s.bodyTo depth) blocker) := by
        refine ⟨fun spares _ => spares, fun spares _ => spares, fun spares settled => ?_⟩
        obtain ⟨_, _, _, settled⟩ := Pass.bind_eq_ok.mp settled
        obtain ⟨rfl, _⟩ := Pass.pure_eq_ok.mp settled
        exact spares.addAll blocker _
      exact kept.drain start drained
    exact fun stm mem v bound spends => spares.2 stm mem v bound spends.mem_consumedSources

/-- The type of a row of four words. -/
def sampleRow : Ty := .array .i64 [.word 4] false

/-- Fills a row, adds two numbers, and updates the row through a view of it. -/
def updatesOwnView : Body :=
  let x : Name := ⟨"x", 2⟩
  let y : Name := ⟨"y", 4⟩
  let z : Name := ⟨"z", 5⟩
  let k : Name := ⟨"k", 6⟩
  ⟨[.single x sampleRow (.replicate [.word 4] (.word 0)), .ofWord k (.binary .add (.var ⟨"n", 0⟩) (.word 1)),
    .single y sampleRow (.operand (.var x)), .single z sampleRow (.update y [.word 0] (.var k))], [.var z]⟩

theorem updatesOwnView_hoists_unspent :
    updatesOwnView.Spends false ⟨"x", 2⟩ ∧
    ∃ out, (Simplifier.make .standard true).bodyTo 1 .empty .consuming updatesOwnView ⟨⟨10⟩, 0⟩ =
        .ok (([.ofWord ⟨"k", 6⟩ (.binary .add (.var ⟨"n", 0⟩) (.word 1))], out), ⟨⟨10⟩, 0⟩) ∧
      ¬ updatesOwnView.Spends false ⟨"k", 6⟩ := by
  constructor
  · refine ⟨⟨"y", 4⟩, .later (.later (.view .whole (List.mem_singleton.mpr rfl) .same)), ?_⟩
    exact .stm (List.mem_cons_of_mem _ (List.mem_cons_of_mem _ (List.mem_cons_of_mem _ (List.mem_singleton.mpr rfl)))) .update
  · obtain ⟨out, swept⟩ : ∃ out, (Simplifier.make .standard true).bodyTo 1 .empty .consuming updatesOwnView ⟨⟨10⟩, 0⟩ =
        .ok (([.ofWord ⟨"k", 6⟩ (.binary .add (.var ⟨"n", 0⟩) (.word 1))], out), ⟨⟨10⟩, 0⟩) := ⟨_, by rfl⟩
    refine ⟨out, swept, ?_⟩
    exact Simplifier.bodyTo_hoists_unspent _ _ _ _ _ _ _ _ _ swept _ (List.mem_singleton.mpr rfl) _ (List.mem_singleton.mpr rfl)

/-- Fills a row and updates it through a view that is taken in a branch. -/
def updatesNestedView : Body :=
  let x : Name := ⟨"x", 2⟩
  let r : Name := ⟨"r", 3⟩
  let y : Name := ⟨"y", 4⟩
  let z : Name := ⟨"z", 5⟩
  let onTrue : Body :=
    ⟨[.single y sampleRow (.operand (.var x)), .single z sampleRow (.update y [.word 0] (.word 1))], [.var z]⟩
  ⟨[.single x sampleRow (.replicate [.word 4] (.word 0)),
    .single r sampleRow (.branch (.var ⟨"c", 0⟩) onTrue ⟨[], [.var x]⟩ [sampleRow])], [.var r]⟩

/-- Views taken in nested bodies are not followed: the row leaves, and the branch updates it in place. -/
theorem updatesNestedView_hoists_spent :
    updatesNestedView.Spends true ⟨"x", 2⟩ ∧
    ∃ out, (Simplifier.make .standard true).body .empty .consuming updatesNestedView ⟨⟨10⟩, 0⟩ =
      .ok (([.single ⟨"x", 2⟩ sampleRow (.replicate [.word 4] (.word 0))], out), ⟨⟨10⟩, 0⟩) := by
  constructor
  · refine ⟨_, .same, .stm (List.mem_cons_of_mem _ (List.mem_singleton.mpr rfl)) (.onTrue ?_)⟩
    refine .view rfl (.view .whole (List.mem_singleton.mpr rfl) .same) ?_
    exact .stm (List.mem_cons_of_mem _ (List.mem_singleton.mpr rfl)) .update
  · exact ⟨_, by rfl⟩

end ArrayKernels
