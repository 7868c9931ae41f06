import ArrayKernels.Proofs.OutputSoundness
import ArrayKernels.Proofs.UnusedInputs

/-! Outputs of map kernels that are the same in every thread, built outside of the kernel. Each thread gives one row of an output.
If all rows are one value that is known outside, the output is made of copies of that value in the shape of the index space, and the
outputs that are left do not change. A kernel without an index space lays its rows out over its width, and the copies do not: there
the statements that are emitted never give the values of the kernel. -/
namespace ArrayKernels

variable {env next : Env} {k : MapKernel} {vs : List Value}

/-! Some of the outputs -/

namespace MapKernel

/-- The results of the threads, where each of them has some. -/
structure Rows (k : MapKernel) (env : Env) (count : Nat) (dims : List Nat) (rows : List (List Value)) : Prop where
  width : env.size k.width = .ok count
  extents : env.sizes k.extents = .ok dims
  each : List.Forall₂ (fun t row => ∃ e, k.threadEnv dims env t = .ok e ∧ k.body.eval e = .ok row ∧ row.length = k.returns.length)
    (List.range count) rows

theorem runThread_eq_row {thread : Env → Eval (List Value)} {dims : List Nat} {t : Nat} {row : List Value} :
    k.runThread thread dims env t = .ok row ↔
      ∃ e, k.threadEnv dims env t = .ok e ∧ thread e = .ok row ∧ row.length = k.returns.length := by
  simp only [runThread, bind_eq_ok]
  constructor
  · rintro ⟨e, entered, values, ran, full⟩
    split at full
    · cases full
      exact ⟨e, entered, ran, ‹_›⟩
    · cases full
  · rintro ⟨e, entered, ran, full⟩
    exact ⟨e, entered, row, ran, if_pos full⟩

/-- A kernel has values if its threads have rows that can be put together. -/
theorem eval_eq_rows : (Kernel.map k).eval env = .ok vs ↔
    ∃ count dims rows, k.Rows env count dims rows ∧
      ((k.returns.zip (columns k.returns.length rows)).mapM fun rc =>
        assemble env (if dims = [] then [count] else dims) rc.1 rc.2) = .ok vs := by
  simp only [eval_eq_run, run, bind_eq_ok, collect_eq_mapM, @mapM_eq_ok Nat, runThread_eq_row, mapM_columns]
  constructor
  · rintro ⟨count, sized, dims, measured, rows, each, assembled⟩
    exact ⟨count, dims, rows, ⟨sized, measured, each⟩, assembled⟩
  · rintro ⟨count, dims, rows, threads, assembled⟩
    exact ⟨count, threads.width, dims, threads.extents, rows, threads.each, assembled⟩

namespace Rows

variable {count : Nat} {dims : List Nat} {rows : List (List Value)} (threads : k.Rows env count dims rows)
include threads

theorem length : rows.length = count := by
  rw [← threads.each.length_eq, List.length_range]

theorem row {row : List Value} (mem : row ∈ rows) :
    ∃ e, (∀ v, v ∉ k.threadNames → e.get? v = env.get? v) ∧ k.body.eval e = .ok row ∧ row.length = k.returns.length := by
  obtain ⟨t, _, e, entered, rest⟩ := exists_of_mem_right threads.each mem
  exact ⟨e, fun v other => threadEnv_frame entered other, rest⟩

theorem pick {flags : List Bool} (matched : flags.length = k.returns.length) :
    Rows { k with returns := ArrayKernels.pick flags k.returns, body := ⟨k.body.stms, ArrayKernels.pick flags k.body.result⟩ }
      env count dims (rows.map (ArrayKernels.pick flags)) where
  width := threads.width
  extents := threads.extents
  each := by
    rw [List.forall₂_map_right_iff]
    apply threads.each.imp
    rintro t row ⟨e, entered, ran, full⟩
    refine ⟨e, entered, ?_, ?_⟩
    · rw [← Body.eta k.body, Body.eval] at ran
      obtain ⟨last, first, result⟩ := bind_eq_ok.mp ran
      rw [Body.eval]
      exact bind_eq_ok.mpr ⟨last, first, pick_mapM flags result⟩
    · rw [length_pick (matched.trans full.symm), length_pick matched]

end Rows

/-- The kernel with the flagged outputs has their values. -/
theorem eval_pick {flags : List Bool} (matched : flags.length = k.returns.length) (evaluates : (Kernel.map k).eval env = .ok vs) :
    (Kernel.map { k with returns := pick flags k.returns, body := ⟨k.body.stms, pick flags k.body.result⟩ }).eval env =
      .ok (pick flags vs) := by
  obtain ⟨count, dims, rows, threads, assembled⟩ := eval_eq_rows.mp evaluates
  refine eval_eq_rows.mpr ⟨count, dims, rows.map (pick flags), threads.pick matched, ?_⟩
  have full (row : List Value) (mem : row ∈ rows) : row.length = flags.length := by
    obtain ⟨_, _, _, full⟩ := threads.row mem
    rw [full, matched]
  have picked := pick_mapM flags assembled
  rw [← pick_zip flags (by simp [columns]), ← matched, ← columns_pick full] at picked
  rw [length_pick matched]
  exact picked

end MapKernel

/-! Statements -/

section
variable {stm : Stm}

/-- A statement without a context binds one value to each of its names. -/
theorem evalStms_outputs (context : stm.pat.context = []) :
    evalStms env [stm] = .ok next ↔
      ∃ vs, stm.exp.eval env = .ok vs ∧ vs.length = stm.pat.values.length ∧ next = env.bindAll (stm.pat.names.zip vs) := by
  obtain ⟨⟨_, values⟩, certs, exp⟩ := stm
  cases context
  simp only [evalStms, bind_eq_ok]
  constructor
  · rintro ⟨vs, evaluates, _, bound, same⟩
    cases same
    simp only [Env.bindValues, Pattern.binders, List.nil_append] at bound
    split at bound
    · rename_i full
      cases bound
      exact ⟨vs, evaluates, full, rfl⟩
    · cases bound
  · rintro ⟨vs, evaluates, full, rfl⟩
    refine ⟨vs, evaluates, _, if_pos ?_, rfl⟩
    simpa [Pattern.binders] using full

section
variable {pat : Pattern} (context : pat.context = []) (full : vs.length = pat.values.length)
include context full

theorem Pattern.length_names : pat.names.length = vs.length := by
  rw [names_eq context, List.length_map, full]

theorem Pattern.map_fst_zip : (pat.names.zip vs).map Prod.fst = pat.names :=
  List.map_fst_zip (Nat.le_of_eq (length_names context full))

end

theorem keepOutputs_names {flags : List Bool} (flagged : Flagged flags stm k) :
    (keepOutputs flags stm k).pat.names = pick flags stm.pat.names :=
  Pattern.names_pick flagged.context flags

/-- The kernel statement with the flagged outputs binds their names to the values that they had. -/
theorem keepOutputs_evaluates {flags : List Bool} (flagged : Flagged flags stm k) (evaluates : (Kernel.map k).eval env = .ok vs)
    (full : vs.length = stm.pat.values.length) :
    evalStms env [keepOutputs flags stm k] = .ok (env.bindAll (pick flags (stm.pat.names.zip vs))) := by
  have context : (keepOutputs flags stm k).pat.context = [] := flagged.context
  rw [evalStms_outputs context]
  refine ⟨pick flags vs, MapKernel.eval_pick flagged.returns evaluates, ?_, ?_⟩
  · change _ = (pick flags stm.pat.values).length
    rw [length_pick flagged.values, length_pick (flagged.values.trans full.symm)]
  · rw [keepOutputs_names flagged, pick_zip flags (Pattern.length_names flagged.context full)]

theorem Flagged.negate {flags : List Bool} (h : Flagged flags stm k) : Flagged (flags.map (!·)) stm k := by
  constructor
  · exact h.context
  · rw [List.length_map, h.values]
  · rw [List.length_map, h.returns]
  · rw [List.length_map, h.results]

/-- The kernel statement with the other outputs leaves the flagged ones alone. -/
theorem keepOutputs_frame {flags : List Bool} (flagged : Flagged flags stm k) (distinct : stm.pat.names.Nodup)
    (ran : evalStms env [keepOutputs (flags.map (!·)) stm k] = .ok next) {v : Name} (own : v ∈ pick flags stm.pat.names) :
    next.get? v = env.get? v := by
  have context : (keepOutputs (flags.map (!·)) stm k).pat.context = [] := flagged.context
  obtain ⟨vs, _, _, rfl⟩ := (evalStms_outputs context).mp ran
  apply Env.get?_bindAll_of_not_mem
  intro again
  obtain ⟨b, inside, rfl⟩ := List.mem_map.mp again
  have kept := (List.of_mem_zip inside).1
  rw [keepOutputs_names flagged.negate] at kept
  have matched : flags.length = stm.pat.names.length := by
    rw [Pattern.names_eq flagged.context, List.length_map, flagged.values]
  exact (List.nodup_append.mp ((pick_perm matched).nodup_iff.mpr distinct)).2.2 _ own _ kept rfl

end

theorem pick_not_all {α : Type} {flags : List Bool} (xs : List α) (all : flags.all id = true) : pick (flags.map (!·)) xs = [] := by
  rw [pick, List.filterMap_eq_nil_iff]
  intro p mem
  obtain ⟨flag, among, same⟩ := List.mem_map.mp (List.of_mem_zip mem).1
  have set : flag = true := List.all_eq_true.mp all flag among
  rw [← same, set]
  rfl

/-- Binding the flagged names first, and the others after them. -/
theorem Env.get?_bindAll_pick {bs : List (Name × Value)} {flags : List Bool} (matched : flags.length = bs.length)
    (distinct : (bs.map Prod.fst).Nodup) {v : Name} (values : ∀ b ∈ pick flags bs, next.get? b.1 = some b.2)
    (frame : v ∉ bs.map Prod.fst → next.get? v = env.get? v) :
    (next.bindAll (pick (flags.map (!·)) bs)).get? v = (env.bindAll bs).get? v := by
  have divided := ((pick_perm matched).map Prod.fst).nodup_iff.mpr distinct
  rw [List.map_append, List.nodup_append] at divided
  by_cases own : v ∈ bs.map Prod.fst
  · obtain ⟨b, mem, rfl⟩ := List.mem_map.mp own
    rw [get?_bindAll_of_nodup env distinct mem]
    rcases mem_pick_or matched mem with first | second
    · rw [get?_bindAll_of_not_mem, values b first]
      exact fun again => divided.2.2 _ (List.mem_map_of_mem first) _ again rfl
    · exact get?_bindAll_of_nodup next divided.2.1 second
  · rw [get?_bindAll_of_not_mem env own, get?_bindAll_of_not_mem, frame own]
    exact fun mem => own (((pick_sublist _ _).map Prod.fst).subset mem)

/-! Copies of one value -/

/-- Rows that are one value are copies of it, also where there are none. -/
theorem ArrayValue.replicate_of_elem {e : ScalarType} {shape : List Nat} {count : Nat} {x : Value} {stacked : ArrayValue}
    (typed : x.elem = some e) (h : ofRows e shape (List.replicate count x) = .ok stacked) :
    ∃ flat, replicate [count] x = .ok flat ∧ flat.elem = stacked.elem ∧ flat.data = stacked.data := by
  have elem : stacked.elem = e := by
    obtain ⟨_, _, made⟩ := bind_eq_ok.mp h
    cases made
    rfl
  rw [elem]
  cases count with
  | zero =>
    cases h
    cases x with
    | scalar c =>
      cases typed
      exact ⟨_, rfl, rfl, rfl⟩
    | array a =>
      cases typed
      have made : replicate [0] (.array a) = .ok ⟨a.elem, [0] ++ a.shape, copies (volume [0]) a.data⟩ := rfl
      exact ⟨_, made, rfl, replicate_empty (Nat.zero_mul _) made⟩
    | mem n space => cases typed
  | succ n =>
    obtain ⟨flat, made, data, elem', _⟩ := replicate_of_ofRows h (Nat.succ_pos n)
    exact ⟨flat, made, Option.some.inj (elem'.symm.trans typed), data⟩

namespace MapKernel

/-- The value is made of copies of an operand: one for each thread, in the shape of the index space. -/
def Copies (k : MapKernel) (env : Env) (ty : Ty) (value : Operand) (out : Value) : Prop :=
  ∃ flat new b, (Exp.replicate [k.width] value).eval env = .ok [.array flat] ∧ env.sizes (k.extents ++ ty.shape) = .ok new ∧
    flat.reshape new = some b ∧ out = .array b

section
variable {count j : Nat} {dims : List Nat} {rows : List (List Value)} {table : SymbolTable} {value : Operand} {ret : Ty × List Nat} {x out : Value}

/-- A result that no code of the kernel binds has the same value in all threads. -/
theorem Rows.invariant (threads : k.Rows env count dims rows) (invariant : invariantResult table (k.body.bound ++ k.threadNames) value = true)
    (result : k.body.result[j]? = some value) {row : List Value} (mem : row ∈ rows) : ∃ x, env.operand value = .ok x ∧ row[j]? = some x := by
  obtain ⟨e, frame, ran, _⟩ := threads.row mem
  rw [← Body.eta k.body, Body.eval] at ran
  obtain ⟨last, first, results⟩ := bind_eq_ok.mp ran
  have results := mapM_eq_ok.mp results
  obtain ⟨below, rfl⟩ := List.getElem?_eq_some_iff.mp result
  have inRow : j < row.length := results.length_eq ▸ below
  have read : last.operand k.body.result[j] = .ok row[j] := results.get below inRow
  refine ⟨row[j], ?_, List.getElem?_eq_getElem inRow⟩
  rw [← read]
  apply Env.operand_congr
  intro v free
  cases shown : k.body.result[j] with
  | const c =>
    rw [shown] at free
    exact absurd free (NameSet.not_mem_empty v)
  | var w =>
    rw [shown] at free invariant
    cases NameSet.mem_singleton.mp free
    simp only [invariantResult, Bool.and_eq_true, decide_eq_true_eq, List.mem_append, not_or, Body.bound_eq] at invariant
    rw [evalStms_frame first invariant.2.1, frame v invariant.2.2]

/-- An output that is the same in every thread is made of copies. -/
theorem Rows.copies (threads : k.Rows env count dims rows) (invariant : invariantResult table (k.body.bound ++ k.threadNames) value = true)
    (result : k.body.result[j]? = some value) (ordered : nondecreasing ret.2 = true) (read : env.operand value = .ok x)
    (typed : x.elem = ret.1.elem) (space : dims ≠ []) (assembled : assemble env dims ret (column j rows) = .ok out) :
    k.Copies env ret.1 value out := by
  obtain ⟨shape, e, stacked, sized, elem, made, fits, rfl⟩ := assemble_in_order ordered assembled
  have same : column j rows = List.replicate count x := by
    rw [column, @List.filterMap_congr _ _ _ (fun _ => some x), List.filterMap_eq_map', List.map_const', threads.length]
    intro row mem
    obtain ⟨y, again, there⟩ := threads.invariant invariant result mem
    cases read.symm.trans again
    exact there
  rw [same] at made
  obtain ⟨flat, copied, elem', data⟩ := ArrayValue.replicate_of_elem (typed.trans elem) made
  refine ⟨flat, dims ++ shape, { stacked with shape := dims ++ shape }, ?_, ?_, ?_, rfl⟩
  · have one : env.sizes [k.width] = .ok [count] := mapM_eq_ok.mpr (.cons threads.width .nil)
    rw [Exp.eval, one, ok_bind, read, ok_bind, copied]
    rfl
  · exact mapM_eq_ok.mpr (List.rel_append (mapM_eq_ok.mp threads.extents) (mapM_eq_ok.mp sized))
  · have dimensions : dims ++ shape ≠ [] := fun none => space (List.append_eq_nil_iff.mp none).1
    rw [ArrayValue.reshape, if_pos ⟨data ▸ fits, dimensions⟩, elem', data]

variable {S : Scope} {env' : Env} {ty : Ty}

/-- The names that the copies for an output are made from. -/
def copyReads (k : MapKernel) (ty : Ty) (value : Operand) : NameSet :=
  k.width.free ∪ freeOperands (k.extents ++ ty.shape) ∪ value.free

theorem Copies.agree (h : k.Copies env ty value out) (agree : env.Agree S env') (inside : InScope S (k.copyReads ty value)) :
    k.Copies env' ty value out := by
  simp only [copyReads, InScope.union_iff] at inside
  obtain ⟨flat, new, b, copied, sized, rest⟩ := h
  refine ⟨flat, new, b, ?_, agree.sizes inside.1.2 ▸ sized, rest⟩
  rw [← copied]
  symm
  apply Exp.eval_agree _ _ agree
  constructor
  · rw [Exp.free, InScope.union_iff]
    exact ⟨InScope.gather_iff.mpr fun y mem => List.mem_singleton.mp mem ▸ inside.1.1, inside.2⟩
  · exact fun _ mem => absurd mem List.not_mem_nil

/-- The two bindings that build an output. -/
theorem Copies.evaluates {flatTy : Ty} {flat : Name} {b : Binder} {certs : List Name} (h : k.Copies env ty value out)
    (fresh : flat ∉ freeOperands (k.extents ++ ty.shape)) :
    ∃ a, evalStms env [⟨.single flat flatTy, certs, .replicate [k.width] value⟩, ⟨⟨[], [b]⟩, certs, .reshape (k.extents ++ ty.shape) flat⟩] =
      .ok ((env.bind flat a).bind b.name out) := by
  obtain ⟨flatValue, new, reshaped, copied, sized, fits, rfl⟩ := h
  have apart : env.Agree (· ∈ freeOperands (k.extents ++ ty.shape)) (env.bind flat (.array flatValue)) := .bind_other fresh _
  have there : (env.bind flat (.array flatValue)).array flat = .ok flatValue := by
    apply Env.array_eq_ok.mpr
    rw [Env.get?_bind_self]
  refine ⟨.array flatValue, ?_⟩
  rw [Pattern.single, evalStms_sole copied, evalStms_sole (x := .array reshaped)]
  · rfl
  · rw [Exp.eval, there, ok_bind, ← apart.sizes fun _ mem => mem, sized, ok_bind, fits]

end

end MapKernel

/-! The bindings that build outputs -/

section
variable {stm : Stm} {outputs : List (Binder × (Ty × List Nat) × Operand)} {names names' : NameSupply} {stms : List Stm}

/-- They bind the outputs and new names. -/
theorem replicateOutputs_bound (made : replicateOutputs stm k outputs names = (stms, names')) {v : Name} (mem : v ∈ boundInStms stms) :
    v ∈ outputs.map (fun o => o.1.name) ∨ names.next ≤ v.tag := by
  induction outputs generalizing names stms with
  | nil =>
    cases made
    cases mem
  | cons output outputs ih =>
    obtain ⟨b, ⟨ty, perm⟩, value⟩ := output
    rw [replicateOutputs] at made
    dsimp only [NameSupply.fresh] at made
    rcases rest : replicateOutputs stm k outputs ⟨names.next + 1⟩ with ⟨more, names₁⟩
    rw [rest] at made
    cases made
    simp only [boundInStms_cons, Stm.bound, Exp.bound, Pattern.single, Pattern.names, Pattern.binders, List.nil_append, List.append_nil,
      List.map_cons, List.map_nil, List.cons_append, List.mem_cons] at mem
    rcases mem with rfl | rfl | later
    · exact .inr (Nat.le_refl _)
    · exact .inl List.mem_cons_self
    · rcases ih rest later with own | drawn
      · exact .inl (List.mem_cons_of_mem _ own)
      · exact .inr (Nat.le_of_succ_le drawn)

theorem replicateOutputs_frame (made : replicateOutputs stm k outputs names = (stms, names')) (ran : evalStms env stms = .ok next) {v : Name}
    (used : v.tag < names.next) (other : v ∉ outputs.map (fun o => o.1.name)) : next.get? v = env.get? v := by
  apply evalStms_frame ran
  intro mem
  rcases replicateOutputs_bound made mem with own | drawn
  · exact other own
  · exact Nat.not_lt.mpr drawn used

/-- They give each output its copies. -/
theorem replicateOutputs_evaluates {S : Scope} {ys : List Value} (made : replicateOutputs stm k outputs names = (stms, names'))
    (old : ∀ v, S v → v.tag < names.next) (own : ∀ o ∈ outputs, ¬S o.1.name ∧ o.1.name.tag < names.next)
    (distinct : (outputs.map fun o => o.1.name).Nodup) (inside : ∀ o ∈ outputs, InScope S (k.copyReads o.2.1.1 o.2.2))
    (full : outputs.length = ys.length) (copies : ∀ p ∈ outputs.zip ys, k.Copies env p.1.2.1.1 p.1.2.2 p.2) :
    ∃ next, evalStms env stms = .ok next ∧ ∀ p ∈ outputs.zip ys, next.get? p.1.1.name = some p.2 := by
  induction outputs generalizing env names stms ys with
  | nil =>
    cases made
    exact ⟨env, rfl, fun _ mem => absurd mem List.not_mem_nil⟩
  | cons output outputs ih =>
    obtain ⟨y, ys, rfl⟩ := List.exists_cons_of_length_eq_add_one full.symm
    obtain ⟨b, ⟨ty, perm⟩, value⟩ := output
    rw [replicateOutputs] at made
    dsimp only [NameSupply.fresh] at made
    rcases rest : replicateOutputs stm k outputs ⟨names.next + 1⟩ with ⟨more, names₁⟩
    rw [rest] at made
    cases made
    rw [List.zip_cons_cons, List.forall_mem_cons] at copies
    obtain ⟨here, later⟩ := List.forall_mem_cons.mp inside
    obtain ⟨mine, others⟩ := List.forall_mem_cons.mp own
    rw [List.map_cons, List.nodup_cons] at distinct
    have fresh : ⟨b.name.base ++ "_flat", names.next⟩ ∉ freeOperands (k.extents ++ ty.shape) := by
      intro mem
      have used := old _ (here _ (NameSet.mem_union.mpr (.inl (NameSet.mem_union.mpr (.inr mem)))))
      exact Nat.lt_irrefl names.next used
    obtain ⟨a, ran⟩ := @MapKernel.Copies.evaluates env k value y ty (ty.addDims [k.width]) _ b stm.certs copies.1 fresh
    -- the other outputs read nothing of what is bound here
    have agree : env.Agree S ((env.bind ⟨b.name.base ++ "_flat", names.next⟩ a).bind b.name y) := by
      apply Env.Agree.trans (Env.Agree.bind_other _ a) (Env.Agree.bind_other mine.1 y)
      exact fun visible => Nat.lt_irrefl _ (old _ visible)
    obtain ⟨next, ranRest, values⟩ := @ih _ _ _ _ rest (fun v visible => Nat.lt_succ_of_lt (old v visible))
      (fun o mem => ⟨(others o mem).1, Nat.lt_succ_of_lt (others o mem).2⟩) distinct.2 later (Nat.succ.inj full)
      fun p mem => (copies.2 p mem).agree agree (later p.1 (List.of_mem_zip mem).1)
    refine ⟨next, ?_, List.forall_mem_cons.mpr ⟨?_, values⟩⟩
    · apply (evalStms_append env [_, _] more).trans
      rw [ran, ok_bind, ranRest]
    · rw [replicateOutputs_frame rest ranRest (Nat.lt_succ_of_lt mine.2) distinct.1, Env.get?_bind_self]

theorem eval_reshape_rank {shape : List Operand} {array : Name} (h : (Exp.reshape shape array).eval env = .ok vs) :
    ∃ a, vs = [.array a] ∧ a.shape.length = shape.length := by
  rw [Exp.eval] at h
  obtain ⟨a, _, h⟩ := bind_eq_ok.mp h
  obtain ⟨dims, sized, h⟩ := bind_eq_ok.mp h
  have length : shape.length = dims.length := (mapM_eq_ok.mp sized).length_eq
  rw [ArrayValue.reshape] at h
  split at h
  · rename_i b found
    cases h
    split at found
    · cases found
      exact ⟨_, rfl, length.symm⟩
    · cases found
  · cases h

/-- If they have values at all, then each output has one dimension for each dimension of the index space and of a row. -/
theorem replicateOutputs_rank (made : replicateOutputs stm k outputs names = (stms, names')) (ran : evalStms env stms = .ok next)
    (own : ∀ o ∈ outputs, o.1.name.tag < names.next) (distinct : (outputs.map fun o => o.1.name).Nodup) :
    ∀ o ∈ outputs, ∃ a, next.get? o.1.name = some (.array a) ∧ a.shape.length = k.space.length + o.2.1.1.shape.length := by
  induction outputs generalizing env names stms with
  | nil => exact fun _ mem => absurd mem List.not_mem_nil
  | cons output outputs ih =>
    obtain ⟨b, ⟨ty, perm⟩, value⟩ := output
    rw [replicateOutputs] at made
    dsimp only [NameSupply.fresh] at made
    rcases rest : replicateOutputs stm k outputs ⟨names.next + 1⟩ with ⟨more, names₁⟩
    rw [rest] at made
    cases made
    rw [List.map_cons, List.nodup_cons] at distinct
    obtain ⟨mine, others⟩ := List.forall_mem_cons.mp own
    obtain ⟨mid, _, second⟩ := bind_eq_ok.mp ((evalStms_append env [_] _).symm.trans ran)
    obtain ⟨last, second, third⟩ := bind_eq_ok.mp ((evalStms_append mid [_] more).symm.trans second)
    rw [List.forall_mem_cons]
    refine ⟨?_, ih rest third (fun o mem => Nat.lt_succ_of_lt (others o mem)) distinct.2⟩
    obtain ⟨vs, reshaped, _, bound⟩ := (evalStms_outputs rfl).mp second
    obtain ⟨a, rfl, rank⟩ := eval_reshape_rank reshaped
    refine ⟨a, ?_, ?_⟩
    · rw [replicateOutputs_frame rest third (Nat.lt_succ_of_lt mine) distinct.1, bound]
      exact Env.get?_bind_self ..
    · rw [rank, List.length_append, MapKernel.extents, List.length_map]

end

/-! The rule -/

theorem invariantResult_known {table : SymbolTable} {inside : List Name} {value : Operand}
    (binds : ∀ v, table.contains v = true → ∃ x, env.get? v = some x) (h : invariantResult table inside value = true) :
    ∃ x, env.operand value = .ok x := by
  cases value with
  | const c => exact ⟨.scalar c, rfl⟩
  | var v =>
    simp only [invariantResult, Bool.and_eq_true] at h
    obtain ⟨x, there⟩ := binds v h.1
    exact ⟨x, Env.lookup_eq_ok.mpr there⟩

/-- What the copies are made from is free in the kernel or bound in it. -/
theorem MapKernel.copyReads_inScope {S : Scope} (enclosed : Encloses S (Kernel.map k).free (Kernel.map k).bound) {ret : Ty × List Nat}
    {value : Operand} (returned : ret ∈ k.returns) (result : value ∈ k.body.result) : InScope S (k.copyReads ret.1 value) := by
  obtain ⟨certs, width, thread, space, inputs, returns, ⟨stms, results⟩⟩ := k
  obtain ⟨operands, inner⟩ := InScope.union_iff.mp enclosed.free
  obtain ⟨sizes, extents⟩ := InScope.union_iff.mp operands
  have all := inner.of_without fun v mem => enclosed.bound v (List.mem_append_left _ mem)
  obtain ⟨all, typed⟩ := InScope.union_iff.mp all
  obtain ⟨free, _⟩ := InScope.union_iff.mp all
  have covered : Encloses S (freeBefore (freeOperands results) stms) (boundInStms stms) :=
    ⟨free, fun v mem => enclosed.bound v (List.mem_append_right _ mem)⟩
  have shape := InScope.gather_iff.mp typed ret.1 (List.mem_map_of_mem returned)
  simp only [copyReads, InScope.union_iff]
  exact ⟨⟨(InScope.union_iff.mp sizes).2, Ty.inScope_dims extents shape⟩, InScope.gather_iff.mp covered.after value result⟩

section
variable {table : SymbolTable} {stm : Stm}

/-- The values of the moved outputs under their names. -/
theorem movedOutputs_values (flagged : Flagged (invariantFlags table k) stm k) (full : vs.length = stm.pat.values.length) :
    (((movedOutputs table stm k).zip (pick (invariantFlags table k) vs)).map fun p => (p.1.1.name, p.2)) =
      pick (invariantFlags table k) (stm.pat.names.zip vs) := by
  rw [← pick_zip _ (Pattern.length_names flagged.context full), Pattern.names_eq flagged.context, ← map_pick, ← movedOutputs_names flagged,
    List.zip_map_left]
  rfl

/-- The outputs that are moved out of a kernel with values are made of copies. -/
theorem movedOutputs_copies (flagged : Flagged (invariantFlags table k) stm k)
    (ordered : ∀ r ∈ pick (invariantFlags table k) k.returns, nondecreasing r.2 = true) (space : k.space ≠ [])
    (binds : ∀ v, table.contains v = true → ∃ x, env.get? v = some x)
    (typed : ∀ o ∈ movedOutputs table stm k, ∀ x, env.operand o.2.2 = .ok x → x.elem = o.2.1.1.elem)
    (evaluates : (Kernel.map k).eval env = .ok vs) (full : vs.length = stm.pat.values.length) :
    ∀ p ∈ (movedOutputs table stm k).zip (pick (invariantFlags table k) vs), k.Copies env p.1.2.1.1 p.1.2.2 p.2 := by
  obtain ⟨count, dims, rows, threads, assembled⟩ := MapKernel.eval_eq_rows.mp evaluates
  have dimensions : dims ≠ [] := by
    intro none
    apply space
    apply List.eq_nil_of_length_eq_zero
    rw [← List.length_map Prod.snd, ← MapKernel.extents, (mapM_eq_ok.mp threads.extents).length_eq, none, List.length_nil]
  intro p mem
  obtain ⟨invariant, returned, j, returnedHere, resultHere, here⟩ := movedOutputs_place flagged full mem
  obtain ⟨x, read⟩ := invariantResult_known binds invariant
  have column := MapKernel.assemble_of_columns assembled returnedHere here
  rw [if_neg dimensions] at column
  exact threads.copies invariant resultHere (ordered _ returned) read (typed _ (List.of_mem_zip mem).1 x read) dimensions column

theorem movedOutputs_sublist (flagged : Flagged (invariantFlags table k) stm k) :
    ((movedOutputs table stm k).map fun o => o.1.name).Sublist stm.pat.names := by
  rw [movedOutputs_names flagged, Pattern.names_eq flagged.context]
  exact (pick_sublist _ _).map Binder.name

theorem movedOutputs_length (flagged : Flagged (invariantFlags table k) stm k) (full : vs.length = stm.pat.values.length) :
    (movedOutputs table stm k).length = (pick (invariantFlags table k) vs).length := by
  rw [← List.length_map Prod.fst, movedOutputs_fst flagged, length_pick flagged.values, length_pick (flagged.values.trans full.symm)]

/-- The outputs of a kernel without an index space are laid out over its width. -/
theorem movedOutputs_rank (flagged : Flagged (invariantFlags table k) stm k)
    (ordered : ∀ r ∈ pick (invariantFlags table k) k.returns, nondecreasing r.2 = true) (space : k.space = [])
    (evaluates : (Kernel.map k).eval env = .ok vs) (full : vs.length = stm.pat.values.length) :
    ∀ p ∈ (movedOutputs table stm k).zip (pick (invariantFlags table k) vs),
      ∃ a, p.2 = .array a ∧ a.shape.length = 1 + p.1.2.1.1.shape.length := by
  obtain ⟨count, dims, rows, threads, assembled⟩ := MapKernel.eval_eq_rows.mp evaluates
  have none : dims = [] := by
    have extents := threads.extents
    rw [MapKernel.extents, space] at extents
    cases extents
    rfl
  intro p mem
  obtain ⟨_, returned, j, returnedHere, _, here⟩ := movedOutputs_place flagged full mem
  have column := MapKernel.assemble_of_columns assembled returnedHere here
  rw [if_pos none] at column
  obtain ⟨shape, _, flat, sized, _, _, _, same⟩ := MapKernel.assemble_in_order (ordered _ returned) column
  refine ⟨_, same, ?_⟩
  have length : p.1.2.1.1.shape.length = shape.length := (mapM_eq_ok.mp sized).length_eq
  rw [length, List.length_append]
  rfl

/-- The names in use that a statement does not bind itself. -/
def Stm.outside (stm : Stm) (n : Nat) : Scope := fun v => v.tag < n ∧ v ∉ stm.pat.names

variable {names names' : NameSupply} {new : List Stm} (distinct : stm.bound.Nodup) (apart : ∀ v ∈ stm.pat.names, v ∉ stm.exp.free)
  (fresh : ∀ v, v ∈ stm.free ∨ v ∈ stm.bound → v.tag < names.next)
include distinct apart fresh

theorem Stm.encloses_own : Encloses (stm.outside names.next) stm.exp.free stm.exp.bound := by
  obtain ⟨pat, certs, exp⟩ := stm
  constructor
  · intro v mem
    exact ⟨fresh v (.inl (NameSet.mem_union.mpr (.inr mem))), fun own => apart v own mem⟩
  · intro v mem
    exact ⟨fresh v (.inr (List.mem_append_right _ mem)), fun own => (List.nodup_append.mp distinct).2.2 v own v mem rfl⟩

/-- Where the index space has dimensions. -/
theorem hoistInvariantOutputs_evaluates (applied : hoistInvariantOutputs table stm names = some (new, names'))
    (launched : stm.exp = .launch (.map k)) (space : k.space ≠ []) (binds : ∀ v, table.contains v = true → ∃ x, env.get? v = some x)
    (typed : ∀ o ∈ movedOutputs table stm k, ∀ x, env.operand o.2.2 = .ok x → x.elem = o.2.1.1.elem)
    (evaluates : evalStms env [stm] = .ok next) :
    ∃ next', evalStms env new = .ok next' ∧ ∀ v, v.tag < names.next → next'.get? v = next.get? v := by
  obtain ⟨k', stms, launched', flagged, _, ordered, made, shape⟩ := hoistInvariantOutputs_eq_some applied
  cases launched.symm.trans launched'
  obtain ⟨vs, kernel, full, rfl⟩ := (evalStms_outputs flagged.context).mp evaluates
  have enclosed := Stm.encloses_own distinct apart fresh
  rw [launched] at kernel enclosed
  have all := Pattern.names_eq flagged.context
  have once : stm.pat.names.Nodup := (List.nodup_append.mp distinct).1
  have moved := movedOutputs_sublist flagged
  have reads (o) (mem : o ∈ movedOutputs table stm k) : InScope (stm.outside names.next) (k.copyReads o.2.1.1 o.2.2) := by
    obtain ⟨ret, result⟩ := List.of_mem_zip (List.of_mem_zip mem).2
    exact MapKernel.copyReads_inScope enclosed ((pick_sublist _ _).subset ret) ((pick_sublist _ _).subset result)
  have own (o) (mem : o ∈ movedOutputs table stm k) : ¬stm.outside names.next o.1.name ∧ o.1.name.tag < names.next := by
    have bound := moved.subset (List.mem_map_of_mem mem)
    exact ⟨fun seen => seen.2 bound, fresh _ (.inr (List.mem_append_left _ bound))⟩
  obtain ⟨mid, ran, values⟩ := replicateOutputs_evaluates made (fun v seen => seen.1) own (once.sublist moved) reads (movedOutputs_length flagged full)
    (movedOutputs_copies flagged ordered space binds typed kernel full)
  have frame (v : Name) (used : v.tag < names.next) (other : v ∉ stm.pat.names) : mid.get? v = env.get? v :=
    replicateOutputs_frame made ran used fun mem => other (moved.subset mem)
  -- the outputs that are left do not depend on those that moved
  have kernel' : (Kernel.map k).eval mid = .ok vs := by
    rw [← kernel]
    exact (Kernel.eval_agree (.map k) enclosed fun v seen => (frame v seen.1 seen.2).symm).symm
  have ranLast : ∃ rest, new = stms ++ rest ∧
      evalStms mid rest = .ok (mid.bindAll (pick ((invariantFlags table k).map (!·)) (stm.pat.names.zip vs))) := by
    rcases shape with ⟨rfl, every⟩ | rfl
    · refine ⟨[], (List.append_nil _).symm, ?_⟩
      rw [pick_not_all _ every]
      rfl
    · exact ⟨_, rfl, keepOutputs_evaluates flagged.negate kernel' full⟩
  obtain ⟨rest, rfl, ranLast⟩ := ranLast
  have bound := Pattern.map_fst_zip flagged.context full
  have ranAll := evalStms_append env stms rest
  rw [ran, ok_bind, ranLast] at ranAll
  refine ⟨_, ranAll, fun v used => Env.get?_bindAll_pick ?_ ?_ ?_ ?_⟩
  · rw [← List.length_map Prod.fst, bound, all, List.length_map, flagged.values]
  · rw [bound]
    exact once
  · intro b mem
    rw [← movedOutputs_values flagged full] at mem
    obtain ⟨p, among, rfl⟩ := List.mem_map.mp mem
    exact values p among
  · rw [bound]
    exact frame v used

omit apart in
/-- Without an index space an output of the kernel has the width as its first dimension, and what is built outside lacks it. -/
theorem hoistInvariantOutputs_misses (applied : hoistInvariantOutputs table stm names = some (new, names'))
    (launched : stm.exp = .launch (.map k)) (space : k.space = []) (evaluates : evalStms env [stm] = .ok next) :
    ¬∃ next', evalStms env new = .ok next' ∧ ∀ v ∈ stm.pat.names, next'.get? v = next.get? v := by
  rintro ⟨next', ran, same⟩
  obtain ⟨k', stms, launched', flagged, some, ordered, made, shape⟩ := hoistInvariantOutputs_eq_some applied
  cases launched.symm.trans launched'
  obtain ⟨vs, kernel, full, rfl⟩ := (evalStms_outputs flagged.context).mp evaluates
  rw [launched] at kernel
  have once : stm.pat.names.Nodup := (List.nodup_append.mp distinct).1
  have moved := movedOutputs_sublist flagged
  -- one output that is moved
  obtain ⟨p, mem⟩ := @List.exists_mem_of_length_pos _ ((movedOutputs table stm k).zip (pick (invariantFlags table k) vs)) (by
    rw [List.length_zip, movedOutputs_length flagged full, Nat.min_self, length_pick (flagged.values.trans full.symm)]
    exact List.count_pos_iff.mpr some)
  have named : (p.1.1.name, p.2) ∈ pick (invariantFlags table k) (stm.pat.names.zip vs) := by
    rw [← movedOutputs_values flagged full]
    exact List.mem_map_of_mem mem
  have own := moved.subset (List.mem_map_of_mem (List.of_mem_zip mem).1)
  obtain ⟨a, value, rank⟩ := movedOutputs_rank flagged ordered space kernel full p mem
  have before : (env.bindAll (stm.pat.names.zip vs)).get? p.1.1.name = .some (.array a) := by
    rw [← value]
    apply Env.get?_bindAll_of_nodup env _ ((pick_sublist _ _).subset named)
    rw [Pattern.map_fst_zip flagged.context full]
    exact once
  have ends : ∃ mid, evalStms env stms = .ok mid ∧ next'.get? p.1.1.name = mid.get? p.1.1.name := by
    rcases shape with ⟨rfl, _⟩ | rfl
    · exact ⟨next', ran, rfl⟩
    · obtain ⟨mid, first, last⟩ := bind_eq_ok.mp ((evalStms_append env stms _).symm.trans ran)
      rw [← pick_zip _ (Pattern.length_names flagged.context full)] at named
      exact ⟨mid, first, keepOutputs_frame flagged once last (List.of_mem_zip named).1⟩
  obtain ⟨mid, ran, frame⟩ := ends
  obtain ⟨b, there, rank'⟩ := replicateOutputs_rank made ran
    (fun o mem => fresh _ (.inr (List.mem_append_left _ (moved.subset (List.mem_map_of_mem mem))))) (once.sublist moved)
    p.1 (List.of_mem_zip mem).1
  cases (frame.trans there).symm.trans ((same _ own).trans before)
  rw [rank, space, List.length_nil] at rank'
  omega

end

/-- Building the outputs that are the same in every thread outside of their kernel keeps the values of all names, provided that
the kernel has an index space. Without one it never keeps them. -/
theorem hoistInvariantOutputs_keeps_values {table : SymbolTable} {stm : Stm} {names names' : NameSupply} {new : List Stm}
    (applied : hoistInvariantOutputs table stm names = some (new, names')) (launched : stm.exp = .launch (.map k))
    (distinct : stm.bound.Nodup) (apart : ∀ v ∈ stm.pat.names, v ∉ stm.exp.free)
    (fresh : ∀ v, v ∈ stm.free ∨ v ∈ stm.bound → v.tag < names.next) (binds : ∀ v, table.contains v = true → ∃ x, env.get? v = some x)
    (typed : ∀ o ∈ movedOutputs table stm k, ∀ x, env.operand o.2.2 = .ok x → x.elem = o.2.1.1.elem)
    (evaluates : evalStms env [stm] = .ok next) :
    (k.space ≠ [] → ∃ next', evalStms env new = .ok next' ∧ ∀ v, v.tag < names.next → next'.get? v = next.get? v) ∧
      (k.space = [] → ¬∃ next', evalStms env new = .ok next' ∧ ∀ v ∈ stm.pat.names, next'.get? v = next.get? v) := by
  constructor
  · intro space
    exact hoistInvariantOutputs_evaluates distinct apart fresh applied launched space binds typed evaluates
  · intro space
    exact hoistInvariantOutputs_misses distinct fresh applied launched space evaluates

/-- Each thread gives `c` and an element of `xs`. -/
def sampleFillKernel (width : Int64) (space : List (Name × Operand)) : MapKernel :=
  let word : Ty := .scalar .i64
  let t : Name := ⟨"t", 4⟩
  let p : Name := ⟨"p", 6⟩
  ⟨[], .word width, t, space, [⟨⟨p, word, none⟩, ⟨"xs", 1⟩, [.var t]⟩], [(word, [0]), (word, [0])], ⟨[], [.var ⟨"c", 0⟩, .var p]⟩⟩

def sampleFill (width : Int64) (space : List (Name × Operand)) : Stm :=
  let column : Ty := .array .i64 [.word width] false
  ⟨⟨[], [⟨⟨"ys", 2⟩, column, none⟩, ⟨⟨"zs", 3⟩, column, none⟩]⟩, [], .launch (.map (sampleFillKernel width space))⟩

def sampleFillScope : SymbolTable := .bindName .empty ⟨"c", 0⟩ (.scalar .i64)

def sampleFillValues : Env := (Env.empty.bind ⟨"c", 0⟩ (.word 7)).bind ⟨"xs", 1⟩ (.words [5, 6])

theorem sampleFill_keeps_values :
    ∃ new next', hoistInvariantOutputs sampleFillScope (sampleFill 2 [(⟨"i", 5⟩, .word 2)]) ⟨7⟩ = some (new, ⟨8⟩) ∧
      evalStms sampleFillValues new = .ok next' ∧ next'.get? ⟨"ys", 2⟩ = some (.words [7, 7]) ∧
      next'.get? ⟨"zs", 3⟩ = some (.words [5, 6]) := by
  have fresh (v : Name) (used : v ∈ (sampleFill 2 [(⟨"i", 5⟩, .word 2)]).free ∨ v ∈ (sampleFill 2 [(⟨"i", 5⟩, .word 2)]).bound) :
      v.tag < 7 := by
    obtain free | bound := used
    · revert v
      decide
    · revert v
      decide
  have binds (v : Name) (known : sampleFillScope.contains v = true) : ∃ x, sampleFillValues.get? v = some x := by
    have all : ∀ e ∈ sampleFillScope.entries, (sampleFillValues.get? e.1).isSome = true := by decide
    obtain ⟨entry, found⟩ := Option.isSome_iff_exists.mp known
    obtain ⟨_, _, split, _⟩ := List.lookup_eq_some_iff.mp found
    exact Option.isSome_iff_exists.mp (all (v, entry) (by simp [split]))
  have typed (o) (mem : o ∈ movedOutputs sampleFillScope (sampleFill 2 [(⟨"i", 5⟩, .word 2)]) (sampleFillKernel 2 [(⟨"i", 5⟩, .word 2)]))
      (x) (read : sampleFillValues.operand o.2.2 = .ok x) : x.elem = o.2.1.1.elem := by
    cases List.mem_singleton.mp mem
    cases read
    rfl
  obtain ⟨keeps, _⟩ := @hoistInvariantOutputs_keeps_values sampleFillValues _ _ sampleFillScope (sampleFill 2 [(⟨"i", 5⟩, .word 2)])
    ⟨7⟩ ⟨8⟩ _ rfl rfl (by decide) (by decide) fresh binds typed rfl
  obtain ⟨next', ran, same⟩ := keeps (by decide)
  exact ⟨_, next', rfl, ran, same _ (by decide), same _ (by decide)⟩

/-- Without an index space the copies are reshaped to a scalar. -/
theorem sampleFill_hoist_fails :
    (sampleFill 1 []).bound.Nodup ∧ (∀ v ∈ (sampleFill 1 []).pat.names, v ∉ (sampleFill 1 []).exp.free) ∧
    (∃ next, evalStms sampleFillValues [sampleFill 1 []] = .ok next ∧ next.get? ⟨"ys", 2⟩ = some (.words [7]) ∧
      next.get? ⟨"zs", 3⟩ = some (.words [5])) ∧
    ∃ new, hoistInvariantOutputs sampleFillScope (sampleFill 1 []) ⟨7⟩ = some (new, ⟨8⟩) ∧
      ¬∃ next', evalStms sampleFillValues new = .ok next' := by
  refine ⟨by decide, by decide, ⟨_, rfl, rfl, rfl⟩, _, rfl, ?_⟩
  rintro ⟨next', ran⟩
  cases ran

end ArrayKernels
